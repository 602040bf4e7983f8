import Mathlib.Tactic

/-!
# Doubly linked rings

A ring is given by its links in both directions, as arrays from nodes to nodes.
`Linked next prev a l b` says that going forward from `a` visits the nodes of `l`
and then `b`, and going backward from `b` visits them in reverse. A ring with head
`h` is a list that is linked from `h` to `h`.
-/

namespace Lainos.Library

variable {next prev next' prev' : ℕ → ℕ} {a b h x y : ℕ} {l l₁ l₂ : List ℕ}

def Linked (next prev : ℕ → ℕ) : ℕ → List ℕ → ℕ → Prop
  | a, [], b => next a = b ∧ prev b = a
  | a, x :: xs, b => next a = x ∧ prev x = a ∧ Linked next prev x xs b

structure Ring (next prev : ℕ → ℕ) (h : ℕ) (l : List ℕ) : Prop where
  linked : Linked next prev h l h
  nodup : (h :: l).Nodup

namespace Linked

theorem congr (hl : Linked next prev a l b) (hnext : ∀ u ∈ a :: l, next' u = next u)
    (hprev : ∀ v, v ∈ l ∨ v = b → prev' v = prev v) : Linked next' prev' a l b := by
  induction l generalizing a with
  | nil => exact ⟨(hnext a List.mem_cons_self).trans hl.1, (hprev b (Or.inr rfl)).trans hl.2⟩
  | cons x xs ih =>
    refine ⟨(hnext a List.mem_cons_self).trans hl.1,
      (hprev x (Or.inl List.mem_cons_self)).trans hl.2.1, ih hl.2.2 ?_ ?_⟩
    · exact fun u hu => hnext u (List.mem_cons_of_mem _ hu)
    · exact fun v hv => hprev v (hv.imp_left (List.mem_cons_of_mem _))

theorem append_iff : Linked next prev a (l₁ ++ x :: l₂) b ↔
    Linked next prev a l₁ x ∧ Linked next prev x l₂ b := by
  induction l₁ generalizing a with
  | nil => simp only [List.nil_append, Linked, and_assoc]
  | cons z zs ih => simp only [List.cons_append, Linked, ih, and_assoc]

theorem prev_mem (hl : Linked next prev a l b) : prev b ∈ a :: l := by
  induction l generalizing a with
  | nil => exact List.mem_singleton.mpr hl.2
  | cons x xs ih => exact List.mem_cons_of_mem _ (ih hl.2.2)

/-- The last link is redirected to `y`. -/
theorem redirect (hl : Linked next prev a l b) (hnodup : (a :: l).Nodup) (hy : y ∉ l) :
    Linked (Function.update next (prev b) y) (Function.update prev y (prev b)) a l y := by
  induction l generalizing a with
  | nil =>
    obtain ⟨-, rfl⟩ := hl
    exact ⟨Function.update_self .., Function.update_self ..⟩
  | cons x xs ih =>
    obtain ⟨ha, hx, hrest⟩ := hl
    rw [List.nodup_cons] at hnodup
    have hne : a ≠ prev b := fun heq => hnodup.1 (heq ▸ hrest.prev_mem)
    have hyx : x ≠ y := fun heq => hy (heq ▸ List.mem_cons_self)
    refine ⟨?_, ?_, ih hrest hnodup.2 fun hmem => hy (List.mem_cons_of_mem _ hmem)⟩
    · rw [Function.update_of_ne hne, ha]
    · rw [Function.update_of_ne hyx, hx]

theorem reverse (hl : Linked next prev a l b) : Linked prev next b l.reverse a := by
  induction l generalizing a with
  | nil => exact ⟨hl.2, hl.1⟩
  | cons x xs ih =>
    rw [List.reverse_cons, append_iff]
    exact ⟨ih hl.2.2, hl.2.1, hl.1⟩

end Linked

/-- Going along the links from `b` up to the head `h`, the first node that
satisfies `p`. -/
def walk (next : ℕ → ℕ) (h : ℕ) (p : ℕ → Bool) : ℕ → ℕ → Option ℕ
  | 0, _ => none
  | fuel + 1, b => if b = h then none else if p b then some b else walk next h p fuel (next b)

theorem walk_some {p : ℕ → Bool} {fuel : ℕ}
    (hw : walk next h p fuel a = some b) : p b = true := by
  induction fuel generalizing a with
  | zero => cases hw
  | succ fuel ih =>
    rw [walk] at hw
    split_ifs at hw with hhead hp
    · exact Option.some.inj hw ▸ hp
    · exact ih hw

theorem Linked.walk_eq {p : ℕ → Bool} {fuel : ℕ} (hl : Linked next prev a l h) (hh : h ∉ l)
    (hfuel : l.length < fuel) : walk next h p fuel (next a) = l.find? p := by
  induction l generalizing a fuel with
  | nil =>
    obtain ⟨fuel, rfl⟩ := Nat.exists_eq_succ_of_ne_zero (by omega : fuel ≠ 0)
    rw [hl.1, walk, if_pos rfl, List.find?_nil]
  | cons x xs ih =>
    obtain ⟨fuel, rfl⟩ := Nat.exists_eq_succ_of_ne_zero (by omega : fuel ≠ 0)
    simp only [List.mem_cons, not_or, List.length_cons] at hh hfuel
    rw [hl.1, walk, if_neg (Ne.symm hh.1), List.find?_cons]
    cases p x with
    | true => rfl
    | false => exact ih hl.2.2 hh.2 (by omega)

namespace Ring

/-- Taking a node out of the ring: `b->prev->next = b->next` and
`b->next->prev = b->prev`. -/
theorem unlink (hr : Ring next prev h (l₁ ++ b :: l₂)) :
    Ring (Function.update next (prev b) (next b)) (Function.update prev (next b) (prev b)) h
      (l₁ ++ l₂) := by
  obtain ⟨hfront, hback⟩ := Linked.append_iff.mp hr.linked
  have hnodup := hr.nodup
  simp only [List.nodup_cons, List.mem_append, List.mem_cons, not_or, List.nodup_append] at hnodup
  obtain ⟨⟨hh₁, hhb, hh₂⟩, hn₁, ⟨hb₂, hn₂⟩, hdisj⟩ := hnodup
  have hfn : (h :: l₁).Nodup := List.nodup_cons.mpr ⟨hh₁, hn₁⟩
  have hpm := hfront.prev_mem
  refine ⟨?_, ?_⟩
  · cases l₂ with
    | nil =>
      rw [hback.1, List.append_nil]
      exact hfront.redirect hfn hh₁
    | cons y ys =>
      obtain ⟨hy, -, hrest⟩ := hback
      rw [hy, Linked.append_iff]
      have hyl₁ : y ∉ l₁ := fun hmem => hdisj y hmem y (by simp) rfl
      refine ⟨hfront.redirect hfn hyl₁, hrest.congr (fun u hu => ?_) fun v hv => ?_⟩
      · -- The redirected node lies in front of `b`, the others behind it.
        refine Function.update_of_ne ?_ ..
        rintro rfl
        rcases List.mem_cons.mp hpm with heq | hmem
        · exact hh₂ (heq ▸ hu)
        · exact hdisj _ hmem _ (Or.inr hu) rfl
      · refine Function.update_of_ne ?_ ..
        rintro rfl
        rcases hv with hmem | rfl
        · exact (List.nodup_cons.mp hn₂).1 hmem
        · exact hh₂ List.mem_cons_self
  · rw [List.nodup_cons, List.nodup_append]
    refine ⟨by simp [hh₁, hh₂], hn₁, hn₂, fun u hu v hv => hdisj u hu v (Or.inr hv)⟩

/-- Putting a node in behind the head. -/
theorem insert (hr : Ring next prev h l) (hb : b ∉ h :: l) :
    Ring (Function.update (Function.update next b (next h)) h b)
      (Function.update (Function.update prev b h) (next h) b) h (b :: l) := by
  simp only [List.mem_cons, not_or] at hb
  obtain ⟨hbh, hbl⟩ := hb
  have hnodup := List.nodup_cons.mp hr.nodup
  have hlinked := hr.linked
  refine ⟨⟨Function.update_self .., ?_⟩, ?_⟩
  · cases l with
    | nil =>
      obtain ⟨hnext, -⟩ := hlinked
      rw [hnext, Function.update_of_ne hbh, Function.update_self]
      refine ⟨rfl, ?_, Function.update_self ..⟩
      rw [Function.update_of_ne hbh, Function.update_self]
    | cons x xs =>
      obtain ⟨hnext, -, hrest⟩ := hlinked
      simp only [List.mem_cons, not_or] at hbl hnodup
      rw [hnext, Function.update_of_ne hbl.1, Function.update_self]
      refine ⟨rfl, ?_, Function.update_self .., hrest.congr (fun u hu => ?_) fun v hv => ?_⟩
      · rw [Function.update_of_ne hbh, Function.update_self]
      · have huh : u ≠ h := by
          rintro rfl
          rcases List.mem_cons.mp hu with rfl | hu
          · exact hnodup.1.1 rfl
          · exact hnodup.1.2 hu
        have hub : u ≠ b := by
          rintro rfl
          rcases List.mem_cons.mp hu with rfl | hu
          · exact hbl.1 rfl
          · exact hbl.2 hu
        rw [Function.update_of_ne huh, Function.update_of_ne hub]
      · have hvx : v ≠ x := by
          rintro rfl
          rcases hv with hv | rfl
          · exact (List.nodup_cons.mp hnodup.2).1 hv
          · exact hnodup.1.1 rfl
        have hvb : v ≠ b := by
          rintro rfl
          rcases hv with hv | rfl
          · exact hbl.2 hv
          · exact hbh rfl
        rw [Function.update_of_ne hvx, Function.update_of_ne hvb]
  · simp only [List.nodup_cons, List.mem_cons, not_or]
    exact ⟨⟨Ne.symm hbh, hnodup.1⟩, hbl, hnodup.2⟩

theorem walk_next {p : ℕ → Bool} {fuel : ℕ} (hr : Ring next prev h l) (hfuel : l.length < fuel) :
    walk next h p fuel (next h) = l.find? p :=
  hr.linked.walk_eq (List.nodup_cons.mp hr.nodup).1 hfuel

theorem walk_prev {p : ℕ → Bool} {fuel : ℕ} (hr : Ring next prev h l) (hfuel : l.length < fuel) :
    walk prev h p fuel (prev h) = l.reverse.find? p := by
  refine hr.linked.reverse.walk_eq ?_ (by rwa [List.length_reverse])
  rw [List.mem_reverse]
  exact (List.nodup_cons.mp hr.nodup).1

end Ring

end Lainos.Library
