import Lainos.Log.Recovery

/-!
# Lives and crashes

A life of the machine starts with an empty buffer cache, runs
`recover_from_log`, then any number of transactions, and ends at a crash between
two of the sector writes it issued. A history is a sequence of lives, each on
the disk the previous one left.
-/

namespace Lainos.Log

open Library

variable {start size : ℕ} {A D : Disk} {m m' : Machine}

/-- Between two transactions: clean buffers, an empty log, no transaction. -/
structure Ready (start size : ℕ) (A : Disk) (m : Machine) : Prop where
  coherent : Coherent m m.disk
  start_eq : m.log.start = start
  size_eq : m.log.size = size
  none_logged : m.log.lh.n = 0
  clean : Clean start size A m.disk

/-- From a committed log on: install it, then erase it. -/
theorem finish_spec {m₁ : Machine} (hc : Coherent m D) (hstart : m.log.start = start)
    (hsize : m.log.size = size) (hset : Settled start size A m.disk)
    (hn : m.log.lh.n.toNat = logged start m.disk)
    (hsec : ∀ t < logged start m.disk, m.log.lh.sector t = hdrSector (m.disk start) t)
    (hD : ∀ s, Home start size s → entryOf (hdrSector (m.disk start)) s (logged start m.disk) = none →
      D s = m.disk s)
    (hlog : ∀ s, ¬ Home start size s → D s = m.disk s)
    (h₁ : installTrans m = .ok ((), m₁))
    (h₂ : writeHead (m₁.withHeader m₁.log.lh.clear) = .ok ((), m')) :
    ∃ ws, m'.issued = m.issued ++ ws ∧ m'.disk = replay m.disk ws ∧
      Throughout (Settled start size A) m.disk ws ∧ Ready start size A m' ∧
      m'.log.busy = m.log.busy := by
  rw [installTrans, Exec.bind_of_ok Exec.get_run] at h₁
  have hslot : ∀ t < logged start m.disk, D (start + t + 1) = m.disk (start + t + 1) :=
    fun t ht => hlog _ (not_home_slot (hset.fits t ht))
  obtain ⟨hiss₁, hdisk₁, hc₁, hlog₁⟩ := installFrom_spec hc (by
    intro t u _ ht _ hu heq
    rw [Nat.zero_add, hn] at ht hu
    rw [hstart, hsec t ht] at heq
    exact not_home_slot (hset.fits u hu) (heq ▸ hset.home t ht)) h₁
  rw [hstart, hn] at hiss₁ hdisk₁ hc₁
  obtain ⟨b, hb, hdisk₂, hiss₂, hlog₂, hc₂⟩ := writeHead_spec (hc₁.withHeader _) h₂
  have hb₀ : hdrN b = 0 := by
    rw [hb]
    exact hdrN_putHeader _ (by simp [Machine.withHeader, LogState.withHeader, Header.clear])
      (by simp [Machine.withHeader, LogState.withHeader, Header.clear])
  have hst₁ : m₁.log.start = start := by rw [hlog₁, hstart]
  change m'.disk = Function.update m₁.disk m₁.log.start b at hdisk₂
  change m'.issued = m₁.issued ++ [(m₁.log.start, b)] at hiss₂
  change Coherent m' (Function.update _ m₁.log.start b) at hc₂
  rw [hst₁] at hdisk₂ hiss₂ hc₂
  have hthrough : Throughout (Settled start size A) m.disk
      (installWrites D start m.log.lh.sector 0 (logged start m.disk)) :=
    throughout_install hset (by omega) hslot hsec
  -- after the loop every home sector holds what recovery promises
  have hfinal : ∀ e : Disk, (∀ s, entryOf (hdrSector (m.disk start)) s (logged start m.disk) = none →
      e s = m.disk s) → ∀ s, replay e (installWrites D start m.log.lh.sector 0
        (logged start m.disk)) s = recovered start m.disk s := by
    intro e he s
    rw [replay_installWrites, recovered, entryOf_congr hsec]
    cases hs : entryOf (hdrSector (m.disk start)) s (logged start m.disk) with
    | some t => exact hslot t (entryOf_eq_some hs).1
    | none => exact he s hs
  have hset₁ := hthrough.finish
  have hhdr : replay m.disk (installWrites D start m.log.lh.sector 0 (logged start m.disk)) start =
      m.disk start := by
    apply replay_untouched
    intro w hw
    simp only [installWrites, List.mem_map, List.mem_range'_1] at hw
    obtain ⟨t, ht, rfl⟩ := hw
    rw [hsec t (by omega)]
    exact (hset.home t (by omega)).1
  have hdone : ∀ s, Home start size s → recovered start (replay m.disk (installWrites D start
      m.log.lh.sector 0 (logged start m.disk))) s = replay m.disk (installWrites D start
      m.log.lh.sector 0 (logged start m.disk)) s := by
    intro s hs
    rw [hset₁.contents s hs, hfinal m.disk (fun _ _ => rfl), hset.contents s hs]
  have hclean := hset₁.clear hdone hb₀
  refine ⟨installWrites D start m.log.lh.sector 0 (logged start m.disk) ++ [(start, b)], ?_, ?_,
    ?_, ?_, ?_⟩
  · rw [hiss₂, hiss₁, List.append_assoc]
  · rw [hdisk₂, hdisk₁, replay_append, replay_cons, replay_nil]
  · refine hthrough.append (throughout_cons hset₁ (throughout_nil ?_))
    exact hclean.settled
  · refine ⟨?_, ?_, ?_, ?_, ?_⟩
    · -- the cache and the disk went through the same writes, and differed only where these land
      convert hc₂ using 1
      rw [hdisk₂, hdisk₁]
      congr 1
      funext s
      rw [hfinal m.disk (fun _ _ => rfl), hfinal D]
      intro u hu
      by_cases hhu : Home start size u
      · exact hD u hhu hu
      · exact hlog u hhu
    · rw [hlog₂]; exact hst₁
    · rw [hlog₂]
      change m₁.log.size = size
      rw [hlog₁, hsize]
    · rw [hlog₂]; rfl
    · rw [hdisk₂, hdisk₁]
      exact hclean
  · rw [hlog₂]
    change m₁.log.busy = _
    rw [hlog₁]

/-- Recovery from any settled disk, seen write by write. -/
theorem recoverFromLog_spec (hc : Coherent m m.disk) (hstart : m.log.start = start)
    (hsize : m.log.size = size) (hset : Settled start size A m.disk)
    (h : recoverFromLog m = .ok ((), m')) :
    ∃ ws, m'.issued = m.issued ++ ws ∧ m'.disk = replay m.disk ws ∧
      Throughout (Settled start size A) m.disk ws ∧ Ready start size A m' ∧
      m'.log.busy = m.log.busy := by
  rw [recoverFromLog, Exec.bind_eq_ok] at h
  obtain ⟨_, m₀, hread, h⟩ := h
  rw [Exec.bind_eq_ok] at h
  obtain ⟨_, m₁, hinst, h⟩ := h
  rw [clearHead, Exec.bind_of_ok (Exec.modify_run _)] at h
  obtain ⟨hdisk₀, hiss₀, hc₀, hlog₀⟩ := readHead_spec hc hread
  rw [hstart] at hlog₀
  rw [← hdisk₀] at hset hc₀ ⊢
  have hlh : m₀.log.lh = m.log.lh.load (m₀.disk start) := by rw [hlog₀, hdisk₀]; rfl
  rw [← hiss₀, ← show m₀.log.busy = m.log.busy by rw [hlog₀]; rfl]
  refine finish_spec hc₀ ?_ ?_ hset ?_ ?_ (fun _ _ _ => rfl) (fun _ _ => rfl) hinst h
  · rw [hlog₀]; exact hstart
  · rw [hlog₀]; exact hsize
  · rw [hlh]; rfl
  · intro t ht
    rw [hlh]
    exact if_pos ht

/-- Log writes by sector number, as `replay` takes them. -/
def raw (t : Txn) : List (ℕ × Block) := t.map fun w => (w.1.toNat, w.2)

/-- In the middle of a transaction that began on disk `d` and logged `ws`. -/
structure Logging (start size : ℕ) (d : Disk) (ws : Txn) (n : ℕ) (D : Disk) (m : Machine) :
    Prop where
  coherent : Coherent m D
  start_eq : m.log.start = start
  size_eq : m.log.size = size
  n_eq : m.log.lh.n = n
  small : n ≤ LOGSIZE
  fits : ∀ i < n, i + 1 < size
  entries : ∀ s, (∃ i < n, m.log.lh.sector i = s) ↔ s ∈ ws.map Prod.fst
  distinct : ∀ i < n, ∀ j < n, m.log.lh.sector i = m.log.lh.sector j → i = j
  home_view : ∀ s, Home start size s → D s = replay d (raw ws) s
  log_view : ∀ s, ¬ Home start size s → D s = m.disk s
  home_disk : ∀ s, Home start size s → m.disk s = d s
  slots : ∀ i < n, m.disk (start + i + 1) = replay d (raw ws) (m.log.lh.sector i).toNat

theorem Ready.begin (h : Ready start size A m) :
    Logging start size m.disk [] 0 m.disk (m.withBusy true) := by
  refine ⟨h.coherent.withBusy _, h.start_eq, h.size_eq, h.none_logged, by simp, ?_, ?_, ?_,
    fun _ _ => rfl, fun _ _ => rfl, fun _ _ => rfl, ?_⟩
  all_goals simp

theorem slotOf_cases {lh : Header} {n : ℕ} (hn : lh.n = n) (s : UInt32) :
    (slotOf lh s < n ∧ lh.sector (slotOf lh s) = s) ∨
      (slotOf lh s = n ∧ ∀ i < n, lh.sector i ≠ s) := by
  have htn : lh.n.toNat = n := by omega
  unfold slotOf
  rw [htn]
  cases h : (List.range n).find? fun i => lh.sector i == s with
  | some i =>
    have hmem := List.mem_of_find?_eq_some h
    have hs := List.find?_some h
    simp only [List.mem_range, beq_iff_eq] at hmem hs
    exact Or.inl ⟨hmem, hs⟩
  | none =>
    refine Or.inr ⟨rfl, fun i hi heq => ?_⟩
    have := List.find?_eq_none.mp h i (List.mem_range.mpr hi)
    simp [heq] at this

/-- One logged update: a single write to a slot. -/
theorem Logging.update {d : Disk} {ws : Txn} {n : ℕ} {w : UInt32 × Block}
    (h : Logging start size d ws n D m) (hw : Home start size w.1.toNat)
    (hrun : Log.update w m = .ok ((), m')) :
    ∃ n' D' slot, Logging start size d (ws ++ [w]) n' D' m' ∧ ¬ Home start size slot ∧
      slot ≠ start ∧ m'.issued = m.issued ++ [(slot, w.2)] ∧
      m'.disk = Function.update m.disk slot w.2 ∧ m'.log.busy = m.log.busy := by
  obtain ⟨hL, hS, -, -, hdisk, hiss, hcoh, hlog⟩ := update_spec rfl h.coherent hrun
  rw [h.n_eq] at hL hS
  rw [h.size_eq] at hS
  rw [h.start_eq] at hdisk hiss hcoh
  generalize hi : slotOf m.log.lh w.1 = i at *
  have hcases := slotOf_cases h.n_eq w.1
  rw [hi] at hcases
  have hin : i ≤ n := by omega
  have hslot : ¬ Home start size (start + i + 1) := not_home_slot (by omega)
  have hraw : replay d (raw (ws ++ [w])) =
      Function.update (replay d (raw ws)) w.1.toNat w.2 := by simp [raw]
  have hlh : m'.log.lh = (m.log.lh.record i w.1).bump i := by rw [hlog]; rfl
  have hsec : m'.log.lh.sector = Function.update m.log.lh.sector i w.1 := by rw [hlh]; rfl
  have hn' : m'.log.lh.n = if (i : ℤ) = n then (n : ℤ) + 1 else n := by
    rw [hlh, ← h.n_eq]; rfl
  have hkey : ∃ n' : ℕ, m'.log.lh.n = n' ∧ i < n' ∧ n' ≤ n + 1 ∧ n ≤ n' ∧
      (∀ j < n', j ≠ i → j < n ∧ m.log.lh.sector j ≠ w.1) ∧
      (i < n → m.log.lh.sector i = w.1) := by
    rcases hcases with ⟨hlt, hs⟩ | ⟨rfl, hfresh⟩
    · refine ⟨n, by rw [hn', if_neg (by omega)], hlt, by omega, le_rfl, ?_, fun _ => hs⟩
      exact fun j hj hji => ⟨hj, fun heq => hji (h.distinct j hj i hlt (heq.trans hs.symm))⟩
    · refine ⟨i + 1, by rw [hn', if_pos rfl]; push_cast; rfl, by omega, le_rfl, by omega, ?_, by omega⟩
      exact fun j hj hji => ⟨by omega, hfresh j (by omega)⟩
  obtain ⟨n', hn'', hi', hn₁, hn₂, hother, habsorb⟩ := hkey
  have hsec_ne : ∀ j < n', j ≠ i → m'.log.lh.sector j = m.log.lh.sector j := by
    intro j _ hji
    rw [hsec, Function.update_of_ne hji]
  have hsec_i : m'.log.lh.sector i = w.1 := by rw [hsec, Function.update_self]
  refine ⟨n', _, start + i + 1, ⟨hcoh, ?_, ?_, hn'', by omega, ?_, ?_, ?_, ?_, ?_, ?_, ?_⟩, hslot,
    by omega, hiss, hdisk, by rw [hlog]; rfl⟩
  · rw [hlog]; exact h.start_eq
  · rw [hlog]; exact h.size_eq
  · intro j hj
    omega
  · -- the logged sectors gain the new one and nothing else
    intro s
    simp only [List.map_append, List.map_cons, List.map_nil, List.mem_append, List.mem_singleton,
      ← h.entries]
    constructor
    · rintro ⟨j, hj, rfl⟩
      by_cases hji : j = i
      · exact Or.inr (hji ▸ hsec_i)
      · exact Or.inl ⟨j, (hother j hj hji).1, (hsec_ne j hj hji).symm⟩
    · rintro (⟨j, hj, rfl⟩ | rfl)
      · by_cases hji : j = i
        · subst hji
          exact ⟨j, hi', hsec_i.trans (habsorb hj).symm⟩
        · exact ⟨j, by omega, hsec_ne j (by omega) hji⟩
      · exact ⟨i, hi', hsec_i⟩
  · intro j hj k hk heq
    by_cases hji : j = i <;> by_cases hki : k = i
    · exact hji.trans hki.symm
    · rw [hji, hsec_i, hsec_ne k hk hki] at heq
      exact absurd heq.symm (hother k hk hki).2
    · rw [hki, hsec_i, hsec_ne j hj hji] at heq
      exact absurd heq (hother j hj hji).2
    · rw [hsec_ne j hj hji, hsec_ne k hk hki] at heq
      exact h.distinct j (hother j hj hji).1 k (hother k hk hki).1 heq
  · intro s hs
    rw [Function.update_of_ne (by rintro rfl; exact hslot hs), hraw]
    by_cases hsw : s = w.1.toNat
    · rw [hsw, Function.update_self, Function.update_self]
    · rw [Function.update_of_ne hsw, Function.update_of_ne hsw, h.home_view s hs]
  · intro s hs
    rw [hdisk]
    by_cases hsi : s = start + i + 1
    · rw [hsi, Function.update_self, Function.update_self]
    · rw [Function.update_of_ne hsi, Function.update_of_ne hsi,
        Function.update_of_ne (by rintro rfl; exact hs hw), h.log_view s hs]
  · intro s hs
    rw [hdisk, Function.update_of_ne (by rintro rfl; exact hslot hs), h.home_disk s hs]
  · intro j hj
    rw [hdisk, hraw]
    by_cases hji : j = i
    · rw [hji, hsec_i, Function.update_self, Function.update_self]
    · have hne : (m.log.lh.sector j).toNat ≠ w.1.toNat :=
        fun heq => (hother j hj hji).2 (UInt32.toNat_inj.mp heq)
      rw [hsec_ne j hj hji, Function.update_of_ne (by omega), Function.update_of_ne hne,
        h.slots j (hother j hj hji).1]

/-- All updates of a transaction: only slots of an empty log are written. -/
theorem Logging.updates {d : Disk} {ws t : Txn} {n : ℕ} (h : Logging start size d ws n D m)
    (hclean : Clean start size A m.disk) (ht : ∀ w ∈ t, Home start size w.1.toNat)
    (hrun : Log.updates t m = .ok ((), m')) :
    ∃ n' D' vs, Logging start size d (ws ++ t) n' D' m' ∧ m'.issued = m.issued ++ vs ∧
      m'.disk = replay m.disk vs ∧ Throughout (Clean start size A) m.disk vs ∧
      m'.log.busy = m.log.busy := by
  induction t generalizing m D ws n with
  | nil =>
    simp only [Log.updates, Exec.pure_run, Except.ok.injEq, Prod.mk.injEq, true_and] at hrun
    subst hrun
    exact ⟨n, D, [], by simpa using h, by simp, rfl, throughout_nil hclean, rfl⟩
  | cons w t ih =>
    rw [Log.updates, Exec.bind_eq_ok] at hrun
    obtain ⟨_, m₁, hone, hrest⟩ := hrun
    obtain ⟨n₁, D₁, slot, h₁, hslot, hne, hiss, hdisk, hbusy⟩ :=
      h.update (ht w List.mem_cons_self) hone
    have hclean₁ : Clean start size A m₁.disk := hdisk ▸ hclean.slot hslot hne w.2
    obtain ⟨n₂, D₂, vs, h₂, hiss₂, hdisk₂, hthrough, hbusy₂⟩ :=
      ih h₁ hclean₁ (fun v hv => ht v (List.mem_cons_of_mem _ hv)) hrest
    refine ⟨n₂, D₂, (slot, w.2) :: vs, ?_, ?_, ?_, ?_, hbusy₂.trans hbusy⟩
    · simpa using h₂
    · rw [hiss₂, hiss, List.append_assoc, List.singleton_append]
    · rw [hdisk₂, hdisk, replay_cons]
    · exact throughout_cons hclean (hdisk ▸ hthrough)

/-- The header write is the commit: it turns the contents before the transaction
into those after it. -/
theorem Logging.commit {d : Disk} {ws : Txn} {n : ℕ} (h : Logging start size d ws n D m)
    (hclean : Clean start size d m.disk) (hws : ∀ w ∈ ws, Home start size w.1.toNat) {b : Block}
    (hb : b = putHeader (D start) m.log.lh) :
    Settled start size (replay d (raw ws)) (Function.update m.disk start b) ∧
      logged start (Function.update m.disk start b) = n ∧
      ∀ t < n, hdrSector b t = m.log.lh.sector t := by
  have hsmall := h.small
  have hlen : LOGSIZE = 10 := rfl
  have hN : hdrN b = n := by
    rw [hb, hdrN_putHeader _ (by rw [h.n_eq]; omega) (by rw [h.n_eq]; omega), h.n_eq]
  have hlogged : logged start (Function.update m.disk start b) = n := by
    rw [logged, Function.update_self, hN, Int.toNat_natCast]
  have hsec : ∀ t < n, hdrSector b t = m.log.lh.sector t := by
    intro t ht
    rw [hb]
    exact hdrSector_putHeader _ (by rw [h.n_eq]; simpa using ht)
  have hhome : ∀ t < n, Home start size (m.log.lh.sector t).toNat := by
    intro t ht
    obtain ⟨w, hw, heq⟩ := List.mem_map.mp ((h.entries _).mp ⟨t, ht, rfl⟩)
    exact heq ▸ hws w hw
  refine ⟨⟨?_, ?_, ?_⟩, hlogged, hsec⟩
  · rw [hlogged]; exact h.fits
  · intro t ht
    rw [hlogged] at ht
    rw [Function.update_self, hsec t ht]
    exact hhome t ht
  · intro s hs
    rw [recovered, hlogged, Function.update_self, entryOf_congr hsec]
    cases he : entryOf m.log.lh.sector s n with
    | some t =>
      obtain ⟨ht, rfl⟩ := entryOf_eq_some he
      dsimp only
      rw [Function.update_of_ne (by omega), h.slots t ht]
    | none =>
      -- a sector that was not logged was not updated either
      dsimp only
      rw [Function.update_of_ne hs.1, hclean.contents s hs, replay_untouched]
      intro v hv heq
      obtain ⟨w, hw, rfl⟩ := List.mem_map.mp hv
      obtain ⟨t, ht, htw⟩ := (h.entries w.1).mpr (List.mem_map_of_mem hw)
      exact entryOf_eq_none he t ht (htw ▸ heq)

/-- A transaction, seen write by write: before the commit the disk stands for
the old contents, from the commit on for the new ones. -/
theorem transaction_spec {t : Txn} (h : Ready start size A m)
    (ht : ∀ w ∈ t, Home start size w.1.toNat) (hrun : transaction t m = .ok ((), m')) :
    ∃ ws, m'.issued = m.issued ++ ws ∧ m'.disk = replay m.disk ws ∧
      Throughout (fun d => Settled start size A d ∨ Settled start size (replay A (raw t)) d)
        m.disk ws ∧ Ready start size (replay A (raw t)) m' ∧ m'.log.busy = false := by
  rw [transaction, Exec.bind_eq_ok] at hrun
  obtain ⟨_, m₀, hbegin, hrun⟩ := hrun
  rw [Exec.bind_eq_ok] at hrun
  obtain ⟨_, m₁, hupd, hrun⟩ := hrun
  rw [beginTrans, Exec.bind_of_ok Exec.get_run] at hbegin
  split_ifs at hbegin with hbusy
  · simp at hbegin
  simp only [Exec.set_run, Except.ok.injEq, Prod.mk.injEq, true_and] at hbegin
  subst hbegin
  have hlogging := h.begin
  obtain ⟨n, D, vs, hl, hiss, hdisk, hthrough, -⟩ := hlogging.updates h.clean ht hupd
  rw [List.nil_append] at hl
  change m₁.issued = m.issued ++ vs at hiss
  change m₁.disk = replay m.disk vs at hdisk
  change Throughout (Clean start size A) m.disk vs at hthrough
  have hclean : Clean start size A m₁.disk := hdisk ▸ hthrough.finish
  have hA : ∀ s, Home start size s → replay m.disk (raw t) s = replay A (raw t) s :=
    fun s hs => replay_congr (h.clean.contents s hs)
  rw [commitTrans, Exec.bind_of_ok Exec.get_run, hl.n_eq] at hrun
  split_ifs at hrun with hpos
  · rw [Exec.bind_eq_ok] at hrun
    obtain ⟨_, m₂, hhead, hrun⟩ := hrun
    rw [Exec.bind_eq_ok] at hrun
    obtain ⟨_, m₃, hinst, hrun⟩ := hrun
    rw [clearHead, Exec.bind_of_ok (Exec.modify_run _), Exec.bind_eq_ok] at hrun
    obtain ⟨_, m₄, herase, hrun⟩ := hrun
    simp only [Exec.modify_run, Except.ok.injEq, Prod.mk.injEq, true_and] at hrun
    subst hrun
    obtain ⟨b, hb, hdisk₂, hiss₂, hlog₂, hc₂⟩ := writeHead_spec hl.coherent hhead
    rw [hl.start_eq] at hb hdisk₂ hiss₂ hc₂
    have hclean' : Clean start size m.disk m₁.disk := ⟨hclean.empty, hl.home_disk⟩
    obtain ⟨hset, hlen, hsec⟩ := hl.commit hclean' ht hb
    rw [← hdisk₂] at hset hlen
    replace hset := hset.congr hA
    have hstart₂ : m₂.disk start = b := by rw [hdisk₂, Function.update_self]
    obtain ⟨us, hiss₄, hdisk₄, hthrough₄, hready, -⟩ := finish_spec hc₂
      (by rw [hlog₂, hl.start_eq]) (by rw [hlog₂, hl.size_eq]) hset
      (by rw [hlog₂, hl.n_eq, hlen]; rfl)
      (by
        intro u hu
        rw [hlen] at hu
        rw [hlog₂, hstart₂, hsec u hu])
      (by
        intro s hs hnone
        rw [hlen, hstart₂, entryOf_congr hsec] at hnone
        rw [hdisk₂, Function.update_of_ne hs.1, Function.update_of_ne hs.1, hl.home_view s hs,
          hl.home_disk s hs]
        refine replay_untouched ?_ _
        intro v hv heq
        obtain ⟨w, hw, rfl⟩ := List.mem_map.mp hv
        obtain ⟨u, hu, huw⟩ := (hl.entries w.1).mpr (List.mem_map_of_mem hw)
        exact entryOf_eq_none hnone u hu (huw ▸ heq))
      (by
        intro s hs
        rw [hdisk₂]
        by_cases hst : s = start
        · rw [hst, Function.update_self, Function.update_self]
        · rw [Function.update_of_ne hst, Function.update_of_ne hst, hl.log_view s hs])
      hinst herase
    refine ⟨vs ++ (start, b) :: us, ?_, ?_, ?_, ?_, rfl⟩
    · change m₄.issued = _
      rw [hiss₄, hiss₂, hiss, List.append_assoc, List.append_assoc, List.singleton_append]
    · change m₄.disk = _
      rw [hdisk₄, hdisk₂, hdisk, replay_append, replay_cons]
    · refine Throughout.append (hthrough.mono fun e he => Or.inl he.settled) ?_
      rw [← hdisk]
      refine throughout_cons (Or.inl hclean.settled) ?_
      rw [← hdisk₂]
      exact hthrough₄.mono fun e he => Or.inr he
    · exact ⟨hready.coherent.withBusy _, hready.start_eq, hready.size_eq, hready.none_logged,
        hready.clean⟩
  · -- nothing was logged, so there was nothing to update
    have hn : n = 0 := by omega
    subst hn
    have ht₀ : t = [] := by
      cases t with
      | nil => rfl
      | cons w t =>
        obtain ⟨i, hi, -⟩ := (hl.entries w.1).mpr (by simp)
        omega
    subst ht₀
    simp only [Exec.modify_run, Except.ok.injEq, Prod.mk.injEq, true_and] at hrun
    subst hrun
    simp only [updates, Exec.pure_run, Except.ok.injEq, Prod.mk.injEq, true_and] at hupd
    subst hupd
    refine ⟨[], by simp [Machine.withBusy], rfl, throughout_nil (Or.inl h.clean.settled), ?_, rfl⟩
    exact ⟨h.coherent.withBusy _, h.start_eq, h.size_eq, h.none_logged, h.clean⟩

/-! ## Lives and histories -/

/-- The machine at power-on: `binit` has put the buffers on the list, none of
them belongs to a device, and `initlog` has found the log area. -/
def powerOn (start size : ℕ) (d : Disk) : Machine where
  disk := d
  issued := []
  buf := fun _ => ⟨false, false, false, 2 ^ 32 - 1, 0, zeroBlock⟩
  lru := (List.range NBUF).reverse
  log := ⟨start, size, false, ⟨0, fun _ => 0⟩⟩

/-- Transactions one after the other. The result lists how many sector writes
had been issued when each `commit_trans` returned. -/
def session : List Txn → K (List ℕ)
  | [] => pure []
  | t :: ts => do
    transaction t
    let m ← get
    let rest ← session ts
    return m.issued.length :: rest

def live (ts : List Txn) : K (List ℕ) := do
  recoverFromLog
  session ts

/-- How many transactions had returned when `k` writes had reached the disk. -/
def returned (marks : List ℕ) (k : ℕ) : ℕ := (marks.filter (· ≤ k)).length

theorem returned_eq_zero {marks : List ℕ} {k : ℕ} (h : ∀ x ∈ marks, k < x) :
    returned marks k = 0 := by
  rw [returned, List.length_eq_zero_iff, List.filter_eq_nil_iff]
  intro x hx
  simpa using h x hx

theorem powerOn_coherent (d : Disk) : Coherent (powerOn start size d) d := by
  refine ⟨?_, ?_, ?_, ?_⟩
  · intro p _ q _ hp
    simp [powerOn, ROOTDEV] at hp
  · intro p _ hp
    simp [powerOn, ROOTDEV] at hp
  · intro s hs
    exact absurd rfl hs
  · intro p _ hp
    simp [powerOn] at hp

/-- The contents after the transactions `ts`. -/
def after (A : Disk) (ts : List Txn) : Disk := replay A (raw ts.flatten)

@[simp] theorem after_nil (A : Disk) : after A [] = A := rfl

theorem after_cons (A : Disk) (t : Txn) (ts : List Txn) :
    after A (t :: ts) = after (replay A (raw t)) ts := by
  simp [after, raw]

theorem after_append (A : Disk) (ts us : List Txn) :
    after A (ts ++ us) = after (after A ts) us := by
  simp [after, raw]

/-- Wherever a session is cut, the disk stands for the contents after the
transactions that returned, or after these and the interrupted one. -/
theorem session_spec {ts : List Txn} {marks : List ℕ} (h : Ready start size A m)
    (hts : ∀ t ∈ ts, ∀ w ∈ t, Home start size w.1.toNat)
    (hrun : session ts m = .ok (marks, m')) :
    ∃ ws, m'.issued = m.issued ++ ws ∧ m'.disk = replay m.disk ws ∧
      (∀ x ∈ marks, m.issued.length ≤ x) ∧
      ∀ k, ∃ j ≤ ts.length, Settled start size (after A (ts.take j)) (replay m.disk (ws.take k)) ∧
        returned marks (m.issued.length + k) ≤ j ∧
        j ≤ returned marks (m.issued.length + k) + 1 := by
  induction ts generalizing m A marks with
  | nil =>
    simp only [session, Exec.pure_run, Except.ok.injEq, Prod.mk.injEq] at hrun
    obtain ⟨rfl, rfl⟩ := hrun
    refine ⟨[], by simp, rfl, by simp, fun k => ⟨0, le_rfl, ?_, by simp [returned], by simp⟩⟩
    simpa using h.clean.settled
  | cons t ts ih =>
    rw [session, Exec.bind_eq_ok] at hrun
    obtain ⟨_, m₁, htxn, hrun⟩ := hrun
    rw [Exec.bind_of_ok Exec.get_run, Exec.bind_eq_ok] at hrun
    obtain ⟨rest, m₂, hrest, hrun⟩ := hrun
    simp only [Exec.pure_run, Except.ok.injEq, Prod.mk.injEq] at hrun
    obtain ⟨rfl, rfl⟩ := hrun
    obtain ⟨ws, hiss, hdisk, hthrough, hready, -⟩ :=
      transaction_spec h (hts t List.mem_cons_self) htxn
    obtain ⟨vs, hiss₂, hdisk₂, hmarks, hcut⟩ :=
      ih hready (fun u hu => hts u (List.mem_cons_of_mem _ hu)) hrest
    have hlen : m₁.issued.length = m.issued.length + ws.length := by simp [hiss]
    refine ⟨ws ++ vs, ?_, ?_, ?_, fun k => ?_⟩
    · rw [hiss₂, hiss, List.append_assoc]
    · rw [hdisk₂, hdisk, replay_append]
    · intro x hx
      rcases List.mem_cons.mp hx with rfl | hx
      · omega
      · have := hmarks x hx
        omega
    by_cases hk : k < ws.length
    · -- the crash hits the first transaction, which has not returned
      have hzero : returned (m₁.issued.length :: rest) (m.issued.length + k) = 0 := by
        apply returned_eq_zero
        intro x hx
        rcases List.mem_cons.mp hx with rfl | hx
        · omega
        · have := hmarks x hx
          omega
      have htake : (ws ++ vs).take k = ws.take k := by
        rw [List.take_append, Nat.sub_eq_zero_of_le hk.le, List.take_zero, List.append_nil]
      rw [hzero, htake]
      rcases hthrough k with hs | hs
      · exact ⟨0, by omega, by simpa using hs, le_rfl, by omega⟩
      · exact ⟨1, by simp, by simpa [after_cons] using hs, by omega, le_rfl⟩
    · -- the first transaction is over, the crash hits a later one
      obtain ⟨j, hj, hset, hlo, hhi⟩ := hcut (k - ws.length)
      have hk' : m₁.issued.length + (k - ws.length) = m.issued.length + k := by omega
      have hcount : returned (m₁.issued.length :: rest) (m.issued.length + k) =
          returned rest (m.issued.length + k) + 1 := by
        simp only [returned]
        rw [List.filter_cons_of_pos (by simp; omega), List.length_cons]
      rw [hk'] at hlo hhi
      refine ⟨j + 1, by simpa using hj, ?_, by omega, by omega⟩
      rw [List.take_succ_cons, after_cons, List.take_append,
        List.take_of_length_le (show ws.length ≤ k by omega), replay_append, ← hdisk]
      exact hset

/-- The same for a whole life, which begins with recovery. -/
theorem live_spec {ts : List Txn} {marks : List ℕ} {d : Disk} (h : Settled start size A d)
    (hts : ∀ t ∈ ts, ∀ w ∈ t, Home start size w.1.toNat)
    (hrun : live ts (powerOn start size d) = .ok (marks, m')) (k : ℕ) :
    ∃ j ≤ ts.length, Settled start size (after A (ts.take j)) (replay d (m'.issued.take k)) ∧
      returned marks k ≤ j ∧ j ≤ returned marks k + 1 := by
  rw [live, Exec.bind_eq_ok] at hrun
  obtain ⟨_, m₁, hrec, hrun⟩ := hrun
  obtain ⟨ws, hiss, hdisk, hthrough, hready, -⟩ :=
    recoverFromLog_spec (powerOn_coherent d) rfl rfl h hrec
  obtain ⟨vs, hiss₂, -, hmarks, hcut⟩ := session_spec hready hts hrun
  have hws : m₁.issued = ws := by simpa [powerOn] using hiss
  rw [hiss₂, hws]
  by_cases hk : k < ws.length
  · have hzero : returned marks k = 0 := by
      apply returned_eq_zero
      intro x hx
      have := hmarks x hx
      rw [hws] at this
      omega
    rw [hzero, List.take_append, Nat.sub_eq_zero_of_le hk.le, List.take_zero, List.append_nil]
    exact ⟨0, by omega, by simpa [powerOn] using hthrough k, le_rfl, by omega⟩
  · obtain ⟨j, hj, hset, hlo, hhi⟩ := hcut (k - ws.length)
    have hk' : m₁.issued.length + (k - ws.length) = k := by rw [hws]; omega
    rw [hk'] at hlo hhi
    refine ⟨j, hj, ?_, hlo, hhi⟩
    rw [List.take_append, List.take_of_length_le (show ws.length ≤ k by omega), replay_append]
    change m₁.disk = replay d ws at hdisk
    rw [← hdisk]
    exact hset

/-- What the disk can look like after any number of lives. Each life is listed
with the transactions it ran and how many of them had returned at the crash. -/
inductive History (start size : ℕ) (d₀ : Disk) : List (List Txn × ℕ) → Disk → Prop
  | new : History start size d₀ [] d₀
  | crash {hs d marks m} (ts : List Txn) (k : ℕ) : History start size d₀ hs d →
      live ts (powerOn start size d) = .ok (marks, m) →
      History start size d₀ (hs ++ [(ts, returned marks k)]) (replay d (m.issued.take k))

/-- The transactions of a life that survive: a prefix of those it ran, with all
that returned and at most one more. -/
def Survives (life : List Txn × ℕ) (kept : List Txn) : Prop :=
  kept <+: life.1 ∧ life.2 ≤ kept.length ∧ kept.length ≤ life.2 + 1

theorem History.settled {d₀ d : Disk} {hs : List (List Txn × ℕ)}
    (h : History start size d₀ hs d) (hempty : hdrN (d₀ start) = 0)
    (hhome : ∀ life ∈ hs, ∀ t ∈ life.1, ∀ w ∈ t, Home start size w.1.toNat) :
    ∃ kept, List.Forall₂ Survives hs kept ∧ Settled start size (after d₀ kept.flatten) d := by
  induction h with
  | new => exact ⟨[], .nil, (Clean.mk hempty fun _ _ => rfl).settled⟩
  | @crash hs d marks m ts k hprev hrun ih =>
    obtain ⟨kept, hkept, hset⟩ := ih fun life hl => hhome life (List.mem_append_left _ hl)
    obtain ⟨j, hj, hset', hlo, hhi⟩ := live_spec hset
      (hhome (ts, returned marks k) (by simp)) hrun k
    refine ⟨kept ++ [ts.take j], List.rel_append hkept (.cons ⟨List.take_prefix _ _, ?_, ?_⟩ .nil),
      ?_⟩
    · simpa [List.length_take, Nat.min_eq_left hj] using hlo
    · simpa [List.length_take, Nat.min_eq_left hj] using hhi
    · rw [List.flatten_append, after_append]
      simpa using hset'

end Lainos.Log
