import Mathlib.Data.List.Basic
import Mathlib.Data.Nat.ModEq
import Mathlib.Logic.Function.Basic
import Mathlib.Tactic.Common

/-!
# Queues in a ring of cells

A ring of `size` cells with two 32-bit counters that count all elements ever taken
out and put in, and wrap around. The cell of an element is its number modulo
`size`; since `size` divides `2 ^ 32`, the wrap-around of the counters does not
disturb the cells.
-/

namespace Lainos.Library

structure Fifo (α : Type) where
  data : ℕ → α
  nread : UInt32
  nwrite : UInt32

namespace Fifo

variable {α : Type} (size : ℕ) (q : Fifo α) (a : α)

/-- How many elements wait in the queue. -/
def count : ℕ := (q.nwrite - q.nread).toNat

def put : Fifo α := ⟨Function.update q.data (q.nwrite.toNat % size) a, q.nread, q.nwrite + 1⟩

/-- The next element. -/
def front : α := q.data (q.nread.toNat % size)

def take : Fifo α := ⟨q.data, q.nread + 1, q.nwrite⟩

/-- The elements that wait, the next one first. -/
def toList : List α := (List.range q.count).map fun i => q.data ((q.nread.toNat + i) % size)

@[simp] theorem length_toList : (q.toList size).length = q.count := by simp [toList]

theorem nwrite_toNat : q.nwrite.toNat = (q.nread.toNat + q.count) % 2 ^ 32 := by
  have hr := q.nread.toNat_lt
  have hw := q.nwrite.toNat_lt
  rw [count, UInt32.toNat_sub]
  omega

theorem count_eq_zero_iff : q.count = 0 ↔ q.nread = q.nwrite := by
  have hr := q.nread.toNat_lt
  have hw := q.nwrite_toNat
  have hc : q.count < 2 ^ 32 := UInt32.toNat_lt _
  rw [← UInt32.toNat_inj]
  omega

variable {size q}

theorem count_eq_size_iff (hsize : size < 2 ^ 32) :
    q.count = size ↔ q.nwrite = q.nread + UInt32.ofNat size := by
  have hr := q.nread.toNat_lt
  have hw := q.nwrite_toNat
  have hc : q.count < 2 ^ 32 := UInt32.toNat_lt _
  rw [← UInt32.toNat_inj, UInt32.toNat_add, UInt32.toNat_ofNat', Nat.mod_eq_of_lt hsize]
  omega

theorem count_put (h : q.count < size) (hsize : size < 2 ^ 32) : (q.put size a).count = q.count + 1 := by
  have hr := q.nread.toNat_lt
  have hw := q.nwrite_toNat
  have h₁ : (1 : UInt32).toNat = 1 := rfl
  have hcount : (q.put size a).count = ((q.nwrite + 1) - q.nread).toNat := rfl
  rw [hcount, UInt32.toNat_sub, UInt32.toNat_add, h₁]
  omega

theorem count_take (h : 0 < q.count) : q.take.count + 1 = q.count := by
  have hr := q.nread.toNat_lt
  have hw := q.nwrite_toNat
  have hc : q.count < 2 ^ 32 := UInt32.toNat_lt _
  have h₁ : (1 : UInt32).toNat = 1 := rfl
  have hcount : q.take.count = (q.nwrite - (q.nread + 1)).toNat := rfl
  rw [hcount, UInt32.toNat_sub, UInt32.toNat_add, h₁]
  omega

/-- A new element comes last. -/
theorem toList_put (h : q.count < size) (hsize : size < 2 ^ 32) (hdvd : size ∣ 2 ^ 32) :
    (q.put size a).toList size = q.toList size ++ [a] := by
  have hcell : q.nwrite.toNat % size = (q.nread.toNat + q.count) % size := by
    rw [q.nwrite_toNat, Nat.mod_mod_of_dvd _ hdvd]
  rw [toList, toList, count_put a h hsize, List.range_succ, List.map_append]
  congr 1
  · -- the cells of the older elements are other ones
    refine List.map_congr_left fun i hi => Function.update_of_ne (fun heq => ?_) ..
    rw [List.mem_range] at hi
    rw [hcell] at heq
    have hmod : (q.nread.toNat + i) ≡ (q.nread.toNat + q.count) [MOD size] := heq
    have hlt := Nat.ModEq.add_left_cancel' q.nread.toNat hmod
    rw [Nat.ModEq, Nat.mod_eq_of_lt (hi.trans h), Nat.mod_eq_of_lt h] at hlt
    omega
  · rw [List.map_singleton]
    congr 1
    exact (congrArg _ hcell.symm).trans (Function.update_self ..)

/-- The next element is the first one. -/
theorem toList_take (h : 0 < q.count) (hdvd : size ∣ 2 ^ 32) :
    q.toList size = q.front size :: q.take.toList size := by
  have hcell : ∀ i, (q.take.nread.toNat + i) % size = (q.nread.toNat + (i + 1)) % size := by
    intro i
    have hnext : q.take.nread.toNat = (q.nread.toNat + 1) % 2 ^ 32 := by
      rw [take, UInt32.toNat_add]
      rfl
    rw [hnext, Nat.add_mod, Nat.mod_mod_of_dvd _ hdvd, ← Nat.add_mod]
    congr 1
    omega
  rw [toList, toList, ← count_take h, List.range_succ_eq_map, List.map_cons, List.map_map]
  congr 1
  exact List.map_congr_left fun i _ => congrArg q.data (hcell i).symm

end Fifo

end Lainos.Library
