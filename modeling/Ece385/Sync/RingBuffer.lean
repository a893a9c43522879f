import Mathlib.Algebra.Group.Nat.Defs
import Mathlib.Logic.Function.Basic
import Mathlib.Tactic.TypeStar

/-!
# Ring buffers

A memory whose addresses wrap around, and the `c` words from `rd` on: what a queue with
a read and a write pointer holds (`window`). A write behind the window adds to its end
(`window_push`), and the pointers are equal when nothing is in it or everything.
-/

namespace Ece385

namespace RingBuffer

variable {a : ℕ} {α : Type*}

/-- The `c` words from `rd` on. -/
def window (mem : BitVec a → α) : BitVec a → ℕ → List α
  | _, 0 => []
  | rd, c + 1 => mem rd :: window mem (rd + 1#a) c

theorem window_zero (mem : BitVec a → α) (rd : BitVec a) : window mem rd 0 = [] := rfl

theorem window_succ (mem : BitVec a → α) (rd : BitVec a) (c : ℕ) :
    window mem rd (c + 1) = mem rd :: window mem (rd + 1#a) c := rfl

@[simp] theorem length_window (mem : BitVec a → α) (rd : BitVec a) (c : ℕ) :
    (window mem rd c).length = c := by
  induction c generalizing rd with
  | zero => rfl
  | succ c ih => rw [window_succ, List.length_cons, ih]

theorem add_succ (rd : BitVec a) (c : ℕ) :
    rd + BitVec.ofNat a (c + 1) = rd + 1#a + BitVec.ofNat a c := by
  rw [Nat.add_comm c 1, BitVec.ofNat_add, BitVec.add_assoc]

theorem add_ofNat_inj (rd : BitVec a) {c d : ℕ} :
    rd + BitVec.ofNat a c = rd + BitVec.ofNat a d ↔ c % 2 ^ a = d % 2 ^ a := by
  rw [BitVec.add_right_inj, ← BitVec.toNat_inj, BitVec.toNat_ofNat, BitVec.toNat_ofNat]

/-- All distances from 1 to `2 ^ a` lead to different addresses. -/
theorem add_ofNat_inj_of_pos (rd : BitVec a) {c d : ℕ} (hc : 0 < c) (hc' : c ≤ 2 ^ a)
    (hd : 0 < d) (hd' : d ≤ 2 ^ a) : rd + BitVec.ofNat a c = rd + BitVec.ofNat a d ↔ c = d := by
  rw [add_ofNat_inj]
  rcases Nat.lt_or_eq_of_le hc' with hlt | rfl
  · rcases Nat.lt_or_eq_of_le hd' with hlt' | rfl
    · rw [Nat.mod_eq_of_lt hlt, Nat.mod_eq_of_lt hlt']
    · rw [Nat.mod_eq_of_lt hlt, Nat.mod_self]
      omega
  · rcases Nat.lt_or_eq_of_le hd' with hlt' | rfl
    · rw [Nat.mod_self, Nat.mod_eq_of_lt hlt']
      omega
    · exact iff_of_true rfl rfl

/-- The whole way round. -/
theorem add_ofNat_whole (rd : BitVec a) : rd + BitVec.ofNat a (2 ^ a) = rd := by
  have hmod : 2 ^ a % 2 ^ a = 0 % 2 ^ a := by rw [Nat.mod_self, Nat.zero_mod]
  rw [(add_ofNat_inj rd).mpr hmod, BitVec.add_zero]

theorem window_concat (mem : BitVec a → α) (rd : BitVec a) (c : ℕ) :
    window mem rd (c + 1) = window mem rd c ++ [mem (rd + BitVec.ofNat a c)] := by
  induction c generalizing rd with
  | zero => rw [window_succ, window_zero, window_zero, BitVec.add_zero, List.nil_append]
  | succ c ih => rw [window_succ, ih, add_succ rd c, window_succ mem rd c, List.cons_append]

theorem window_congr {mem mem' : BitVec a → α} {rd : BitVec a} {c : ℕ}
    (h : ∀ i < c, mem (rd + BitVec.ofNat a i) = mem' (rd + BitVec.ofNat a i)) :
    window mem rd c = window mem' rd c := by
  induction c with
  | zero => rfl
  | succ c ih =>
      rw [window_concat, window_concat, h c (Nat.lt_succ_self c),
        ih fun i hi => h i (Nat.lt_succ_of_lt hi)]

/-- A write behind the window. -/
theorem window_push (mem : BitVec a → α) (rd : BitVec a) {c : ℕ} (hc : c < 2 ^ a) (x : α) :
    window (Function.update mem (rd + BitVec.ofNat a c) x) rd (c + 1)
      = window mem rd c ++ [x] := by
  rw [window_concat, Function.update_self]
  congr 1
  refine window_congr fun i hi => Function.update_of_ne (fun h => ?_) _ _
  rw [add_ofNat_inj, Nat.mod_eq_of_lt (by omega), Nat.mod_eq_of_lt hc] at h
  omega

end RingBuffer

end Ece385
