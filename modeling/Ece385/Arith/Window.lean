import Mathlib.Data.Nat.Notation

/-!
# Words passing through a shift register

A register of `w` bits that is shifted to the right while the bits of a word
`y` come in at the top, lowest bit first, shows a window of the long word
`y ++ a`, where `a` is what it held before: after `k` shifts the window starts
at bit `k` (`window_succ`). After `w` shifts it shows `y`.
-/

namespace Ece385

namespace Window

/-- The word with the bits `f 0`, `f 1`, .. -/
def ofBits : (w : ℕ) → (ℕ → Bool) → BitVec w
  | 0, _ => 0#0
  | w + 1, f => BitVec.cons (f w) (ofBits w f)

@[simp] theorem getLsbD_ofBits {w : ℕ} (f : ℕ → Bool) {i : ℕ} (hi : i < w) :
    (ofBits w f).getLsbD i = f i := by
  induction w with
  | zero => exact absurd hi (Nat.not_lt_zero i)
  | succ w ih =>
      rw [ofBits, BitVec.getLsbD_cons]
      split
      · next h => rw [h]
      · next h => exact ih (by omega)

theorem eq_ofBits {w : ℕ} {x : BitVec w} {f : ℕ → Bool} (h : ∀ i, i < w → x.getLsbD i = f i) :
    x = ofBits w f := by
  refine BitVec.eq_of_getLsbD_eq fun i hi => ?_
  rw [h i hi, getLsbD_ofBits f hi]

variable {w : ℕ} (y a : BitVec w)

def window (k : ℕ) : BitVec w := (y ++ a).extractLsb' k w

theorem getLsbD_window {k i : ℕ} (hi : i < w) :
    (window y a k).getLsbD i
      = if k + i < w then a.getLsbD (k + i) else y.getLsbD (k + i - w) := by
  rw [window, BitVec.getLsbD_extractLsb', BitVec.getLsbD_append, decide_eq_true hi, Bool.true_and]

theorem window_zero : window y a 0 = a := BitVec.extractLsb'_append_eq_right

theorem window_self : window y a w = y := BitVec.extractLsb'_append_eq_left

/-- The bit that leaves at the bottom. -/
theorem window_out {k : ℕ} (hk : k < w) : (window y a k).getLsbD 0 = a.getLsbD k := by
  rw [getLsbD_window y a (by omega), if_pos (by omega), Nat.add_zero]

theorem window_succ {w : ℕ} (y a : BitVec (w + 1)) (k : ℕ) :
    BitVec.cons (y.getLsbD k) ((window y a k).extractLsb' 1 w) = window y a (k + 1) := by
  refine BitVec.eq_of_getLsbD_eq fun i hi => ?_
  rw [BitVec.getLsbD_cons, getLsbD_window y a hi]
  split
  · next h => rw [if_neg (by omega), show k + 1 + i - (w + 1) = k by omega]
  · next h =>
    rw [BitVec.getLsbD_extractLsb', getLsbD_window y a (by omega), decide_eq_true (by omega),
      Bool.true_and, Nat.add_assoc]

end Window

end Ece385
