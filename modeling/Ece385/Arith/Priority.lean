import Mathlib.Data.Nat.Notation

/-!
# The first set bit from a position on

`x &&& (~~~x + 2 ^ k)` is the lowest set bit of `x` that is not below `k`: the carry
starts at `k` and runs through the zeros of `x`. On two copies of a word behind each
other this is the first set bit from `k` on in a circle (`firstAround`). `ahead`
measures the circle; who is not the first comes closer when the first is passed.
-/

namespace Ece385

namespace Priority

/-! ## In a line -/

section Line

variable {w : ℕ} (x : BitVec w) {k i : ℕ}

/-- The carry runs upwards from `k` through the zeros of `x`. -/
theorem carry_not_twoPow (hi : i ≤ w) :
    BitVec.carry i (~~~x) (BitVec.twoPow w k) false = true
      ↔ k < i ∧ ∀ j, k ≤ j → j < i → x.getLsbD j = false := by
  induction i with
  | zero => simp
  | succ i ih =>
      have ih := ih (Nat.le_of_succ_le hi)
      have hlt : i < w := hi
      rw [BitVec.carry_succ, BitVec.getLsbD_not, BitVec.getLsbD_twoPow]
      by_cases hik : k = i
      · subst hik
        have hno : BitVec.carry k (~~~x) (BitVec.twoPow w k) false = false :=
          (Bool.not_eq_true _).mp fun h => Nat.lt_irrefl k (ih.mp h).1
        rw [hno]
        have hone : (∀ j, k ≤ j → j < k + 1 → x.getLsbD j = false) ↔ x.getLsbD k = false := by
          refine ⟨fun h => h k (Nat.le_refl k) (Nat.lt_succ_self k), fun h j hlo hhi => ?_⟩
          obtain rfl : j = k := Nat.le_antisymm (Nat.le_of_lt_succ hhi) hlo
          exact h
        rw [hone]
        simp [hlt, Bool.atLeastTwo]
      · have hrest : (∀ j, k ≤ j → j < i + 1 → x.getLsbD j = false) ∧ k < i + 1
            ↔ x.getLsbD i = false ∧ k < i ∧ ∀ j, k ≤ j → j < i → x.getLsbD j = false := by
          constructor
          · rintro ⟨h, hki⟩
            have hlt' : k < i := Nat.lt_of_le_of_ne (Nat.le_of_lt_succ hki) hik
            exact ⟨h i (Nat.le_of_lt hlt') (Nat.lt_succ_self i), hlt',
              fun j hlo hhi => h j hlo (Nat.lt_succ_of_lt hhi)⟩
          · rintro ⟨h, hki, hlow⟩
            refine ⟨fun j hlo hhi => ?_, Nat.lt_succ_of_lt hki⟩
            rcases Nat.lt_or_eq_of_le (Nat.le_of_lt_succ hhi) with hji | rfl
            · exact hlow j hlo hji
            · exact h
        rw [and_comm, hrest, ← ih]
        simp [hlt, hik, Bool.atLeastTwo]

/-- The lowest set bit of `x` that is not below `k`. -/
def firstFrom (x : BitVec w) (k : ℕ) : BitVec w := x &&& (~~~x + BitVec.twoPow w k)

theorem getLsbD_firstFrom (hi : i < w) :
    (firstFrom x k).getLsbD i = true
      ↔ x.getLsbD i = true ∧ k ≤ i ∧ ∀ j, k ≤ j → j < i → x.getLsbD j = false := by
  have hcarry := carry_not_twoPow x (k := k) (Nat.le_of_lt hi)
  rw [firstFrom, BitVec.getLsbD_and, BitVec.getLsbD_add hi, BitVec.getLsbD_not,
    BitVec.getLsbD_twoPow, Bool.and_eq_true]
  refine and_congr_right fun hx => ?_
  by_cases hik : k = i
  · subst hik
    have hno : BitVec.carry k (~~~x) (BitVec.twoPow w k) false = false :=
      (Bool.not_eq_true _).mp fun h => Nat.lt_irrefl k (hcarry.mp h).1
    refine iff_of_true ?_ ⟨Nat.le_refl k, fun j hlo hhi => absurd hhi (Nat.not_lt.mpr hlo)⟩
    simp [hi, hx, hno]
  · have hle : k ≤ i ↔ k < i := ⟨fun h => Nat.lt_of_le_of_ne h hik, Nat.le_of_lt⟩
    rw [hle, ← hcarry]
    simp [hx, hik]

end Line

/-! ## In a circle -/

/-- How far `i` is ahead of `k` in a circle of `n`. -/
def ahead (n k i : ℕ) : ℕ := if k ≤ i then i - k else i + n - k

section Circle

variable {n k g i j : ℕ}

theorem ahead_self : ahead n k k = 0 := by rw [ahead, if_pos (Nat.le_refl k), Nat.sub_self]

theorem ahead_lt (hk : k < n) (hi : i < n) : ahead n k i < n := by
  unfold ahead
  split <;> omega

theorem eq_of_ahead_eq (hk : k < n) (hi : i < n) (hj : j < n)
    (h : ahead n k i = ahead n k j) : i = j := by
  unfold ahead at h
  split at h <;> split at h <;> omega

/-- From the first one on the others are as much closer as the first one was away. -/
theorem ahead_first (hk : k < n) (hg : g < n) (hi : i < n) (h : ahead n k g ≤ ahead n k i) :
    ahead n g i + ahead n k g = ahead n k i := by
  unfold ahead at h ⊢
  split <;> split <;> split <;> simp only [*, if_true, if_false] at h <;> omega

/-- Behind `g` everybody else is one closer. -/
theorem ahead_behind (hg : g < n) (hi : i < n) (hne : i ≠ g) :
    ahead n ((g + 1) % n) i + 1 = ahead n g i := by
  rcases Nat.lt_or_eq_of_le (Nat.succ_le_of_lt hg) with hlt | hlast
  · rw [Nat.mod_eq_of_lt hlt]
    unfold ahead
    split <;> split <;> omega
  · have hzero : (g + 1) % n = 0 := by
      rw [← hlast]
      exact Nat.mod_self _
    rw [hzero]
    unfold ahead
    split <;> split <;> omega

end Circle

/-- The first set bit of `r` from `k` on, in a circle: in two copies of `r`, folded. -/
def firstAround {n : ℕ} (r : BitVec n) (k : ℕ) : BitVec n :=
  (firstFrom (r ++ r) k).extractLsb' 0 n ||| (firstFrom (r ++ r) k).extractLsb' n n

section Around

variable {n : ℕ} (r : BitVec n) {k i : ℕ}

theorem getLsbD_twice :
    (r ++ r).getLsbD i = r.getLsbD (if i < n then i else i - n) := by
  rw [BitVec.getLsbD_append]
  split <;> rfl

theorem getLsbD_firstAround (hk : k < n) (hi : i < n) :
    (firstAround r k).getLsbD i = true
      ↔ r.getLsbD i = true ∧ ∀ j < n, r.getLsbD j = true → ahead n k i ≤ ahead n k j := by
  have hbit : ∀ j, j < n → (r ++ r).getLsbD j = r.getLsbD j := fun j hj => by
    rw [getLsbD_twice, if_pos hj]
  have hbit' : ∀ j, j < n → (r ++ r).getLsbD (j + n) = r.getLsbD j := fun j hj => by
    rw [getLsbD_twice, if_neg (Nat.not_lt.mpr (Nat.le_add_left n j)),
      Nat.add_sub_cancel]
  have hsome : ∀ j, j < n + n → (r ++ r).getLsbD j = true → ∃ j' < n,
      r.getLsbD j' = true ∧ (j = j' ∨ j = j' + n) := by
    intro j hj h
    rcases Nat.lt_or_ge j n with hlt | hge
    · exact ⟨j, hlt, (hbit j hlt).symm.trans h, Or.inl rfl⟩
    · obtain ⟨d, rfl⟩ := Nat.exists_eq_add_of_le' hge
      exact ⟨d, by omega, (hbit' d (by omega)).symm.trans h, Or.inr rfl⟩
  rw [firstAround, BitVec.getLsbD_or, BitVec.getLsbD_extractLsb', BitVec.getLsbD_extractLsb',
    decide_eq_true hi, Bool.true_and, Bool.true_and, Nat.zero_add, Nat.add_comm n i,
    Bool.or_eq_true, getLsbD_firstFrom _ (Nat.lt_add_right n hi),
    getLsbD_firstFrom _ (Nat.add_lt_add_right hi n), hbit i hi, hbit' i hi, ← and_or_left]
  refine and_congr_right fun hr => ?_
  constructor
  · intro h j hj hrj
    refine Nat.not_lt.mp fun hlt => ?_
    rcases h with ⟨hki, hlow⟩ | ⟨hki, hlow⟩
    · -- `j` is one of the zeros between `k` and `i`.
      rw [ahead, ahead, if_pos hki] at hlt
      split at hlt
      · have hzero := hlow j (by omega) (by omega)
        rw [hbit j hj, hrj] at hzero
        exact absurd hzero (by decide)
      · omega
    · rcases Nat.lt_or_ge i k with hik | hik
      · rw [ahead, ahead, if_neg (Nat.not_le.mpr hik)] at hlt
        split at hlt
        · have hzero := hlow j (by omega) (by omega)
          rw [hbit j hj, hrj] at hzero
          exact absurd hzero (by decide)
        · have hzero := hlow (j + n) (by omega) (by omega)
          rw [hbit' j hj, hrj] at hzero
          exact absurd hzero (by decide)
      · -- The second copy of `i` is behind the first.
        have hzero := hlow i hik (Nat.lt_add_of_pos_right (Nat.zero_lt_of_lt hk))
        rw [hbit i hi, hr] at hzero
        exact absurd hzero (by decide)
  · intro h
    have hzero : ∀ j, j < n + n → k ≤ j → j < k + ahead n k i → (r ++ r).getLsbD j = false := by
      intro j hj hkj hji
      refine (Bool.not_eq_true _).mp fun hset => ?_
      obtain ⟨j', hj', hrj, rfl | rfl⟩ := hsome j hj hset
      · have hle := h _ hj' hrj
        rw [ahead.eq_def n k j, if_pos hkj] at hle
        omega
      · have hle := h _ hj' hrj
        rw [ahead.eq_def n k j'] at hle
        split at hle
        · have hlt := ahead_lt hk hi
          omega
        · omega
    rcases Nat.lt_or_ge i k with hik | hik
    · refine Or.inr ⟨by omega, fun j hlo hhi => hzero j (by omega) hlo ?_⟩
      rw [ahead, if_neg (Nat.not_le.mpr hik)]
      omega
    · refine Or.inl ⟨hik, fun j hlo hhi => hzero j (by omega) hlo ?_⟩
      rw [ahead, if_pos hik]
      omega

/-- One bit is the first, if there is any. -/
theorem exists_firstAround (hk : k < n) (hr : r ≠ 0) :
    ∃ g < n, r.getLsbD g = true ∧ (∀ j < n, r.getLsbD j = true → ahead n k g ≤ ahead n k j)
      ∧ firstAround r k = BitVec.twoPow n g := by
  obtain ⟨i, hi, hri⟩ : ∃ i < n, r.getLsbD i = true := by
    refine Classical.byContradiction fun hno => hr (BitVec.eq_of_getLsbD_eq fun i hi => ?_)
    rw [show (0 : BitVec n).getLsbD i = false from BitVec.getLsbD_zero]
    exact (Bool.not_eq_true _).mp fun h => hno ⟨i, hi, h⟩
  obtain ⟨g, hg, hrg, hmin⟩ : ∃ g < n, r.getLsbD g = true
      ∧ ∀ j < n, r.getLsbD j = true → ahead n k g ≤ ahead n k j := by
    induction ha : ahead n k i using Nat.strongRecOn generalizing i with
    | ind a ih =>
        by_cases hall : ∀ j < n, r.getLsbD j = true → ahead n k i ≤ ahead n k j
        · exact ⟨i, hi, hri, hall⟩
        · obtain ⟨j, hj⟩ := Classical.not_forall.mp hall
          obtain ⟨hjn, hj⟩ := Classical.not_imp.mp hj
          obtain ⟨hrj, hlt⟩ := Classical.not_imp.mp hj
          exact ih _ (ha ▸ Nat.not_le.mp hlt) j hjn hrj rfl
  refine ⟨g, hg, hrg, hmin, BitVec.eq_of_getLsbD_eq fun j hj => ?_⟩
  rw [BitVec.getLsbD_twoPow, decide_eq_true hg, Bool.true_and, Bool.eq_iff_iff,
    getLsbD_firstAround r hk hj, decide_eq_true_iff]
  constructor
  · rintro ⟨hrj, hminj⟩
    exact eq_of_ahead_eq hk hg hj (Nat.le_antisymm (hmin j hj hrj) (hminj g hg hrg))
  · rintro rfl
    exact ⟨hrg, hmin⟩

theorem firstAround_zero : firstAround (0 : BitVec n) k = 0 := by
  have hzero : (0 : BitVec n) ++ (0 : BitVec n) = (0 : BitVec (n + n)) := by simp
  rw [firstAround, hzero, firstFrom]
  simp

end Around

end Priority

end Ece385
