import Mathlib.Data.List.Nodup
import Mathlib.Data.Nat.Notation
import Mathlib.Logic.Equiv.Basic
import Mathlib.Order.Lattice

/-!
# Bubble sort

Over an array of values, with a comparison `gt` that need not be an order. What
is rearranged stays a permutation whatever `gt` does (`Permutes`). Where `gt`
agrees with the order of the keys (`Compares`), a pass of `n` comparisons moves
the greatest of the first `n + 1` values behind the others, and a pass that is
longer than necessary does no harm; `Settled` is the invariant of the outer
loop.
-/

namespace Ece385

namespace Bubble

variable {α β : Type*} (gt : α → α → Bool)

def compareSwap (d : ℕ → α) (j : ℕ) : ℕ → α :=
  if gt (d j) (d (j + 1)) then d ∘ Equiv.swap j (j + 1) else d

section CompareSwap

variable {gt} {d : ℕ → α} {j : ℕ}

/-- As two assignments. -/
theorem compareSwap_of_gt (h : gt (d j) (d (j + 1)) = true) :
    compareSwap gt d j
      = Function.update (Function.update d j (d (j + 1))) (j + 1) (d j) := by
  rw [compareSwap, if_pos h, Equiv.swap_comm, Equiv.comp_swap_eq_update]

theorem compareSwap_of_not (h : ¬gt (d j) (d (j + 1)) = true) : compareSwap gt d j = d := by
  rw [compareSwap, if_neg h]

end CompareSwap

/-- `n` comparisons, from the first two values on. -/
def pass (d : ℕ → α) : ℕ → ℕ → α
  | 0 => d
  | n + 1 => compareSwap gt (pass d n) n

/-- Passes of the lengths `len 0`, `len 1`, ... -/
def passes (len : ℕ → ℕ) (d : ℕ → α) : ℕ → ℕ → α
  | 0 => d
  | r + 1 => pass gt (passes len d r) (len r)

/-! ## Permutations -/

/-- `d'` is a permutation of the first `n` values of `d`. -/
def Permutes (n : ℕ) (d d' : ℕ → α) : Prop :=
  ∃ e : Equiv.Perm ℕ, (∀ k, n ≤ k → e k = k) ∧ d' = d ∘ e

section Permutes

variable {n N : ℕ} {d d₁ d' : ℕ → α}

theorem Permutes.refl : Permutes n d d := ⟨Equiv.refl ℕ, fun _ _ => rfl, rfl⟩

theorem Permutes.trans (h : Permutes n d d₁) (h' : Permutes n d₁ d') : Permutes n d d' := by
  obtain ⟨e, he, rfl⟩ := h
  obtain ⟨e', he', rfl⟩ := h'
  refine ⟨e'.trans e, fun k hk => ?_, rfl⟩
  rw [Equiv.trans_apply, he' k hk, he k hk]

theorem Permutes.mono (h : Permutes n d d') (hn : n ≤ N) : Permutes N d d' := by
  obtain ⟨e, he, rfl⟩ := h
  exact ⟨e, fun k hk => he k (Nat.le_trans hn hk), rfl⟩

theorem Permutes.fixed (h : Permutes n d d') {k : ℕ} (hk : n ≤ k) : d' k = d k := by
  obtain ⟨e, he, rfl⟩ := h
  rw [Function.comp_apply, he k hk]

theorem perm_lt {e : Equiv.Perm ℕ} (he : ∀ k, n ≤ k → e k = k) {k : ℕ} (hk : k < n) : e k < n := by
  rcases Nat.lt_or_ge (e k) n with hlt | hge
  · exact hlt
  · have hfix := e.injective (he (e k) hge)
    omega

theorem Permutes.exists_eq (h : Permutes n d d') {k : ℕ} (hk : k < n) :
    ∃ j, j < n ∧ d' k = d j := by
  obtain ⟨e, he, rfl⟩ := h
  exact ⟨e k, perm_lt he hk, rfl⟩

/-- As lists. -/
theorem Permutes.perm (h : Permutes n d d') :
    ((List.range n).map d').Perm ((List.range n).map d) := by
  obtain ⟨e, he, rfl⟩ := h
  have he' : ∀ k, n ≤ k → e.symm k = k := fun k hk => by rw [Equiv.symm_apply_eq, he k hk]
  have hrange : ((List.range n).map e).Perm (List.range n) := by
    refine (List.perm_ext_iff_of_nodup (List.nodup_range.map e.injective) List.nodup_range).mpr
      fun k => ?_
    rw [List.mem_map, List.mem_range]
    constructor
    · rintro ⟨j, hj, rfl⟩
      exact perm_lt he (List.mem_range.mp hj)
    · intro hk
      exact ⟨e.symm k, List.mem_range.mpr (perm_lt he' hk), e.apply_symm_apply k⟩
  rw [← List.map_map]
  exact hrange.map d

theorem compareSwap_permutes (d : ℕ → α) {j : ℕ} (hj : j + 1 < n) :
    Permutes n d (compareSwap gt d j) := by
  unfold compareSwap
  split
  · refine ⟨Equiv.swap j (j + 1), fun k hk => ?_, rfl⟩
    exact Equiv.swap_apply_of_ne_of_ne (by omega) (by omega)
  · exact Permutes.refl

theorem pass_permutes (d : ℕ → α) (n : ℕ) : Permutes (n + 1) d (pass gt d n) := by
  induction n with
  | zero => exact Permutes.refl
  | succ n ih =>
      have hswap := compareSwap_permutes gt (pass gt d n) (Nat.lt_succ_self (n + 1))
      exact (ih.mono (Nat.le_succ _)).trans hswap

theorem passes_permutes {len : ℕ → ℕ} (hlen : ∀ r, len r < N) (d : ℕ → α) (r : ℕ) :
    Permutes N d (passes gt len d r) := by
  induction r with
  | zero => exact Permutes.refl
  | succ r ih => exact ih.trans ((pass_permutes gt _ _).mono (hlen r))

end Permutes

/-! ## Order -/

variable [LinearOrder β] (key : α → β)

/-- `gt` compares the keys of the first `N` values. -/
def Compares (N : ℕ) (d : ℕ → α) : Prop :=
  ∀ j k, j < N → k < N → (gt (d j) (d k) = true ↔ key (d k) < key (d j))

/-- From `n` on the first `N` values are sorted, and nothing before is greater. -/
def Settled (N n : ℕ) (d : ℕ → α) : Prop :=
  ∀ j k, j ≤ k → n ≤ k → k < N → key (d j) ≤ key (d k)

section Order

variable {gt key} {n N : ℕ} {d d' : ℕ → α}

theorem Compares.permutes (h : Compares gt key N d) (hd : Permutes N d d') :
    Compares gt key N d' := by
  intro j k hj hk
  obtain ⟨j', hj', hdj⟩ := hd.exists_eq hj
  obtain ⟨k', hk', hdk⟩ := hd.exists_eq hk
  rw [hdj, hdk]
  exact h j' k' hj' hk'

theorem Settled.mono (h : Settled key N n d) {m : ℕ} (hm : n ≤ m) : Settled key N m d :=
  fun j k hjk hk => h j k hjk (Nat.le_trans hm hk)

theorem compareSwap_values (hgt : gt (d n) (d (n + 1)) = true) :
    compareSwap gt d n n = d (n + 1) ∧ compareSwap gt d n (n + 1) = d n
      ∧ ∀ k, k < n → compareSwap gt d n k = d k := by
  rw [compareSwap_of_gt hgt]
  refine ⟨?_, Function.update_self .., fun k hk => ?_⟩
  · rw [Function.update_of_ne (Nat.ne_of_lt (Nat.lt_succ_self n)), Function.update_self]
  · rw [Function.update_of_ne (by omega), Function.update_of_ne (by omega)]

/-- The running maximum is carried along. -/
theorem pass_max (h : Compares gt key N d) (hn : n < N) {j : ℕ} (hj : j ≤ n) :
    key (pass gt d n j) ≤ key (pass gt d n n) := by
  induction n generalizing j with
  | zero => rw [Nat.le_zero.mp hj]
  | succ n ih =>
      have hmax : ∀ j, j ≤ n → key (pass gt d n j) ≤ key (pass gt d n n) :=
        fun j hj => ih (by omega) hj
      have hcmp := h.permutes ((pass_permutes gt d n).mono (N := N) (by omega)) n (n + 1)
        (by omega) hn
      rw [pass]
      by_cases hgt : gt (pass gt d n n) (pass gt d n (n + 1)) = true
      · obtain ⟨hleft, hright, hbelow⟩ := compareSwap_values hgt
        rw [hright]
        rcases Nat.lt_trichotomy j n with hlt | rfl | hgt'
        · rw [hbelow j hlt]
          exact hmax j (by omega)
        · rw [hleft]
          exact le_of_lt (hcmp.mp hgt)
        · rw [show j = n + 1 by omega, hright]
      · have hle : key (pass gt d n n) ≤ key (pass gt d n (n + 1)) :=
          not_lt.mp fun hlt => hgt (hcmp.mpr hlt)
        rw [compareSwap_of_not hgt]
        rcases Nat.lt_or_eq_of_le hj with hlt | rfl
        · exact le_trans (hmax j (by omega)) hle
        · exact le_refl _

/-- A pass settles one more value. -/
theorem Settled.pass (h : Settled key N (n + 1) d) (hgt : Compares gt key N d) :
    Settled key N n (pass gt d n) := by
  intro j k hjk hnk hk
  have hperm := pass_permutes gt d n
  rcases Nat.lt_or_eq_of_le hnk with hlt | rfl
  · rw [hperm.fixed (k := k) hlt]
    rcases Nat.lt_or_ge j (n + 1) with hj | hj
    · obtain ⟨j', hj', hdj⟩ := hperm.exists_eq hj
      rw [hdj]
      exact h j' k (by omega) hlt hk
    · rw [hperm.fixed hj]
      exact h j k hjk hlt hk
  · exact pass_max hgt hk hjk

/-- The first pass looks at everything, and no pass is shorter by more than one
than the one before. -/
theorem passes_settled {len : ℕ → ℕ} (hgt : Compares gt key N d) (hlen : ∀ r, len r < N)
    (hfirst : N ≤ len 0 + 1) (hnext : ∀ r, len r ≤ len (r + 1) + 1) (r : ℕ) :
    Settled key N (len r) (passes gt len d (r + 1)) := by
  have hcmp : ∀ r, Compares gt key N (passes gt len d r) :=
    fun r => hgt.permutes (passes_permutes gt hlen d r)
  induction r with
  | zero =>
      have hempty : Settled key N (len 0 + 1) d := fun j k _ hk hkN => by omega
      exact hempty.pass hgt
  | succ r ih => exact (ih.mono (hnext r)).pass (hcmp (r + 1))

theorem Settled.sorted (h : Settled key N n d) (hn : n ≤ 1) :
    ((List.range N).map d).Pairwise fun x y => key x ≤ key y := by
  rw [List.pairwise_map, List.pairwise_iff_getElem]
  intro j k hj hk hjk
  rw [List.length_range] at hj hk
  rw [List.getElem_range, List.getElem_range]
  exact h j k (Nat.le_of_lt hjk) (by omega) hk

end Order

end Bubble

end Ece385
