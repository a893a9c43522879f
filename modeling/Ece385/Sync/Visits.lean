import Mathlib.Data.Nat.Find
import Mathlib.Tactic.Choose
import Ece385.Sync.Run

/-!
# All visits of a run

`NextVisit` finds the next visit; `Visits` lists the first `N` of them. Every
run has such a list up to each of its moments (`Visits.exists_upto`), a machine
that comes back from every visit has one that never ends (`Visits.of_back`), and
when what happens between two visits is one step of a coarser machine, the
coarser machine describes the run at all of them (`Visits.simulates`).
-/

namespace Ece385

namespace Clocked

variable {σ κ α : Type*} {P : σ → Prop} {t : ℕ → σ} {T : ℕ → ℕ}

theorem exists_nextVisit {n : ℕ} (hpos : 0 < n) (hn : P (t n)) : ∃ k, NextVisit P t k := by
  classical
  have hex : ∃ k, 0 < k ∧ P (t k) := ⟨n, hpos, hn⟩
  obtain ⟨hpos', hP⟩ := Nat.find_spec hex
  exact ⟨Nat.find hex, hpos', hP, fun k hk hlt hPk => Nat.find_min hex hlt ⟨hk, hPk⟩⟩

/-- `T n` is the moment of visit `n`, up to visit `N`; visit 0 is at the beginning. -/
structure Visits (P : σ → Prop) (t : ℕ → σ) (T : ℕ → ℕ) (N : ℕ) : Prop where
  zero : T 0 = 0
  succ : ∀ n < N, NextVisit P (fun k => t (T n + k)) (T (n + 1) - T n)

namespace Visits

/-- `Good` holds at every visit and leads to the next. -/
theorem of_good (Good : ℕ → Prop) (h0 : Good 0)
    (hnext : ∀ m, Good m → ∃ n, NextVisit P (fun k => t (m + k)) n ∧ Good (m + n)) :
    ∃ T, (∀ N, Visits P t T N) ∧ ∀ n, Good (T n) := by
  have hnext' : ∀ m : {m // Good m}, ∃ m' : {m // Good m},
      NextVisit P (fun k => t (m.1 + k)) (m'.1 - m.1) := by
    rintro ⟨m, hm⟩
    obtain ⟨n, hn, hgood⟩ := hnext m hm
    refine ⟨⟨m + n, hgood⟩, ?_⟩
    rwa [Nat.add_sub_cancel_left]
  choose next hvisit using hnext'
  let T : ℕ → {m // Good m} := fun n => Nat.rec ⟨0, h0⟩ (fun _ m => next m) n
  exact ⟨fun n => (T n).1, fun _ => ⟨rfl, fun n _ => hvisit (T n)⟩, fun n => (T n).2⟩

theorem of_back (h0 : P (t 0)) (hback : ∀ m, P (t m) → ∃ k, 0 < k ∧ P (t (m + k))) :
    ∃ T, ∀ N, Visits P t T N := by
  obtain ⟨T, hT, -⟩ := of_good (P := P) (t := t) (fun m => P (t m)) h0 fun m hm => by
    obtain ⟨j, hpos, hj⟩ := hback m hm
    obtain ⟨k, hk⟩ := exists_nextVisit (t := fun k => t (m + k)) hpos hj
    exact ⟨k, hk, hk.2.1⟩
  exact ⟨T, hT⟩

/-- The visits up to `k`, whether or not there are any later. -/
theorem exists_upto (P : σ → Prop) (t : ℕ → σ) (k : ℕ) :
    ∃ T N, Visits P t T N ∧ T N ≤ k ∧ ∀ j, T N < j → j ≤ k → ¬P (t j) := by
  induction k with
  | zero =>
      exact ⟨fun _ => 0, 0, ⟨rfl, fun n hn => absurd hn (Nat.not_lt_zero n)⟩, Nat.le_refl 0,
        fun j hpos hj => absurd hj (Nat.not_le_of_lt hpos)⟩
  | succ k ih =>
      obtain ⟨T, N, hT, hle, hlast⟩ := ih
      by_cases hP : P (t (k + 1))
      · -- One more visit: `T` below it stays as it is.
        have hold : ∀ n ≤ N, Function.update T (N + 1) (k + 1) n = T n := fun n hn =>
          Function.update_of_ne (by omega) _ _
        have hnew : Function.update T (N + 1) (k + 1) (N + 1) = k + 1 := Function.update_self _ _ _
        refine ⟨Function.update T (N + 1) (k + 1), N + 1, ⟨?_, fun n hn => ?_⟩, ?_, ?_⟩
        · rw [hold 0 (Nat.zero_le N), hT.zero]
        · rcases Nat.lt_succ_iff_lt_or_eq.mp hn with hlt | rfl
          · rw [hold n (by omega), hold (n + 1) hlt]
            exact hT.succ n hlt
          · rw [hold n (Nat.le_refl n), hnew]
            refine ⟨by omega, ?_, fun j hpos hj => hlast (T n + j) (by omega) (by omega)⟩
            show P (t (T n + (k + 1 - T n)))
            rwa [Nat.add_sub_of_le (by omega)]
        · rw [hnew]
        · rw [hnew]
          exact fun j hlt hj => absurd hj (Nat.not_le_of_lt hlt)
      · refine ⟨T, N, hT, by omega, fun j hlt hj => ?_⟩
        rcases Nat.le_or_eq_of_le_succ hj with hjk | rfl
        · exact hlast j hlt hjk
        · exact hP

variable {N n : ℕ} (hT : Visits P t T N)
include hT

theorem lt (hn : n < N) : T n < T (n + 1) := by
  have hpos := (hT.succ n hn).1
  omega

theorem moment (hn : n < N) : T n + (T (n + 1) - T n) = T (n + 1) :=
  Nat.add_sub_of_le (Nat.le_of_lt (hT.lt hn))

theorem visit (h0 : P (t 0)) (hn : n ≤ N) : P (t (T n)) := by
  cases n with
  | zero => rwa [hT.zero]
  | succ n =>
      have hP : P (t (T n + (T (n + 1) - T n))) := (hT.succ n hn).2.1
      rwa [hT.moment hn] at hP

/-- One coarse step a visit. -/
theorem simulates {abs : σ → α} {astep : κ → α → α} {is : ℕ → κ}
    (hstep : ∀ n < N, abs (t (T (n + 1))) = astep (is n) (abs (t (T n)))) (hn : n ≤ N) :
    abs (t (T n)) = run astep (abs (t 0)) is n := by
  induction n with
  | zero => rw [hT.zero, run_zero]
  | succ n ih => rw [hstep n hn, ih (Nat.le_of_lt hn), run_succ]

end Visits

end Clocked

end Ece385
