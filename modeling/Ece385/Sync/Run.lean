import Mathlib.Data.Nat.Notation
import Mathlib.Tactic.TypeStar

/-!
# Runs of a clocked machine

A synchronous circuit is a function from the inputs of one clock cycle and
the register contents to the register contents after the edge. `run` feeds
it a stream of inputs; everything else here is about runs in general:

- shifting the start of a run (`run_succ'`, `run_add`), and its dependence
  on the inputs before the moment looked at (`run_congr`);
- the induction rules, packaged once: an invariant of one run
  (`run_invariant`) and a relation between two (`run_rel`);
- visits: `NextVisit` says when a run is next in a set of states, `Leads`
  that a number of cycles pass without such a visit, and `Returns` that the
  next visit is at a given moment and in a given state. Their `cons` rules
  execute a machine symbolically, one cycle at a time, and `Leads.nextVisit`
  joins the pieces;
- waiting: who is no longer where he was has left at some moment in between
  (`exists_exit`);
- registers: `Latest` is the last moment of an interval in which something
  happens, and a register shows what was loaded then (`Latest.loaded`).
-/

namespace Ece385

namespace Clocked

variable {ι σ κ τ : Type*}

/-- The register contents after `n` cycles from `s`, the inputs of cycle `k`
being `ins k`. -/
def run (step : ι → σ → σ) (s : σ) (ins : ℕ → ι) : ℕ → σ
  | 0 => s
  | n + 1 => step (ins n) (run step s ins n)

/-- The stream as seen `m` cycles later. -/
def later (m : ℕ) (ins : ℕ → ι) : ℕ → ι := fun k => ins (m + k)

@[simp] theorem later_apply (m : ℕ) (ins : ℕ → ι) (k : ℕ) :
    later m ins k = ins (m + k) := rfl

theorem later_later (m n : ℕ) (ins : ℕ → ι) : later n (later m ins) = later (m + n) ins :=
  funext fun k => congrArg ins (Nat.add_assoc m n k).symm

section Run

variable {step : ι → σ → σ} {s : σ} {ins : ℕ → ι}

@[simp] theorem run_zero : run step s ins 0 = s := rfl

theorem run_succ (n : ℕ) : run step s ins (n + 1) = step (ins n) (run step s ins n) := rfl

theorem run_add (m n : ℕ) :
    run step s ins (m + n) = run step (run step s ins m) (later m ins) n := by
  induction n with
  | zero => rfl
  | succ n ih => rw [← Nat.add_assoc, run_succ, run_succ, ih, later_apply]

/-- Cutting off the first cycle instead of the last. -/
theorem run_succ' (n : ℕ) :
    run step s ins (n + 1) = run step (step (ins 0) s) (later 1 ins) n := by
  rw [Nat.add_comm, run_add]; rfl

/-- A run up to `n` depends on the inputs before `n` only. -/
theorem run_congr {ins' : ℕ → ι} {n : ℕ} (h : ∀ k, k < n → ins k = ins' k) :
    run step s ins n = run step s ins' n := by
  induction n with
  | zero => rfl
  | succ n ih =>
      rw [run_succ, run_succ, h n (Nat.lt_succ_self n),
        ih fun k hk => h k (Nat.lt_succ_of_lt hk)]

/-- The invariant rule. The step may use that it is before `n`, hence any
assumption on the inputs of the run. -/
theorem run_invariant {P : ℕ → σ → Prop} (n : ℕ) (h0 : P 0 s)
    (hs : ∀ k, k < n → P k (run step s ins k) → P (k + 1) (step (ins k) (run step s ins k))) :
    P n (run step s ins n) := by
  induction n with
  | zero => exact h0
  | succ n ih =>
      exact hs n (Nat.lt_succ_self n) (ih fun k hk => hs k (Nat.lt_succ_of_lt hk))

/-- The two-run rule: a relation kept by every pair of corresponding steps. -/
theorem run_rel {step' : κ → τ → τ} {s' : τ} {ins' : ℕ → κ} {R : ℕ → σ → τ → Prop} (n : ℕ)
    (h0 : R 0 s s')
    (hs : ∀ k, k < n → R k (run step s ins k) (run step' s' ins' k) →
      R (k + 1) (step (ins k) (run step s ins k)) (step' (ins' k) (run step' s' ins' k))) :
    R n (run step s ins n) (run step' s' ins' n) := by
  induction n with
  | zero => exact h0
  | succ n ih =>
      exact hs n (Nat.lt_succ_self n) (ih fun k hk => hs k (Nat.lt_succ_of_lt hk))

end Run

/-! ## Visits -/

/-- `n` is the first moment after now at which `t` is in `P`. -/
def NextVisit (P : σ → Prop) (t : ℕ → σ) (n : ℕ) : Prop :=
  0 < n ∧ P (t n) ∧ ∀ k, 0 < k → k < n → ¬P (t k)

instance (P : σ → Prop) [DecidablePred P] (t : ℕ → σ) (n : ℕ) : Decidable (NextVisit P t n) :=
  decidable_of_iff (0 < n ∧ P (t n) ∧ ∀ k, k < n → 0 < k → ¬P (t k))
    ⟨fun h => ⟨h.1, h.2.1, fun k hk hkn => h.2.2 k hkn hk⟩,
      fun h => ⟨h.1, h.2.1, fun k hkn hk => h.2.2 k hk hkn⟩⟩

theorem NextVisit.unique {P : σ → Prop} {t : ℕ → σ} {m n : ℕ}
    (hm : NextVisit P t m) (hn : NextVisit P t n) : m = n := by
  rcases Nat.lt_trichotomy m n with h | h | h
  · exact absurd hm.2.1 (hn.2.2 m hm.1 h)
  · exact h
  · exact absurd hn.2.1 (hm.2.2 n hn.1 h)

theorem NextVisit.congr {P : σ → Prop} {t u : ℕ → σ} {n : ℕ} (hn : NextVisit P t n)
    (h : ∀ k, k ≤ n → t k = u k) : NextVisit P u n := by
  obtain ⟨hpos, hP, hk⟩ := hn
  refine ⟨hpos, h n (Nat.le_refl n) ▸ hP, fun k hkpos hkn => ?_⟩
  rw [← h k (Nat.le_of_lt hkn)]
  exact hk k hkpos hkn

section Visits

variable (P : σ → Prop) (step : ι → σ → σ)

/-- `n` cycles lead from `s` to `s'`, and none of them ends in `P`. -/
def Leads (s : σ) (ins : ℕ → ι) (n : ℕ) (s' : σ) : Prop :=
  run step s ins n = s' ∧ ∀ k, 0 < k → k ≤ n → ¬P (run step s ins k)

/-- The next visit of `P` is after `n` cycles, in the state `s'`. -/
def Returns (s : σ) (ins : ℕ → ι) (n : ℕ) (s' : σ) : Prop :=
  NextVisit P (run step s ins) n ∧ run step s ins n = s'

variable {P step} {s s' : σ} {ins : ℕ → ι} {m n : ℕ}

theorem Leads.refl : Leads P step s ins 0 s :=
  ⟨rfl, fun _ hpos hk => absurd hk (Nat.not_le_of_lt hpos)⟩

/-- One more cycle in front. -/
theorem Leads.cons {s₁ : σ} (h1 : step (ins 0) s = s₁) (hP : ¬P s₁)
    (h : Leads P step s₁ (later 1 ins) n s') : Leads P step s ins (n + 1) s' := by
  subst h1
  refine ⟨(run_succ' n).trans h.1, fun k hpos hk => ?_⟩
  obtain ⟨k, rfl⟩ : ∃ j, k = j + 1 := ⟨k - 1, by omega⟩
  rw [run_succ']
  cases k with
  | zero => exact hP
  | succ k => exact h.2 (k + 1) (Nat.succ_pos k) (Nat.le_of_succ_le_succ hk)

/-- Quiet cycles only delay the next visit. -/
theorem Leads.nextVisit (h : Leads P step s ins n s') :
    NextVisit P (run step s ins) m
      ↔ ∃ j, m = n + j ∧ NextVisit P (run step s' (later n ins)) j := by
  obtain ⟨rfl, hq⟩ := h
  constructor
  · rintro ⟨hpos, hm, hk⟩
    have hlt : n < m := Nat.lt_of_not_le fun hle => hq m hpos hle hm
    obtain ⟨j, rfl⟩ : ∃ j, m = n + j := ⟨m - n, by omega⟩
    refine ⟨j, rfl, by omega, by rwa [← run_add], fun k hkpos hkj => ?_⟩
    rw [← run_add]
    exact hk (n + k) (by omega) (by omega)
  · rintro ⟨j, rfl, hpos, hj, hk⟩
    refine ⟨by omega, by rwa [run_add], fun k hkpos hkj => ?_⟩
    by_cases hkn : k ≤ n
    · exact hq k hkpos hkn
    · obtain ⟨i, rfl⟩ : ∃ i, k = n + i := ⟨k - n, by omega⟩
      rw [run_add]
      exact hk i (by omega) (by omega)

theorem Returns.one {s₁ : σ} (h1 : step (ins 0) s = s₁) (hP : P s₁) :
    Returns P step s ins 1 s₁ :=
  ⟨⟨Nat.one_pos, by rw [run_succ, run_zero, h1]; exact hP, fun _ hpos hk => by omega⟩, h1⟩

theorem Leads.returns {s'' : σ} (h : Leads P step s ins n s')
    (h' : Returns P step s' (later n ins) m s'') : Returns P step s ins (n + m) s'' :=
  ⟨h.nextVisit.mpr ⟨m, rfl, h'.1⟩, by rw [run_add, h.1]; exact h'.2⟩

theorem Returns.cons {s₁ : σ} (h1 : step (ins 0) s = s₁) (hP : ¬P s₁)
    (h : Returns P step s₁ (later 1 ins) n s') : Returns P step s ins (1 + n) s' :=
  (Leads.refl.cons h1 hP).returns h

theorem Returns.eq_of_nextVisit (h : Returns P step s ins n s')
    (hm : NextVisit P (run step s ins) m) : m = n ∧ run step s ins m = s' := by
  obtain rfl := hm.unique h.1
  exact ⟨rfl, h.2⟩

end Visits

/-! ## Waiting -/

theorem exists_exit {P : ℕ → Prop} {m n : ℕ} (hmn : m ≤ n) (hm : P m) (hn : ¬P n) :
    ∃ j, m ≤ j ∧ j < n ∧ P j ∧ ¬P (j + 1) := by
  obtain ⟨d, rfl⟩ := Nat.exists_eq_add_of_le hmn
  induction d with
  | zero => exact absurd hm hn
  | succ d ih =>
      by_cases hd : P (m + d)
      · exact ⟨m + d, by omega, by omega, hd, hn⟩
      · obtain ⟨j, hmj, hjd, hj⟩ := ih (by omega) hd
        exact ⟨j, hmj, by omega, hj⟩

/-! ## Latest moments -/

/-- `k` is the last moment from `m` on and before `n` that is in `P`. -/
def Latest (P : ℕ → Prop) (m n k : ℕ) : Prop :=
  m ≤ k ∧ k < n ∧ P k ∧ ∀ j, k < j → j < n → ¬P j

section Latest

variable {P : ℕ → Prop} {q : ℕ → σ} {v : σ} {m n k : ℕ}

/-- A register holds what it has while nothing loads it. -/
theorem held_of_none (hmn : m ≤ n) (hnone : ∀ j, m ≤ j → j < n → ¬P j)
    (hhold : ∀ j, m ≤ j → j < n → ¬P j → q (j + 1) = q j) : q n = q m := by
  obtain ⟨d, rfl⟩ := Nat.exists_eq_add_of_le hmn
  induction d with
  | zero => rfl
  | succ d ih =>
      have hd := hhold (m + d) (by omega) (by omega) (hnone _ (by omega) (by omega))
      have hprev := ih (by omega) (fun j h h' => hnone j h (by omega))
        fun j h h' => hhold j h (by omega)
      exact hd.trans hprev

/-- And shows what was loaded last. -/
theorem Latest.loaded (h : Latest P m n k) (hload : q (k + 1) = v)
    (hhold : ∀ j, m ≤ j → j < n → ¬P j → q (j + 1) = q j) : q n = v := by
  obtain ⟨hmk, hkn, -, hlast⟩ := h
  have hheld := held_of_none (P := P) (q := q) (show k + 1 ≤ n from hkn)
    (fun j hj hjn => hlast j hj hjn) fun j hj hjn => hhold j (by omega) hjn
  exact hheld.trans hload

end Latest

end Clocked

end Ece385
