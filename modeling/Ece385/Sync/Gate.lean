import Mathlib.Data.Nat.Nth
import Ece385.Sync.Run
import Ece385.Sync.Stream

/-!
# A machine that is not clocked in every moment

Where two clocks meet, a run goes from moment to moment, and a machine takes a step in
those moments only in which its own clock rises. Seen from its clock this is an ordinary
run, with the inputs of the moments in which the clock rises (`gated_run`), and what
happens in these moments are its events (`gated_history`).
-/

namespace Ece385

namespace Clocked

variable {ι σ α : Type*}

/-- The inputs of the moments in which the clock rises. -/
noncomputable def edges (clk : ℕ → Bool) (ins : ℕ → ι) (k : ℕ) : ι :=
  ins (Nat.nth (fun n => clk n = true) k)

section Gated

variable (step : ι → σ → σ) {clk : ℕ → Bool} {ins : ℕ → ι} {t : ℕ → σ}

theorem edges_count {n : ℕ} (h : clk n = true) :
    edges clk ins (Nat.count (fun k => clk k = true) n) = ins n := by
  rw [edges, Nat.nth_count h]

variable (ht : ∀ n, t (n + 1) = if clk n then step (ins n) (t n) else t n)
include ht

theorem gated_run (n : ℕ) :
    t n = run step (t 0) (edges clk ins) (Nat.count (fun k => clk k = true) n) := by
  induction n with
  | zero => rfl
  | succ n ih =>
      rw [ht, Nat.count_succ]
      cases hclk : clk n with
      | false => exact ih
      | true =>
          rw [if_pos rfl, if_pos rfl, run_succ, edges_count hclk, ← ih]

theorem gated_history (ev : ι → σ → List α) (n : ℕ) :
    history (fun k => if clk k then ev (ins k) (t k) else []) n
      = history (fun k => ev (edges clk ins k) (run step (t 0) (edges clk ins) k))
        (Nat.count (fun k => clk k = true) n) := by
  induction n with
  | zero => rfl
  | succ n ih =>
      rw [history_succ, ih, Nat.count_succ]
      cases hclk : clk n with
      | false => exact List.append_nil _
      | true =>
          rw [if_pos rfl, if_pos rfl, history_succ, edges_count hclk, ← gated_run step ht n]

end Gated

end Clocked

end Ece385
