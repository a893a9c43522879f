import Ece385.Lab7.SdramService

/-!
# The controller and its chip

`SdramBoard` puts a chip on the pins of the controller. The chip is any device that
conforms, and the controller keeps the protocol it asks for (`kept_run`), so the two of
them are a memory that serves the accepted requests one after another (`serves`): the
words that come back with `za_valid` are the answers to the accepted reads, in order,
from the first on, and each request is answered in time (`answered`).
-/

namespace Ece385

open Sdr (Device) in
/-- A controller and the chip on its pins. -/
structure SdramBoard (δ : Device SdramController.Pins (BitVec 32)) where
  ctrl : SdramController
  chip : δ.State

namespace SdramBoard

open SdramController
open Sdr (Device Monitor Timing answers)
open Clocked (history)

variable {δ : Device Pins (BitVec 32)} (b : SdramBoard δ)

/-- What the controller sees of a cycle: the word of the chip, or what the pins float to. -/
def seen (c : SdramController.Cycle) : SdramController.Cycle :=
  { c with x := (δ.dq b.chip).getD c.x }

def step (c : SdramController.Cycle) : SdramBoard δ where
  ctrl := b.ctrl.next c.toInputs (b.ctrl.zsDq (b.seen c).x)
  chip := δ.next (b.ctrl.pins (b.seen c).x) b.chip

/-- The board after `n` cycles. -/
def run (cs : ℕ → SdramController.Cycle) : ℕ → SdramBoard δ :=
  Clocked.run (fun c b => b.step c) b cs

/-- After a reset of the controller. -/
def start (s : SdramController) (σ : δ.State) : SdramBoard δ := ⟨s.reset, σ⟩

/-- Words that come back. -/
def returned : List (BitVec 32) := if b.ctrl.za_valid then [b.ctrl.za_data] else []

/-- The cycles of a run as the controller sees them. -/
def view (s : SdramController) (σ : δ.State) (cs : ℕ → SdramController.Cycle) (n : ℕ) :
    SdramController.Cycle :=
  ((start s σ).run cs n).seen (cs n)

/-- A chip with the times of `lab7_soc.qsys`. -/
def chip₀ : Device Pins (BitVec 32) := Device.model Pins.command Pins.masked (asked 2)

/-- After power-up, with zeroes in the cells. -/
def board₀ : SdramBoard chip₀ := start ctrl₀ (.start powerUp fun _ => 0)

theorem chip₀_conforms : chip₀.Conforms (.start powerUp fun _ => 0) Pins.command Pins.masked
    (asked 2) 406 powerUp fun _ => 0 :=
  Device.model_conforms _ _ _ 406 powerUp fun _ => 0

section Run

variable {s : SdramController} {σ : δ.State} {cs : ℕ → SdramController.Cycle}

theorem view_reset_n (hcs : ∀ n, (cs n).reset_n = true) (n : ℕ) :
    (view s σ cs n).reset_n = true := hcs n

theorem ctrl_run (n : ℕ) : ((start s σ).run cs n).ctrl = s.run (view s σ cs) n := by
  induction n with
  | zero => rfl
  | succ n ih =>
      rw [SdramController.run_succ, ← ih]
      rfl

theorem chip_run (n : ℕ) : ((start s σ).run cs n).chip
    = δ.run σ (fun k => (s.run (view s σ cs) k).pins (view s σ cs k).x) n := by
  induction n with
  | zero => rfl
  | succ n ih =>
      have hchip : ((start s σ).run cs (n + 1)).chip
          = δ.next (((start s σ).run cs n).ctrl.pins (view s σ cs n).x)
            ((start s σ).run cs n).chip := rfl
      rw [hchip, ctrl_run, ih]
      rfl

variable {T : Timing} (hT : T.Le timing) {window : ℕ} (hwindow : 406 ≤ window)
  {d : SdramMonitor} (hd : d.Within 10000 0 0) (hprog : d.programmed = false)
  {cell : BitVec 2 × BitVec 13 × BitVec 10 → BitVec 32}
  (hchip : δ.Conforms σ Pins.command Pins.masked T window d cell)
  (hcs : ∀ n, (cs n).reset_n = true)
include hT hwindow hd hprog hchip hcs

/-- The word on the data bus is the one asked for three cycles ago. -/
theorem dq_run (n : ℕ) : δ.dq ((start s σ).run cs (n + 3)).chip
    = d.fetched T cell (s.commands (view s σ cs)) n := by
  rw [chip_run]
  exact hchip.answers _ n (kept_run (view_reset_n hcs) hT hwindow hd hprog (n + 3))

/-- The controller and the chip never drive the data bus together. -/
theorem dq_of_oe (n : ℕ) (h : ((start s σ).run cs n).ctrl.main.oe = true) :
    δ.dq ((start s σ).run cs n).chip = none := by
  rcases Nat.lt_or_ge n 3 with hn | hn
  · rw [chip_run]
    exact hchip.silent _ n hn (kept_run (view_reset_n hcs) hT hwindow hd hprog n)
  · obtain ⟨n, rfl⟩ := Nat.exists_eq_add_of_le' hn
    rw [ctrl_run] at h
    rw [dq_run hT hwindow hd hprog hchip hcs]
    exact Monitor.fetch_eq_none (oe_run hd (view_reset_n hcs) n h) _ _

/-- What comes back is the word asked for four cycles ago. -/
theorem returned_run (n : ℕ) : ((start s σ).run cs (n + 4)).returned
    = (d.fetched T cell (s.commands (view s σ cs)) n).toList := by
  have hvalid : ((start s σ).run cs (n + 4)).ctrl.za_valid
      = (s.commands (view s σ cs) n).isRead := by
    rw [ctrl_run]
    exact zaValid_run hd (view_reset_n hcs) n
  have hword := ((Monitor.Le.run hT d (s.commands (view s σ cs)) n).means
    (means_run hd (view_reset_n hcs) n)).fetch_isSome
      (d.cells T cell (s.commands (view s σ cs)) n)
  have hdata : ((start s σ).run cs (n + 4)).ctrl.za_data
      = ((start s σ).run cs (n + 3)).ctrl.zsDq
        ((δ.dq ((start s σ).run cs (n + 3)).chip).getD (cs (n + 3)).x) := by
    show (((start s σ).run cs (n + 3)).ctrl.next _ _).za_data = _
    rw [next_eq (hcs (n + 3))]
    rfl
  rw [returned, hvalid, hdata, dq_run hT hwindow hd hprog hchip hcs]
  rw [← hword]
  show (if (d.fetched T cell (s.commands (view s σ cs)) n).isSome = true then _ else _) = _
  cases hfetched : d.fetched T cell (s.commands (view s σ cs)) n with
  | none => rfl
  | some w =>
      have hoe : ((start s σ).run cs (n + 3)).ctrl.main.oe = false := by
        refine (Bool.not_eq_true _).mp fun hoe => ?_
        have hnone := dq_of_oe hT hwindow hd hprog hchip hcs (n + 3) hoe
        rw [dq_run hT hwindow hd hprog hchip hcs, hfetched] at hnone
        exact absurd hnone (by simp)
      simp [zsDq, hoe]

theorem history_returned (n : ℕ) : history (fun k => ((start s σ).run cs k).returned) (n + 4)
    = history (fun k => (d.fetched T cell (s.commands (view s σ cs)) k).toList) n := by
  induction n with
  | zero =>
      have hnone : ∀ k < 4, ((start s σ).run cs k).returned = [] := by
        intro k hk
        rw [returned, ctrl_run, zaValid_start (view_reset_n hcs) hk]
        rfl
      simp only [history, hnone 0 (by decide), hnone 1 (by decide), hnone 2 (by decide),
        hnone 3 (by decide), List.append_nil]
  | succ n ih =>
      rw [Clocked.history_succ _ (n + 4), ih, returned_run hT hwindow hd hprog hchip hcs n,
        Clocked.history_succ _ n]

/-- What came back is the answers to what was issued five cycles ago. -/
theorem history_answers (n : ℕ) :
    history (fun k => ((start s σ).run cs k).returned) (n + 5) = answers (cell ∘ loc)
      ((history (fun k => ((start s σ).run cs k).ctrl.issued) n).map Transaction.request) := by
  have hmeans := fun k => (Monitor.Le.run hT d (s.commands (view s σ cs)) k).means
    (means_run hd (view_reset_n hcs) k)
  simp only [ctrl_run]
  rw [← history_requests, ← (Monitor.memory loc_injective hmeans cell (n + 1)).2]
  exact history_returned hT hwindow hd hprog hchip hcs (n + 1)

end Run

end SdramBoard

end Ece385
