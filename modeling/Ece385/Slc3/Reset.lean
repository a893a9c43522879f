import Ece385.Slc3.Store
import Ece385.Slc3.Undriven

/-!
# What a reset forgets

Two cycles of reset bring every register of the machine to a known state
except three: `BEN`, the LEDs, and the flags, whose reset is commented out in
`datapath.sv` ("unconditional branch won't work properly if you reset to 0").
`BEN` is written before it is read and nothing reads the LEDs; the flags are
what a history can leave behind. They matter at the first branch: as long as
two boards decide their branches alike, they go the same way
(`reset_erases_history`).
-/

namespace Ece385

open Isdu (State)
open Clocked

namespace System

variable {μ : Type*} {M : ExternalMemory μ}

/-- The end of a reset: what was cleared agrees, whatever it was before. -/
theorem agree_of_reset {s t : System μ} {cs cs' : ℕ → Cycle} {d : ℕ}
    (hin : ∀ k, (cs k).toInputs = (cs' k).toInputs) (hd : 2 ≤ d)
    (hreset : ∀ k, k < d → (cs k).Reset = false)
    (hmem : (s.run M cs d).mem = (t.run M cs' d).mem) :
    Agree (s.run M cs d) (t.run M cs' d) := by
  obtain ⟨e, rfl⟩ : ∃ e, d = e + 1 + 1 := ⟨d - 2, by omega⟩
  have hreset' : (cs' e).Reset = false :=
    (congrArg Inputs.Reset (hin e)).symm.trans (hreset e (by omega))
  have hs := step_toSlc3_clear M (s.run M cs (e + 1)) (cs (e + 1)) (hreset e (by omega))
  have ht := step_toSlc3_clear M (t.run M cs' (e + 1)) (cs' (e + 1)) hreset'
  rw [← run_step] at hs ht
  constructor
  case mem => exact hmem
  all_goals simp [hs, ht, Slc3.latch, Slc3.clear, hin, State.takes, State.writes]

/-- **A reset erases history, the flags apart.** Two boards in any two states
are reset for the same `d` cycles, with the same pins from then on and the
same memory at the end. They agree up to any moment before which they decode
their branches alike; with equal flags at the end of the reset, for ever. -/
theorem reset_erases_history {s t : System μ} {cs cs' : ℕ → Cycle} {d : ℕ}
    (hin : ∀ k, (cs k).toInputs = (cs' k).toInputs) (hd : 2 ≤ d)
    (hreset : ∀ k, k < d → (cs k).Reset = false)
    (hmem : (s.run M cs d).mem = (t.run M cs' d).mem) :
    (∀ n, (∀ k, k < n → DecidesAlike (s.run M cs (d + k)) (t.run M cs' (d + k))) →
      Agree (s.run M cs (d + n)) (t.run M cs' (d + n)))
    ∧ ((s.run M cs d).CC = (t.run M cs' d).CC →
      ∀ n, Agree (s.run M cs (d + n)) (t.run M cs' (d + n))) := by
  have h0 := agree_of_reset hin hd hreset hmem
  have hin' : ∀ k, (later d cs k).toInputs = (later d cs' k).toInputs := fun k => hin (d + k)
  refine ⟨fun n hn => ?_, fun hCC n => ?_⟩
  · rw [run_later, run_later]
    refine h0.run hin' n fun k hk => ?_
    rw [← run_later, ← run_later]
    exact hn k hk
  · rw [run_later, run_later]
    exact h0.run_of_CC hCC hin' n

/-- Two boards with different registers and the same flags. -/
theorem reset_erases_history_same_cc :
    let s := cleared fun _ : BitVec 20 => SLC3_2.opCLR SLC3_2.R0
    let t : System (BitVec 20 → BitVec 16) := { s with PC := 5, IR := 7, BEN := true }
    let cs : ℕ → Cycle := fun k => { Cycle.idle 0 with Reset := decide (2 ≤ k), Run := k != 3 }
    Agree (s.run sram cs 40) (t.run sram cs 40) := by
  intro s t cs
  have hs : (s.run sram cs 2).mem = s.mem := mem_of_no_store rfl (by decide +kernel)
  have ht : (t.run sram cs 2).mem = t.mem := mem_of_no_store rfl (by decide +kernel)
  have h := reset_erases_history (fun _ => rfl) (Nat.le_refl 2)
    (fun k hk => decide_eq_false (Nat.not_le_of_lt hk)) (hs.trans ht.symm)
  exact h.2 (by decide +kernel) 38

/-- The flags survive: a board fresh from power-up takes the first branch of
its program, and later, after an `opCLR` and a reset, does not. -/
theorem reset_keeps_cc :
    let s := cleared fun a : BitVec 20 =>
      if a = 0 then SLC3_2.opBR SLC3_2.p 5 else SLC3_2.opCLR SLC3_2.R0
    let t := s.run sram (Cycle.start 0) 17
    let cs : ℕ → Cycle := fun k => { Cycle.idle 0 with Reset := decide (2 ≤ k), Run := k != 3 }
    (s.run sram cs 2).mem = (t.run sram cs 2).mem
      ∧ (s.run sram cs 13).PC = 6 ∧ (t.run sram cs 13).PC = 2 := by
  intro s t cs
  have hs : (s.run sram cs 2).mem = s.mem := mem_of_no_store rfl (by decide +kernel)
  have ht : (t.run sram cs 2).mem = t.mem :=
    mem_of_no_store (by decide +kernel) (by decide +kernel)
  have hts : t.mem = s.mem := mem_of_no_store rfl (by decide +kernel)
  exact ⟨hs.trans (ht.trans hts).symm, by decide +kernel, by decide +kernel⟩

end System

end Ece385
