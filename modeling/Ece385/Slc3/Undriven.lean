import Ece385.Slc3.Instr
import Ece385.Slc3.TestMemory

/-!
# Two boards side by side

What the machine does next is a function of less than its registers. The bus
buffers matter in the two states that take a word from memory and in the
three that write one, and `BEN` matters in `S_00`. `Agree` relates two boards
that have everything else in common and these where they matter; it is kept
by a cycle with the same pins, whatever the undriven wires are
(`Agree.step`), provided the two decode branches alike.

The flags are not part of `Agree`. With equal flags branches are decoded
alike, and the relation is kept for ever: undriven wires never show
(`undriven_invisible`). What is left of that when the flags differ is
the subject of `Ece385.Slc3.Reset`.
-/

namespace Ece385

open Isdu (State)
open Clocked

/-- The states that load `MDR` from the memory side. -/
def Isdu.State.takes : State → Bool
  | .S_33_3 | .S_25_3 => true
  | _ => false

namespace Isdu

theorem takes_nextState (Run Continue BEN : Bool) (op : BitVec 4) (q : State)
    (h : (nextState Run Continue BEN op q).takes = true) : q.reads = true := by
  refine nextState_rel (P := fun q q' => q'.takes = true → q.reads = true) (by decide) ?_
    Run Continue BEN op q h
  intro q
  cases q <;> decide

/-- `S_00` is reached by decoding a branch. -/
theorem of_nextState_eq_S_00 (Run Continue BEN : Bool) (op : BitVec 4) (q : State)
    (h : nextState Run Continue BEN op q = .S_00) : q = .S_32 ∧ op = SLC3_2.op_BR := by
  have hdecode : ∀ op, decode op = .S_00 → op = SLC3_2.op_BR := by decide
  have hother : ∀ q Run Continue BEN, nextState Run Continue BEN 0 q = .S_00 → q = .S_32 := by
    intro q
    cases q <;> decide
  have hq : q = .S_32 := nextState_rel (P := fun q q' => q' = .S_00 → q = .S_32) (by decide) hother
    Run Continue BEN op q h
  subst hq
  exact ⟨rfl, hdecode op h⟩

end Isdu

namespace System

variable {μ : Type*} {M : ExternalMemory μ}

/-- Two boards in the same machine state, flags and LEDs apart. -/
structure Agree (s t : System μ) : Prop where
  Reset_s : s.Reset_s = t.Reset_s
  Continue_s : s.Continue_s = t.Continue_s
  Run_s : s.Run_s = t.Run_s
  State : s.State = t.State
  MAR : s.MAR = t.MAR
  MDR : s.MDR = t.MDR
  IR : s.IR = t.IR
  PC : s.PC = t.PC
  reg_file : s.reg_file = t.reg_file
  hex_data : s.hex_data = t.hex_data
  mem : s.mem = t.mem
  Data_read_buffer : t.State.takes = true → s.Data_read_buffer = t.Data_read_buffer
  Data_write_buffer : t.State.writes = true → s.Data_write_buffer = t.Data_write_buffer
  BEN : t.State = .S_00 → s.BEN = t.BEN

/-- If the boards decode a branch now, they decide it alike. -/
def DecidesAlike (s t : System μ) : Prop :=
  t.State = .S_32 → Instr.opcode t.IR = SLC3_2.op_BR →
    Datapath.benOf t.IR s.CC = Datapath.benOf t.IR t.CC

section Step

variable {s t : System μ} {c c' : Cycle}

/-- What is on `Data` in a cycle whose read buffer somebody will look at. -/
theorem Agree.data (h : Agree s t) (hc : c.toInputs = c'.toInputs)
    (hr : t.State.reads = true) :
    s.data M c.toInputs c.x = t.data M c'.toInputs c'.x := by
  have hw : t.State.writes = false := by
    cases hs : t.State <;> simp [hs, State.reads, State.writes] at hr ⊢
  rw [data_eq, data_eq, h.State, hw, hr, memNow, memNow, h.mem, hc, Slc3.addr, Slc3.addr, h.MAR]
  rfl

theorem Agree.memNext (h : Agree s t) (hc : c.toInputs = c'.toInputs) :
    s.memNext M c.toInputs c.x = t.memNext M c'.toInputs c'.x := by
  have hnow : s.memNow M c.toInputs = t.memNow M c'.toInputs := by
    rw [memNow, memNow, h.mem, hc]
  rw [memNext_eq, memNext_eq, h.State, hnow, hc, Slc3.addr, Slc3.addr, h.MAR]
  cases hwr : t.State.writes with
  | false => rfl
  | true => rw [h.Data_write_buffer hwr]

theorem Agree.transfer (h : Agree s t) (S : BitVec 16) :
    (s.transfer S).State = (t.transfer S).State ∧ (s.transfer S).MAR = (t.transfer S).MAR
      ∧ (s.transfer S).MDR = (t.transfer S).MDR ∧ (s.transfer S).IR = (t.transfer S).IR
      ∧ (s.transfer S).PC = (t.transfer S).PC
      ∧ (s.transfer S).reg_file = (t.transfer S).reg_file
      ∧ (s.transfer S).hex_data = (t.transfer S).hex_data := by
  have hrun : s.runAh = t.runAh := congrArg not h.Run_s
  have hcont : s.continueAh = t.continueAh := congrArg not h.Continue_s
  have hState := h.State
  have hBEN := h.BEN
  have hbuf := h.Data_read_buffer
  cases hs : t.State
  all_goals
    rw [hs] at hState hBEN hbuf
    simp [Slc3.transfer, hState, hs, h.MAR, h.MDR, h.IR, h.PC, h.reg_file, h.hex_data, hrun,
      hcont, Slc3.readWord, Slc3.aluOut, Slc3.hexWrite]
  case S_33_3 => rw [hbuf rfl]
  case S_25_3 => rw [hbuf rfl]
  case S_00 => rw [hBEN rfl]

theorem Agree.transfer_BEN (h : Agree s t) (hd : DecidesAlike s t) (S : BitVec 16)
    (h00 : (t.transfer S).State = .S_00) : (s.transfer S).BEN = (t.transfer S).BEN := by
  rw [Slc3.transfer_State] at h00
  obtain ⟨h32, hop⟩ := Isdu.of_nextState_eq_S_00 _ _ _ _ _ h00
  simp [Slc3.transfer, h.State, h32, h.IR, hd h32 hop]

/-- What a cycle does to two boards: reset takes both or neither. -/
theorem Agree.step_cases (h : Agree s t) (c c' : Cycle) :
    ((s.step M c).toSlc3 = s.latch c.toInputs (s.data M c.toInputs c.x) s.clear
      ∧ (t.step M c').toSlc3 = t.latch c'.toInputs (t.data M c'.toInputs c'.x) t.clear)
    ∨ ((s.step M c).toSlc3 = s.latch c.toInputs (s.data M c.toInputs c.x) (s.transfer c.S)
      ∧ (t.step M c').toSlc3
        = t.latch c'.toInputs (t.data M c'.toInputs c'.x) (t.transfer c'.S)) := by
  cases hr : t.Reset_s with
  | false =>
      exact Or.inl ⟨s.step_toSlc3_clear M c (h.Reset_s.trans hr), t.step_toSlc3_clear M c' hr⟩
  | true => exact Or.inr ⟨s.step_toSlc3 M c (h.Reset_s.trans hr), t.step_toSlc3 M c' hr⟩

/-- **A cycle on two boards.** -/
theorem Agree.step (h : Agree s t) (hd : DecidesAlike s t) (hc : c.toInputs = c'.toInputs) :
    Agree (s.step M c) (t.step M c') := by
  have hmem := h.memNext (M := M) hc
  rcases h.step_cases (M := M) c c' with ⟨hs', ht'⟩ | ⟨hs', ht'⟩
  · constructor
    case mem => exact hmem
    all_goals simp [hs', ht', Slc3.latch, Slc3.clear, hc, State.takes, State.writes]
  · obtain ⟨hState, hMAR, hMDR, hIR, hPC, hR, hhex⟩ := h.transfer c'.S
    constructor
    case mem => exact hmem
    case Data_read_buffer =>
      intro htakes
      simp only [hs', ht', Slc3.latch] at htakes ⊢
      rw [Slc3.transfer_State] at htakes
      exact h.data hc (Isdu.takes_nextState _ _ _ _ _ htakes)
    case BEN =>
      intro h00
      simp only [hs', ht', Slc3.latch, hc] at h00 ⊢
      exact h.transfer_BEN hd c'.S h00
    all_goals simp [hs', ht', Slc3.latch, hc, hState, hMAR, hMDR, hIR, hPC, hR, hhex, h.MDR]

/-- Equal flags stay equal. -/
theorem Agree.step_CC (h : Agree s t) (hCC : s.CC = t.CC) :
    (s.step M c).CC = (t.step M c').CC := by
  have hout : s.aluOut = t.aluOut := by
    simp only [Slc3.aluOut, h.State, h.IR, h.reg_file]
  rcases h.step_cases (M := M) c c' with ⟨hs', ht'⟩ | ⟨hs', ht'⟩
  · simpa only [hs', ht', Slc3.latch, Slc3.clear] using hCC
  · simp only [hs', ht', Slc3.latch, Slc3.transfer_CC, h.State, hout, hCC]

theorem decidesAlike_of_CC (hCC : s.CC = t.CC) : DecidesAlike s t :=
  fun _ _ => by rw [hCC]

/-- The same machine state, flags and LEDs included. -/
structure Same (s t : System μ) : Prop where
  agree : Agree s t
  CC : s.CC = t.CC
  BEN : s.BEN = t.BEN
  LED : s.LED = t.LED

theorem Same.step (h : Same s t) (hc : c.toInputs = c'.toInputs) :
    Same (s.step M c) (t.step M c') := by
  have hagree := h.agree
  refine ⟨hagree.step (decidesAlike_of_CC h.CC) hc, hagree.step_CC h.CC, ?_, ?_⟩
  all_goals
    rcases hagree.step_cases (M := M) c c' with ⟨hs', ht'⟩ | ⟨hs', ht'⟩
    · simp [hs', ht', Slc3.latch, Slc3.clear, h.BEN, h.LED]
    · simp only [hs', ht', Slc3.latch]
      cases hs : t.State <;>
        simp [Slc3.transfer, hs, hagree.State, hagree.IR, h.CC, h.BEN, h.LED]

end Step

section Run

variable {s t : System μ} {cs cs' : ℕ → Cycle}

/-- **A run of two boards**, as long as they decide their branches alike. -/
theorem Agree.run (h : Agree s t) (hin : ∀ k, (cs k).toInputs = (cs' k).toInputs) (n : ℕ)
    (hd : ∀ k, k < n → DecidesAlike (s.run M cs k) (t.run M cs' k)) :
    Agree (s.run M cs n) (t.run M cs' n) :=
  run_rel (R := fun _ => Agree) n h fun k hk hagree => hagree.step (hd k hk) (hin k)

/-- With equal flags they do. -/
theorem Agree.run_of_CC (h : Agree s t) (hCC : s.CC = t.CC)
    (hin : ∀ k, (cs k).toInputs = (cs' k).toInputs) (n : ℕ) :
    Agree (s.run M cs n) (t.run M cs' n) := by
  have hboth : Agree (s.run M cs n) (t.run M cs' n) ∧ (s.run M cs n).CC = (t.run M cs' n).CC := by
    refine run_rel (R := fun _ (p q : System μ) => Agree p q ∧ p.CC = q.CC) n ⟨h, hCC⟩ ?_
    rintro k - ⟨hagree, hCCk⟩
    exact ⟨hagree.step (decidesAlike_of_CC hCCk) (hin k), hagree.step_CC hCCk⟩
  exact hboth.1

end Run

/-! ## Undriven wires -/

/-- The registers of the machine and its memory: all but the synchronizers
and the two bus buffers. -/
def visible (s : System μ) : State × BitVec 16 × BitVec 16 × BitVec 16 × BitVec 16 × RegFile
    × BitVec 3 × Bool × BitVec 12 × BitVec 16 × μ :=
  (s.State, s.PC, s.IR, s.MAR, s.MDR, s.reg_file, s.CC, s.BEN, s.LED, s.hex_data, s.mem)

theorem Same.visible {s t : System μ} (h : Same s t) : s.visible = t.visible := by
  simp only [System.visible, h.agree.State, h.agree.PC, h.agree.IR, h.agree.MAR, h.agree.MDR,
    h.agree.reg_file, h.CC, h.BEN, h.LED, h.agree.hex_data, h.agree.mem]

theorem same_of_halted {s t : System μ} (hs : s.State = .Halted)
    (hsync : s.Reset_s = t.Reset_s ∧ s.Continue_s = t.Continue_s ∧ s.Run_s = t.Run_s)
    (hvis : s.visible = t.visible) : Same s t := by
  simp only [System.visible, Prod.mk.injEq] at hvis
  obtain ⟨hState, hPC, hIR, hMAR, hMDR, hR, hCC, hBEN, hLED, hhex, hmem⟩ := hvis
  have ht : t.State = .Halted := hState.symm.trans hs
  have htakes : t.State.takes = false ∧ t.State.writes = false := by
    rw [ht]
    exact ⟨rfl, rfl⟩
  exact ⟨⟨hsync.1, hsync.2.1, hsync.2.2, hState, hMAR, hMDR, hIR, hPC, hR, hhex, hmem,
    fun h => absurd (htakes.1.symm.trans h) Bool.false_ne_true,
    fun h => absurd (htakes.2.symm.trans h) Bool.false_ne_true, fun _ => hBEN⟩, hCC, hBEN, hLED⟩

/-- **Undriven wires never reach the machine state.** The two runs have the
same pins and any two assignments of values to undriven wires; the bus
buffers may differ from the start. -/
theorem undriven_invisible {s t : System μ} {cs cs' : ℕ → Cycle}
    (hin : ∀ k, (cs k).toInputs = (cs' k).toInputs) (hs : s.State = .Halted)
    (hsync : s.Reset_s = t.Reset_s ∧ s.Continue_s = t.Continue_s ∧ s.Run_s = t.Run_s)
    (hvis : s.visible = t.visible) (n : ℕ) :
    (s.run M cs n).visible = (t.run M cs' n).visible := by
  have hsame : Same (s.run M cs n) (t.run M cs' n) :=
    run_rel (R := fun _ => Same) n (same_of_halted hs hsync hvis)
      fun k _ h => h.step (hin k)
  exact hsame.visible

/-- The shipped board with all undriven wires at 0, and with a different
value on each in every cycle. -/
theorem undriven_invisible_shipped :
    let s := cleared TestMemory.initial
    let cs : ℕ → Cycle := fun k =>
      { Cycle.start 1 k with x := ⟨BitVec.ofNat 16 k, 0xFFFF#16, 1⟩ }
    (s.run testMemory (Cycle.start 1) 100).visible = (s.run testMemory cs 100).visible := by
  intro s cs
  have hin : ∀ k, (Cycle.start 1 k).toInputs = (cs k).toInputs := fun _ => rfl
  have hs : s.State = .Halted := rfl
  exact undriven_invisible hin hs ⟨rfl, rfl, rfl⟩ rfl 100

end System

end Ece385
