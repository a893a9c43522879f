import Ece385.Slc3.Top

/-!
# What one clock cycle does

The specification of a cycle, one line per control state: the register
transfers the comments of `ISDU.sv` name (`MAR <- PC`, `IR <- MDR`, ..).
`next_eq` says that outside reset a cycle of the netlist is `transfer`
together with `latch`, the part every state shares (synchronizers and the
two bus buffers), and `step_eq_transferStep` that the board is the machine of
these transfers. This is the only place where the control signals, the
multiplexers and the bus are unfolded; every later module works with
`transfer`.

Two facts about undriven wires are built in. No transfer mentions
`Undriven`, so `CPU_BUS` is read only in states that open exactly one gate;
and the memory bus (`data_eq`) is undriven except while the memory reads or
the processor writes.
-/

namespace Ece385

open Isdu (State)

namespace Isdu.State

/-- The states with `Mem_OE` low. -/
def reads : State → Bool
  | .S_33_1 | .S_33_2 | .S_33_3 | .S_25_1 | .S_25_2 | .S_25_3 => true
  | _ => false

/-- The states with `Mem_WE` low. -/
def writes : State → Bool
  | .S_16_1 | .S_16_2 | .S_16_3 => true
  | _ => false

end Isdu.State

/-! ## Fields of an instruction word -/

namespace Instr

variable (w : BitVec 16)

def opcode : BitVec 4 := w.extractLsb' 12 4

def dr : BitVec 3 := w.extractLsb' 9 3

def sr1 : BitVec 3 := w.extractLsb' 6 3

def sr2 : BitVec 3 := w.extractLsb' 0 3

def imm5 : BitVec 16 := (w.extractLsb' 0 5).signExtend 16

def off6 : BitVec 16 := (w.extractLsb' 0 6).signExtend 16

def off9 : BitVec 16 := (w.extractLsb' 0 9).signExtend 16

def off11 : BitVec 16 := (w.extractLsb' 0 11).signExtend 16

/-- The second operand of `ADD` and `AND`. -/
def operand2 (R : RegFile) : BitVec 16 := if w.getLsbD 5 then imm5 w else R (sr2 w)

end Instr

namespace Slc3

variable (s : Slc3)

/-- The word the datapath takes from the memory side in a reading state. -/
def readWord (S : BitVec 16) : BitVec 16 :=
  if s.MAR = 0xFFFF#16 then S else s.Data_read_buffer

/-- The ALU result of the three ALU states. -/
def aluOut : BitVec 16 :=
  match s.State with
  | .S_01 => s.reg_file (Instr.sr1 s.IR) + Instr.operand2 s.IR s.reg_file
  | .S_05 => s.reg_file (Instr.sr1 s.IR) &&& Instr.operand2 s.IR s.reg_file
  | _ => ~~~(s.reg_file (Instr.sr1 s.IR))

/-- The hex display in a writing state. -/
def hexWrite : BitVec 16 := if s.MAR = 0xFFFF#16 then s.MDR else s.hex_data

/-- The register transfers of a state, outside reset. -/
def transfer (S : BitVec 16) : Slc3 :=
  match s.State with
  | .Halted => { s with State := if s.runAh then .S_18 else .Halted }
  | .S_18 => { s with State := .S_33_1, MAR := s.PC, PC := s.PC + 1 }
  | .S_33_1 => { s with State := .S_33_2 }
  | .S_33_2 => { s with State := .S_33_3 }
  | .S_33_3 => { s with State := .S_35, MDR := s.readWord S }
  | .S_35 => { s with State := .S_32, IR := s.MDR }
  | .S_32 =>
      { s with State := Isdu.decode (Instr.opcode s.IR), BEN := Datapath.benOf s.IR s.CC }
  | .PauseIR1 =>
      { s with
        State := if !s.continueAh then .PauseIR1 else .PauseIR2
        LED := s.IR.extractLsb' 0 12 }
  | .PauseIR2 =>
      { s with
        State := if s.continueAh then .PauseIR2 else .S_18
        LED := s.IR.extractLsb' 0 12 }
  | .S_01 | .S_05 | .S_09 =>
      { s with
        State := .S_18
        reg_file := Function.update s.reg_file (Instr.dr s.IR) s.aluOut
        CC := Datapath.ccOf s.aluOut }
  | .S_06 =>
      { s with State := .S_25_1, MAR := s.reg_file (Instr.sr1 s.IR) + Instr.off6 s.IR }
  | .S_25_1 => { s with State := .S_25_2 }
  | .S_25_2 => { s with State := .S_25_3 }
  | .S_25_3 => { s with State := .S_27, MDR := s.readWord S }
  | .S_27 =>
      { s with
        State := .S_18
        reg_file := Function.update s.reg_file (Instr.dr s.IR) s.MDR }
  | .S_07 =>
      { s with State := .S_23, MAR := s.reg_file (Instr.sr1 s.IR) + Instr.off6 s.IR }
  | .S_23 => { s with State := .S_16_1, MDR := s.reg_file (Instr.dr s.IR) }
  | .S_16_1 => { s with State := .S_16_2, hex_data := s.hexWrite }
  | .S_16_2 => { s with State := .S_16_3, hex_data := s.hexWrite }
  | .S_16_3 => { s with State := .S_18, hex_data := s.hexWrite }
  | .S_04 => { s with State := .S_21, reg_file := Function.update s.reg_file 7 s.PC }
  | .S_21 => { s with State := .S_18, PC := s.PC + Instr.off11 s.IR }
  | .S_12 => { s with State := .S_18, PC := s.reg_file (Instr.sr1 s.IR) }
  | .S_00 => { s with State := if s.BEN then .S_22 else .S_18 }
  | .S_22 => { s with State := .S_18, PC := s.PC + Instr.off9 s.IR }
  | .P1A | .P1B | .P2A | .P2B | .P3A | .P3B => s

theorem transfer_State (S : BitVec 16) :
    (s.transfer S).State
      = Isdu.nextState s.runAh s.continueAh s.BEN (Instr.opcode s.IR) s.State := by
  cases hs : s.State <;> simp [transfer, Isdu.nextState, hs]

/-- Only the ALU states load the flags. -/
theorem transfer_CC (S : BitVec 16) :
    (s.transfer S).CC = if s.State.isAlu then Datapath.ccOf s.aluOut else s.CC := by
  cases hs : s.State <;> simp [transfer, State.isAlu, hs]

theorem transfer_reg_of_isAlu (h : s.State.isAlu = true) (S : BitVec 16) :
    (s.transfer S).reg_file (Instr.dr s.IR) = s.aluOut := by
  cases hs : s.State <;> simp [transfer, State.isAlu, hs] at h ⊢

/-- Only the writing states touch the display. -/
theorem transfer_hex (S : BitVec 16) :
    (s.transfer S).hex_data = if s.State.writes then s.hexWrite else s.hex_data := by
  cases hs : s.State <;> simp [transfer, State.writes, hs]

/-- What every edge does in every state: the synchronizers sample the
buttons, and the bus buffers sample `MDR` and `Data`. -/
def latch (i : Inputs) (Data : BitVec 16) (t : Slc3) : Slc3 :=
  { t with
    Data_write_buffer := s.MDR
    Data_read_buffer := Data
    Reset_s := i.Reset
    Continue_s := i.Continue
    Run_s := i.Run }

/-- What the reset clears: not `CC`, not `BEN`, not `LED`. -/
def clear : Slc3 :=
  { s with
    State := .Halted, MAR := 0, MDR := 0, IR := 0, PC := 0, hex_data := 0
    reg_file := fun _ => 0 }

/-- Who drives `CPU_BUS`, and with what: the four kinds of state that open a
gate. Every other state leaves the bus undriven. -/
def busValue : Option (BitVec 16) :=
  match s.State with
  | .S_18 | .S_04 => some s.PC
  | .S_35 | .S_27 => some s.MDR
  | .S_01 | .S_05 | .S_09 => some s.aluOut
  | .S_06 | .S_07 => some (s.reg_file (Instr.sr1 s.IR) + Instr.off6 s.IR)
  | .S_23 => some (s.reg_file (Instr.dr s.IR))
  | _ => none

theorem cpuBus_eq (x : Undriven) :
    s.toDatapath.cpuBus s.controls x = s.busValue.getD x.CPU_BUS := by
  cases hs : s.State <;>
    simp [busValue, aluOut, hs, controls, Isdu.controls, Datapath.cpuBus, Datapath.alu,
      Datapath.aluSum, Datapath.addrSum, Datapath.addr1, Datapath.addr2, Datapath.sr1,
      Datapath.sr1MuxOut, Datapath.sr2MuxOut, Datapath.sr2, carryLookaheadAdder_sum, Instr.dr,
      Instr.sr1, Instr.sr2, Instr.imm5, Instr.off6, Instr.operand2]

/-- The jump target, in the three states that load `PC` from the adder. -/
theorem addrSum_eq :
    (s.State = .S_21 → s.toDatapath.addrSum s.controls = s.PC + Instr.off11 s.IR)
    ∧ (s.State = .S_12 → s.toDatapath.addrSum s.controls = s.reg_file (Instr.sr1 s.IR))
    ∧ (s.State = .S_22 → s.toDatapath.addrSum s.controls = s.PC + Instr.off9 s.IR) := by
  refine ⟨fun hs => ?_, fun hs => ?_, fun hs => ?_⟩ <;>
    simp [hs, controls, Isdu.controls, Datapath.addrSum, Datapath.addr1, Datapath.addr2,
      Datapath.sr1, Datapath.sr1MuxOut, carryLookaheadAdder_sum, Instr.off11, Instr.off9,
      Instr.sr1]

theorem addr_eq_ffff : s.addr.extractLsb' 0 16 = 0xFFFF#16 ↔ s.MAR = 0xFFFF#16 := by
  rw [addr, BitVec.extractLsb'_append_eq_right]

theorem mdrIn_of_reads (h : s.State.reads = true) (S : BitVec 16) :
    s.mdrIn S = s.readWord S := by
  unfold mdrIn Mem2IO.dataToCpu readWord
  simp only [addr_eq_ffff]
  cases hs : s.State <;> simp_all [State.reads, controls, Isdu.controls]

theorem hexNext_eq (h : s.Reset_s = true) :
    Mem2IO.hexNext s.resetAh s.addr s.controls.Mem_WE s.MDR s.hex_data
      = if s.State.writes then s.hexWrite else s.hex_data := by
  unfold Mem2IO.hexNext hexWrite
  simp only [addr_eq_ffff, resetAh, h]
  cases hs : s.State <;> simp [State.writes, controls, Isdu.controls, hs]

/-- A cycle outside reset. With the values of the bus, the jump adder and the
memory side named, what is left in each state are its load enables. -/
theorem next_eq (h : s.Reset_s = true) (i : Inputs) (x : Undriven) (Data : BitVec 16) :
    s.next i x Data = s.latch i Data (s.transfer i.S) := by
  have hr : s.resetAh = false := by simp [resetAh, h]
  have hmdr := fun hs => s.mdrIn_of_reads hs i.S
  obtain ⟨h21, h12, h22⟩ := s.addrSum_eq
  unfold next latch transfer Datapath.next RegFile.next
  rw [s.hexNext_eq h]
  simp only [Datapath.marNext, Datapath.mdrNext, Datapath.irNext, Datapath.pcNext,
    Datapath.ccNext, Datapath.benNext, Datapath.ledNext, s.cpuBus_eq x, hr]
  generalize s.toDatapath.addrSum s.controls = target at h21 h12 h22 ⊢
  generalize s.mdrIn i.S = word at hmdr ⊢
  cases hs : s.State <;>
    simp_all [State.reads, State.writes, busValue, controls, Isdu.controls, Isdu.nextState,
      Datapath.dr, Instr.dr, Instr.opcode]

/-- A cycle under reset. -/
theorem next_eq_clear (h : s.Reset_s = false) (i : Inputs) (x : Undriven) (Data : BitVec 16) :
    s.next i x Data = s.latch i Data s.clear := by
  have hr : s.resetAh = true := by simp [resetAh, h]
  simp [next, latch, clear, Datapath.next, RegFile.next, Mem2IO.hexNext, hr]

end Slc3

/-! ## The board -/

namespace System

variable {μ : Type*} (M : ExternalMemory μ) (s : System μ)

/-- Who drives `Data`: the write buffer in a writing state, the memory in a
reading one, nobody otherwise. -/
theorem data_eq (i : Inputs) (x : Undriven) :
    s.data M i x
      = if s.State.writes then s.Data_write_buffer
        else if s.State.reads then M.rd (s.memNow M i) s.addr
        else x.Data := by
  unfold data memDrive Tristate.drive
  cases hs : s.State <;> simp [State.reads, State.writes, Slc3.controls, Isdu.controls, hs]

/-- The memory takes the write buffer in a writing state. -/
theorem memNext_eq (i : Inputs) (x : Undriven) :
    s.memNext M i x
      = if i.Reset then
          if s.State.writes then M.wr (s.memNow M i) s.addr s.Data_write_buffer else s.memNow M i
        else M.reset
          (if s.State.writes then M.wr (s.memNow M i) s.addr s.Data_write_buffer
            else s.memNow M i) := by
  unfold memNext
  rw [data_eq]
  cases hs : s.State <;> simp [State.writes, Slc3.controls, Isdu.controls, hs]

theorem step_State (c : Cycle) :
    (s.step M c).State = if s.resetAh then .Halted
      else Isdu.nextState s.runAh s.continueAh s.BEN (Instr.opcode s.IR) s.State := rfl

theorem step_toSlc3 (c : Cycle) (hr : s.Reset_s = true) :
    (s.step M c).toSlc3
      = s.latch c.toInputs (s.data M c.toInputs c.x) (s.transfer c.S) :=
  s.next_eq hr _ _ _

theorem step_toSlc3_clear (c : Cycle) (hr : s.Reset_s = false) :
    (s.step M c).toSlc3 = s.latch c.toInputs (s.data M c.toInputs c.x) s.clear :=
  s.next_eq_clear hr _ _ _

theorem run_toSlc3 (cs : ℕ → Cycle) (n : ℕ) (hr : (s.run M cs n).Reset_s = true) :
    (s.run M cs (n + 1)).toSlc3
      = (s.run M cs n).latch (cs n).toInputs ((s.run M cs n).data M (cs n).toInputs (cs n).x)
          ((s.run M cs n).transfer (cs n).S) :=
  step_toSlc3 M _ (cs n) hr

theorem step_CC (c : Cycle) (hr : s.Reset_s = true) :
    (s.step M c).CC = if s.State.isAlu then Datapath.ccOf s.aluOut else s.CC := by
  have h := congrArg (fun q : Slc3 => q.CC) (s.step_toSlc3 M c hr)
  exact h.trans (s.transfer_CC c.S)

/-- A cycle of the board as register transfers, without a wire in it. -/
def transferStep (c : Cycle) : System μ where
  toSlc3 := s.latch c.toInputs
    (if s.State.writes then s.Data_write_buffer
      else if s.State.reads then M.rd (s.memNow M c.toInputs) s.addr
      else c.x.Data)
    (if s.Reset_s then s.transfer c.S else s.clear)
  mem :=
    if c.Reset then
      if s.State.writes then M.wr (s.memNow M c.toInputs) s.addr s.Data_write_buffer
      else s.memNow M c.toInputs
    else M.reset
      (if s.State.writes then M.wr (s.memNow M c.toInputs) s.addr s.Data_write_buffer
        else s.memNow M c.toInputs)

/-- **The netlist is the register-transfer machine**, cycle for cycle and
under any inputs. -/
theorem step_eq_transferStep (c : Cycle) : s.step M c = s.transferStep M c := by
  unfold step transferStep
  rw [data_eq, memNext_eq]
  cases hr : s.Reset_s with
  | false => rw [s.next_eq_clear hr]; rfl
  | true => rw [s.next_eq hr]; rfl

/-- A run on concrete inputs is evaluated by its transfers. -/
theorem run_eq_transferStep (cs : ℕ → Cycle) (n : ℕ) :
    s.run M cs n = Clocked.run (fun c s => s.transferStep M c) s cs n := by
  have hstep : (fun (c : Cycle) (s : System μ) => s.step M c) = fun c s => s.transferStep M c := by
    funext c s
    exact s.step_eq_transferStep M c
  rw [run, hstep]

/-- A cycle of the board in which nobody presses reset. -/
theorem step_eq (c : Cycle) (hr : s.Reset_s = true) (hc : c.Reset = true) :
    s.step M c
      = { toSlc3 := s.latch c.toInputs
            (if s.State.writes then s.Data_write_buffer
              else if s.State.reads then M.rd s.mem s.addr
              else c.x.Data)
            (s.transfer c.S)
          mem := if s.State.writes then M.wr s.mem s.addr s.Data_write_buffer else s.mem } := by
  rw [step_eq_transferStep, transferStep, memNow, if_pos hr, if_pos hc, if_pos hc]

/-- Outside the writing states the memory and the display keep what they have. -/
theorem step_of_not_writes (c : Cycle) (hr : s.Reset_s = true) (hc : c.Reset = true)
    (hw : s.State.writes = false) :
    (s.step M c).mem = s.mem ∧ (s.step M c).hex_data = s.hex_data := by
  have hhex : (s.transfer c.S).hex_data = s.hex_data := by rw [s.transfer_hex, hw]; rfl
  rw [s.step_eq M c hr hc, hw]
  exact ⟨rfl, hhex⟩

end System

end Ece385
