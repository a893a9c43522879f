import Mathlib.Data.Nat.Notation

/-!
# `ISDU`: the control unit

The state register, the next-state function and the control signals of
`ISDU.sv`. `controls` starts every signal at its default (the field defaults
of `Controls`) and overrides it per state, which is how the source's second
`case` is written; the active-low memory lines `Mem_OE` and `Mem_WE` have
default 1.

`IR_11` is an input of the module that nothing reads: `JSR` and `JSRR` take
the same path. The states `P1A` .. `P3B` are declared and never entered; a
machine powered up in one of them, or in a code the enumeration does not
list, stays there with every control at its default until it is reset.
-/

namespace Ece385

namespace Isdu

inductive State where
  | Halted
  | P1A | P1B | P2A | P2B | P3A | P3B
  | PauseIR1 | PauseIR2
  | S_18
  | S_33_1 | S_33_2 | S_33_3
  | S_35
  | S_32
  | S_01 | S_05 | S_09
  | S_06 | S_25_1 | S_25_2 | S_25_3 | S_27
  | S_07 | S_23 | S_16_1 | S_16_2 | S_16_3
  | S_04 | S_21
  | S_12
  | S_00 | S_22
deriving DecidableEq, Repr

/-- Decode, state `S_32`: the first execution state of an opcode. Opcodes
outside the table go back to the fetch. -/
def decode (Opcode : BitVec 4) : State :=
  match Opcode with
  | 0b0001#4 => .S_01
  | 0b0101#4 => .S_05
  | 0b1001#4 => .S_09
  | 0b0000#4 => .S_00
  | 0b1100#4 => .S_12
  | 0b0100#4 => .S_04
  | 0b0110#4 => .S_06
  | 0b0111#4 => .S_07
  | 0b1101#4 => .PauseIR1
  | _ => .S_18

/-- `Next_state`. -/
def nextState (Run Continue BEN : Bool) (Opcode : BitVec 4) : State → State
  | .Halted => if Run then .S_18 else .Halted
  | .S_18 => .S_33_1
  | .S_33_1 => .S_33_2
  | .S_33_2 => .S_33_3
  | .S_33_3 => .S_35
  | .S_35 => .S_32
  | .PauseIR1 => if !Continue then .PauseIR1 else .PauseIR2
  | .PauseIR2 => if Continue then .PauseIR2 else .S_18
  | .S_32 => decode Opcode
  | .S_01 => .S_18
  | .S_05 => .S_18
  | .S_09 => .S_18
  | .S_06 => .S_25_1
  | .S_25_1 => .S_25_2
  | .S_25_2 => .S_25_3
  | .S_25_3 => .S_27
  | .S_27 => .S_18
  | .S_07 => .S_23
  | .S_23 => .S_16_1
  | .S_16_1 => .S_16_2
  | .S_16_2 => .S_16_3
  | .S_16_3 => .S_18
  | .S_04 => .S_21
  | .S_21 => .S_18
  | .S_12 => .S_18
  | .S_00 => if BEN then .S_22 else .S_18
  | .S_22 => .S_18
  | s => s

/-- The control signals, with their defaults. -/
structure Controls where
  LD_MAR : Bool := false
  LD_MDR : Bool := false
  LD_IR : Bool := false
  LD_BEN : Bool := false
  LD_CC : Bool := false
  LD_REG : Bool := false
  LD_PC : Bool := false
  LD_LED : Bool := false
  GatePC : Bool := false
  GateMDR : Bool := false
  GateALU : Bool := false
  GateMARMUX : Bool := false
  ALUK : BitVec 2 := 0b00
  PCMUX : BitVec 2 := 0b00
  DRMUX : Bool := false
  SR1MUX : Bool := false
  SR2MUX : Bool := false
  ADDR1MUX : Bool := false
  ADDR2MUX : BitVec 2 := 0b00
  Mem_OE : Bool := true
  Mem_WE : Bool := true
  Mem_CE : Bool := false
  Mem_UB : Bool := false
  Mem_LB : Bool := false
deriving DecidableEq, Repr

/-- The outputs of the control unit in a state. Only the second operand of
`ADD` and `AND` depends on anything else (`IR_5`). -/
def controls (IR_5 : Bool) : State → Controls
  | .S_18 => { GatePC := true, LD_MAR := true, PCMUX := 0b00, LD_PC := true }
  | .S_33_1 => { Mem_OE := false }
  | .S_33_2 => { Mem_OE := false }
  | .S_33_3 => { Mem_OE := false, LD_MDR := true }
  | .S_35 => { GateMDR := true, LD_IR := true }
  | .PauseIR1 => { LD_LED := true }
  | .PauseIR2 => { LD_LED := true }
  | .S_32 => { LD_BEN := true }
  | .S_01 =>
      { SR1MUX := true, SR2MUX := IR_5, DRMUX := true, LD_REG := true
        ALUK := 0b00, GateALU := true, LD_CC := true }
  | .S_05 =>
      { SR1MUX := true, SR2MUX := IR_5, DRMUX := true, LD_REG := true
        ALUK := 0b01, GateALU := true, LD_CC := true }
  | .S_09 =>
      { SR1MUX := true, DRMUX := true, LD_REG := true
        ALUK := 0b10, GateALU := true, LD_CC := true }
  | .S_06 =>
      { SR1MUX := true, ADDR1MUX := true, ADDR2MUX := 0b01
        GateMARMUX := true, LD_MAR := true }
  | .S_25_1 => { Mem_OE := false }
  | .S_25_2 => { Mem_OE := false }
  | .S_25_3 => { Mem_OE := false, LD_MDR := true }
  | .S_27 => { DRMUX := true, LD_REG := true, GateMDR := true }
  | .S_07 =>
      { SR1MUX := true, ADDR1MUX := true, ADDR2MUX := 0b01
        GateMARMUX := true, LD_MAR := true }
  | .S_23 =>
      { SR1MUX := false, ADDR1MUX := true, ADDR2MUX := 0b00
        GateMARMUX := true, LD_MDR := true }
  | .S_16_1 => { Mem_WE := false }
  | .S_16_2 => { Mem_WE := false }
  | .S_16_3 => { Mem_WE := false }
  | .S_04 => { GatePC := true, DRMUX := false, LD_REG := true }
  | .S_21 => { ADDR1MUX := false, ADDR2MUX := 0b11, LD_PC := true, PCMUX := 0b10 }
  | .S_12 =>
      { SR1MUX := true, ADDR1MUX := true, ADDR2MUX := 0b00, LD_PC := true, PCMUX := 0b10 }
  | .S_00 => {}
  | .S_22 => { ADDR1MUX := false, ADDR2MUX := 0b10, LD_PC := true, PCMUX := 0b10 }
  | _ => {}

/-- The two states of a `PAUSE`. -/
def State.isPause : State → Bool
  | .PauseIR1 => true
  | .PauseIR2 => true
  | _ => false

/-- The three states that put the ALU on the bus. -/
def State.isAlu : State → Bool
  | .S_01 => true
  | .S_05 => true
  | .S_09 => true
  | _ => false

/-- Only the decode looks at the opcode. -/
theorem nextState_congr (Run Continue BEN : Bool) (op op' : BitVec 4) {q : State}
    (hq : q ≠ .S_32) : nextState Run Continue BEN op q = nextState Run Continue BEN op' q := by
  cases q <;> first
    | rfl
    | exact absurd rfl hq

/-- What holds of every decode and of every other step holds of all steps. -/
theorem nextState_rel {P : State → State → Prop} (hdecode : ∀ op, P .S_32 (decode op))
    (hother : ∀ q Run Continue BEN, P q (nextState Run Continue BEN 0 q))
    (Run Continue BEN : Bool) (op : BitVec 4) (q : State) :
    P q (nextState Run Continue BEN op q) := by
  by_cases hq : q = .S_32
  · subst hq
    exact hdecode op
  · rw [nextState_congr _ _ _ op 0 hq]
    exact hother q Run Continue BEN

end Isdu

end Ece385
