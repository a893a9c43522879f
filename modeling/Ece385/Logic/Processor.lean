import Mathlib.Data.Nat.Notation
import Ece385.Mult.BitMultiplier

/-!
# `Processor_8`

The bit-serial logic processor: the control unit `control_8`, the registers `A`
and `B` of `register_unit_8`, the one-bit ALU `compute` and the `router` that
feeds the registers from the other end. `reg_8` is the register of the
multiplier, the two files are the same. The buttons are active low outside;
`Reset_SH`, `LoadA_SH`, `LoadB_SH`, `Execute_SH`, `Din_S`, `F_S` and `R_S` are
the synchronized inputs.

The state register has 4 bits for 10 states. A machine powered up in an
unlisted code is not modelled: the first reset brings it to `A`. The LEDs and
the hex displays only show what is here.
-/

namespace Ece385

namespace Processor8

open BitMultiplier (reg8Next)

/-! ## `control_8` -/

inductive State where
  | A | B | C | D | E | F | G | H | I | J
deriving DecidableEq, Repr

/-- `next_state`. -/
def nextState (Execute : Bool) : State → State
  | .A => if Execute then .B else .A
  | .B => .C
  | .C => .D
  | .D => .E
  | .E => .F
  | .F => .G
  | .G => .H
  | .H => .I
  | .I => .J
  | .J => if !Execute then .A else .J

structure Controls where
  Shift_En : Bool
  Ld_A : Bool
  Ld_B : Bool
deriving DecidableEq, Repr

/-- The outputs of the control unit. Every state without a case of its own
shifts. -/
def controls (LoadA LoadB : Bool) : State → Controls
  | .A => { Ld_A := LoadA, Ld_B := LoadB, Shift_En := false }
  | .J => { Ld_A := false, Ld_B := false, Shift_En := false }
  | _ => { Ld_A := false, Ld_B := false, Shift_En := true }

/-! ## `compute` and `router` -/

/-- `F_A_B`, the output of the one-bit ALU. -/
def compute (F : BitVec 3) (A_In B_In : Bool) : Bool :=
  match F with
  | 0b000#3 => A_In && B_In
  | 0b001#3 => A_In || B_In
  | 0b010#3 => A_In ^^ B_In
  | 0b011#3 => true
  | 0b100#3 => !(A_In && B_In)
  | 0b101#3 => !(A_In || B_In)
  | 0b110#3 => !(A_In ^^ B_In)
  | _ => false

/-- `A_Out` and `B_Out`. -/
def router (R : BitVec 2) (A_In B_In F_A_B : Bool) : Bool × Bool :=
  match R with
  | 0b00#2 => (A_In, B_In)
  | 0b01#2 => (A_In, F_A_B)
  | 0b10#2 => (F_A_B, B_In)
  | _ => (B_In, A_In)

/-- The pins sampled in a cycle; the buttons are active low. -/
structure Inputs where
  Reset : Bool
  LoadA : Bool
  LoadB : Bool
  Execute : Bool
  Din : BitVec 8
  F : BitVec 3
  R : BitVec 2

end Processor8

open Processor8 in
/-- The registers of `Processor_8`. -/
structure Processor8 where
  curr_state : State
  A : BitVec 8
  B : BitVec 8
  Reset_SH : Bool
  LoadA_SH : Bool
  LoadB_SH : Bool
  Execute_SH : Bool
  Din_S : BitVec 8
  F_S : BitVec 3
  R_S : BitVec 2

namespace Processor8

open Clocked
open BitMultiplier (reg8Next)

variable (p : Processor8)

def ctl : Controls := controls p.LoadA_SH p.LoadB_SH p.curr_state

/-- `F_A_B`: the ALU sees the bits that leave the registers. -/
def fAB : Bool := compute p.F_S (p.A.getLsbD 0) (p.B.getLsbD 0)

def newA : Bool := (router p.R_S (p.A.getLsbD 0) (p.B.getLsbD 0) p.fAB).1

def newB : Bool := (router p.R_S (p.A.getLsbD 0) (p.B.getLsbD 0) p.fAB).2

/-- The clock edge. -/
def next (i : Inputs) : Processor8 where
  curr_state := if p.Reset_SH then .A else nextState p.Execute_SH p.curr_state
  A := reg8Next p.Reset_SH p.newA p.ctl.Ld_A p.ctl.Shift_En p.Din_S p.A
  B := reg8Next p.Reset_SH p.newB p.ctl.Ld_B p.ctl.Shift_En p.Din_S p.B
  Reset_SH := !i.Reset
  LoadA_SH := !i.LoadA
  LoadB_SH := !i.LoadB
  Execute_SH := !i.Execute
  Din_S := i.Din
  F_S := i.F
  R_S := i.R

/-- The machine after `n` cycles. -/
def run (ins : ℕ → Inputs) : ℕ → Processor8 := Clocked.run (fun i p => p.next i) p ins

theorem run_step (ins : ℕ → Inputs) (n : ℕ) : p.run ins (n + 1) = (p.run ins n).next (ins n) := rfl

/-- `Aval` and `Bval`. -/
def words : BitVec 8 × BitVec 8 := (p.A, p.B)

/-! ## One clock edge -/

section Step

variable (i : Inputs)

theorem next_curr_state (hr : p.Reset_SH = false) :
    (p.next i).curr_state = nextState p.Execute_SH p.curr_state := by
  rw [next, hr]
  rfl

theorem next_reset (hr : p.Reset_SH = true) :
    (p.next i).curr_state = .A ∧ (p.next i).words = (0, 0) := by
  simp [next, words, reg8Next, hr]

theorem next_shift (hs : p.ctl.Shift_En = true) (hr : p.Reset_SH = false) :
    (p.next i).A = BitVec.cons p.newA (p.A.extractLsb' 1 7)
      ∧ (p.next i).B = BitVec.cons p.newB (p.B.extractLsb' 1 7) := by
  have hld : p.ctl.Ld_A = false ∧ p.ctl.Ld_B = false := by
    unfold ctl at hs ⊢
    cases h : p.curr_state <;> rw [h] at hs <;> simp [controls] at hs ⊢
  simp only [next, reg8Next, hs, hr, hld]
  exact ⟨rfl, rfl⟩

theorem next_idle (hs : p.ctl.Shift_En = false) (hr : p.Reset_SH = false) :
    (p.next i).words = (if p.ctl.Ld_A then p.Din_S else p.A,
      if p.ctl.Ld_B then p.Din_S else p.B) := by
  simp [next, words, reg8Next, hs, hr]

end Step

end Processor8

end Ece385
