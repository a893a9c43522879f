import Mathlib.Data.Int.Notation
import Mathlib.Data.Nat.Notation

/-!
# `SLC3_2`: constants and instruction encoders

The package `test_memory.sv` writes its program with. An immediate or an
offset is a signed integer of which the encoder keeps the low bits
(`imm5[4:0]` and its siblings).
-/

namespace Ece385

namespace SLC3_2

def op_ADD : BitVec 4 := 0b0001
def op_AND : BitVec 4 := 0b0101
def op_NOT : BitVec 4 := 0b1001
def op_BR : BitVec 4 := 0b0000
def op_JMP : BitVec 4 := 0b1100
def op_JSR : BitVec 4 := 0b0100
def op_LDR : BitVec 4 := 0b0110
def op_STR : BitVec 4 := 0b0111
def op_PSE : BitVec 4 := 0b1101

def R0 : BitVec 3 := 0b000
def R1 : BitVec 3 := 0b001
def R2 : BitVec 3 := 0b010
def R3 : BitVec 3 := 0b011
def R4 : BitVec 3 := 0b100
def R5 : BitVec 3 := 0b101
def R6 : BitVec 3 := 0b110
def R7 : BitVec 3 := 0b111

/-! Branch conditions, as masks of `n`, `z`, `p`. -/

def p : BitVec 3 := 0b001
def z : BitVec 3 := 0b010
def zp : BitVec 3 := 0b011
def n : BitVec 3 := 0b100
def np : BitVec 3 := 0b101
def nz : BitVec 3 := 0b110
def nzp : BitVec 3 := 0b111

def outHEX : ℤ := -1
def inSW : ℤ := -1

/-! `imm k i` is `i[k-1:0]`. -/

def imm (k : ℕ) (i : ℤ) : BitVec k := BitVec.ofInt k i

def opCLR (DR : BitVec 3) : BitVec 16 := op_AND ++ DR ++ DR ++ 1#1 ++ 0#5

def opAND (DR SR1 SR2 : BitVec 3) : BitVec 16 := op_AND ++ DR ++ SR1 ++ 0#3 ++ SR2

def opANDi (DR SR : BitVec 3) (imm5 : ℤ) : BitVec 16 := op_AND ++ DR ++ SR ++ 1#1 ++ imm 5 imm5

def opADD (DR SR1 SR2 : BitVec 3) : BitVec 16 := op_ADD ++ DR ++ SR1 ++ 0#3 ++ SR2

def opADDi (DR SR : BitVec 3) (imm5 : ℤ) : BitVec 16 := op_ADD ++ DR ++ SR ++ 1#1 ++ imm 5 imm5

def opINC (DR : BitVec 3) : BitVec 16 := op_ADD ++ DR ++ DR ++ 1#1 ++ imm 5 1

def opDEC (DR : BitVec 3) : BitVec 16 := op_ADD ++ DR ++ DR ++ 1#1 ++ imm 5 (-1)

/-- Bits 5 to 0 are `000001`, the zero-extended `5'b1`. -/
def opNOT (DR SR : BitVec 3) : BitVec 16 := op_NOT ++ DR ++ SR ++ 0b000001#6

def opBR (condition : BitVec 3) (PCoffset9 : ℤ) : BitVec 16 :=
  op_BR ++ condition ++ imm 9 PCoffset9

def opJMP (BaseR : BitVec 3) : BitVec 16 := op_JMP ++ 0#3 ++ BaseR ++ 0#6

def opRET : BitVec 16 := op_JMP ++ 0#3 ++ R7 ++ 0#6

def opJSR (PCoffset11 : ℤ) : BitVec 16 := op_JSR ++ 1#1 ++ imm 11 PCoffset11

def opLDR (DR BaseR : BitVec 3) (offset6 : ℤ) : BitVec 16 := op_LDR ++ DR ++ BaseR ++ imm 6 offset6

def opSTR (SR BaseR : BitVec 3) (offset6 : ℤ) : BitVec 16 := op_STR ++ SR ++ BaseR ++ imm 6 offset6

def opPSE (ledVect12 : BitVec 12) : BitVec 16 := op_PSE ++ ledVect12

end SLC3_2

end Ece385
