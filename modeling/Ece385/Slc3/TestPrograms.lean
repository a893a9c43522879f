import Ece385.Slc3.Confined

/-!
# Programs that work on the board

The XOR test, the self-modifying checkpoint test and the run once test branch
with `nzp` or jump through a register, so the flags of the netlist do them no
harm. Each of them is a loop of straight-line code; the loop lemmas say what one
pass does, from an invariant at its first word, and the theorems about the board
follow by induction on the pass, through `core_run`.
-/

namespace Ece385

open Clocked

namespace Core

open SLC3_2
open Isa (Resident)

/-- A sequence of cores, one instruction apart. -/
def Trace (t : ℕ → Core TestMemory.Words) (is : ℕ → Samples) : Prop :=
  ∀ n, t (n + 1) = (t n).next testMemory (is n)

theorem Trace.step {t : ℕ → Core TestMemory.Words} {is : ℕ → Samples} {n : ℕ}
    {a b : Core TestMemory.Words} (ht : Trace t is) (h : t n = a)
    (hnext : a.next testMemory (is n) = b) : t (n + 1) = b := by
  rw [ht, h, hnext]

/-- Instructions that only change registers, `CC` and the LEDs. -/
def plain (w : BitVec 16) : Bool :=
  match Isdu.decode (Instr.opcode w) with
  | .S_01 | .S_05 | .S_09 | .S_06 | .PauseIR1 => true
  | _ => false

theorem next_of_plain {a : Core TestMemory.Words} {i : Samples} (h : plain (a.fetch i) = true) :
    (a.next testMemory i).PC = a.PC + 1 ∧ (a.next testMemory i).mem = a.mem
      ∧ (a.next testMemory i).hex_data = a.hex_data := by
  rw [next_eq rfl]
  unfold plain at h
  unfold exec
  cases hd : Isdu.decode (Instr.opcode (a.fetch i)) <;> rw [hd] at h <;> simp at h
  all_goals exact ⟨rfl, rfl, rfl⟩

section Straight

variable {t : ℕ → Core TestMemory.Words} {is : ℕ → Samples} (ht : Trace t is)
include ht

/-- Straight-line code. -/
theorem straight {n p lo hi m : ℕ} (hm : Resident lo hi (t n).mem)
    (hPC : (t n).PC = BitVec.ofNat 16 p) (hlo : lo ≤ p) (hhi : p + m ≤ hi + 1) (hp : hi < 256)
    (hplain : ∀ k < m, plain (TestMemory.initial (BitVec.ofNat 8 (p + k))) = true) :
    ∀ k ≤ m, (t (n + k)).PC = BitVec.ofNat 16 (p + k) ∧ (t (n + k)).mem = (t n).mem
      ∧ (t (n + k)).hex_data = (t n).hex_data := by
  intro k
  induction k with
  | zero => exact fun _ => ⟨hPC, rfl, rfl⟩
  | succ k ih =>
      intro hk
      obtain ⟨hPCk, hmem, hhex⟩ := ih (by omega)
      have hw : (t (n + k)).fetch (is (n + k)) = TestMemory.initial (BitVec.ofNat 8 (p + k)) :=
        fetch_low (by rw [hmem]; exact hm) hPCk rfl (by omega) (by omega) (by omega)
      obtain ⟨hPC', hmem', hhex'⟩ := next_of_plain (a := t (n + k)) (i := is (n + k))
        (by rw [hw]; exact hplain k (by omega))
      rw [← ht, hPCk] at hPC'
      rw [← ht] at hmem' hhex'
      exact ⟨hPC'.trans (BitVec.ofNat_add (p + k) 1).symm, hmem'.trans hmem, hhex'.trans hhex⟩

end Straight

/-! ## The XOR test -/

section Xor

variable {t : ℕ → Core TestMemory.Words} {is : ℕ → Samples} (ht : Trace t is)
include ht

/-- Two values from the switches, and their conjunction in `d`: words 21 to 25, and
again 26 to 30. -/
theorem read_pair {n p : ℕ} {l₁ l₂ : BitVec 12} {d : BitVec 3}
    (hm : Resident p (p + 4) (t n).mem) (hPC : (t n).PC = BitVec.ofNat 16 p)
    (h0 : (t n).R R0 = 0) (hp : p + 4 < 256)
    (hw : TestMemory.initial (BitVec.ofNat 8 p) = opPSE l₁
      ∧ TestMemory.initial (BitVec.ofNat 8 (p + 1)) = opLDR R3 R0 inSW
      ∧ TestMemory.initial (BitVec.ofNat 8 (p + 2)) = opPSE l₂
      ∧ TestMemory.initial (BitVec.ofNat 8 (p + 3)) = opLDR R4 R0 inSW
      ∧ TestMemory.initial (BitVec.ofNat 8 (p + 4)) = opAND d R3 R4) :
    (t (n + 5)).R d = (is (n + 1)).load &&& (is (n + 3)).load
      ∧ ∀ r, r ≠ d → r ≠ R3 → r ≠ R4 → (t (n + 5)).R r = (t n).R r := by
  obtain ⟨w₀, w₁, w₂, w₃, w₄⟩ := hw
  let a₁ := (t n).paused l₁
  let a₂ := a₁.loaded R3 (is (n + 1)).load
  let a₃ := a₂.paused l₂
  let a₄ := a₃.loaded R4 (is (n + 3)).load
  let a₅ := a₄.put d (a₄.R R3 &&& a₄.R R4)
  have hsucc : ∀ k, BitVec.ofNat 16 k + 1 = BitVec.ofNat 16 (k + 1) := fun k =>
    (BitVec.ofNat_add k 1).symm
  have h₁ : a₁.PC = BitVec.ofNat 16 (p + 1) := by simp only [a₁, paused_PC, hPC, hsucc]
  have h₂ : a₂.PC = BitVec.ofNat 16 (p + 2) := by simp only [a₂, loaded_PC, h₁, hsucc]
  have h₃ : a₃.PC = BitVec.ofNat 16 (p + 3) := by simp only [a₃, paused_PC, h₂, hsucc]
  have h₄ : a₄.PC = BitVec.ofNat 16 (p + 4) := by simp only [a₄, loaded_PC, h₃, hsucc]
  have e₁ : t (n + 1) = a₁ :=
    ht.step rfl (next_opPSE (fetch_low hm hPC w₀ (by omega) (by omega) (by omega)))
  have e₂ : t (n + 2) = a₂ :=
    ht.step e₁ (next_inSW (fetch_low (a := a₁) hm h₁ w₁ (by omega) (by omega) (by omega)) h0)
  have e₃ : t (n + 3) = a₃ :=
    ht.step e₂ (next_opPSE (fetch_low (a := a₂) hm h₂ w₂ (by omega) (by omega) (by omega)))
  have e₄ : t (n + 4) = a₄ := by
    refine ht.step e₃ (next_inSW (fetch_low (a := a₃) hm h₃ w₃ (by omega) (by omega) (by omega)) ?_)
    simp +decide [a₃, a₂, a₁, h0]
  have e₅ : t (n + 5) = a₅ :=
    ht.step e₄ (next_opAND (fetch_low (a := a₄) hm h₄ w₄ (by omega) (by omega) (by omega)))
  refine ⟨?_, fun r hr hr3 hr4 => ?_⟩
  · rw [e₅]
    simp +decide [a₅, a₄, a₃, a₂]
  · rw [e₅]
    simp [a₅, a₄, a₃, a₂, a₁, hr, hr3, hr4]

/-- 31 to 38: with `NOT` and `AND` only. -/
theorem compute_xor {n : ℕ} (hm : Resident 20 41 (t n).mem) (hPC : (t n).PC = 31#16) :
    (t (n + 8)).R R3 = (t n).R R1 ^^^ (t n).R R2 ∧ (t (n + 8)).R R0 = (t n).R R0 := by
  have hline := straight ht hm hPC (m := 8) (by decide) (by decide) (by decide) (by decide)
  have hfetch : ∀ k < 8, (t (n + k)).fetch (is (n + k))
      = TestMemory.initial (BitVec.ofNat 8 (31 + k)) := by
    intro k hk
    obtain ⟨hPCk, hmem, -⟩ := hline k (Nat.le_of_lt hk)
    exact fetch_low (by rw [hmem]; exact hm) hPCk rfl (by omega) (by omega) (by omega)
  have e₁ : t (n + 1) = (t n).put R3 (~~~((t n).R R1)) :=
    ht.step rfl (next_opNOT (hfetch 0 (by decide)))
  have e₂ : t (n + 2) = (t (n + 1)).put R3 ((t (n + 1)).R R3 &&& (t (n + 1)).R R2) :=
    ht.step rfl (next_opAND (hfetch 1 (by decide)))
  have e₃ : t (n + 3) = (t (n + 2)).put R3 (~~~((t (n + 2)).R R3)) :=
    ht.step rfl (next_opNOT (hfetch 2 (by decide)))
  have e₄ : t (n + 4) = (t (n + 3)).put R4 (~~~((t (n + 3)).R R2)) :=
    ht.step rfl (next_opNOT (hfetch 3 (by decide)))
  have e₅ : t (n + 5) = (t (n + 4)).put R4 ((t (n + 4)).R R4 &&& (t (n + 4)).R R1) :=
    ht.step rfl (next_opAND (hfetch 4 (by decide)))
  have e₆ : t (n + 6) = (t (n + 5)).put R4 (~~~((t (n + 5)).R R4)) :=
    ht.step rfl (next_opNOT (hfetch 5 (by decide)))
  have e₇ : t (n + 7) = (t (n + 6)).put R3 ((t (n + 6)).R R3 &&& (t (n + 6)).R R4) :=
    ht.step rfl (next_opAND (hfetch 6 (by decide)))
  have e₈ : t (n + 8) = (t (n + 7)).put R3 (~~~((t (n + 7)).R R3)) :=
    ht.step rfl (next_opNOT (hfetch 7 (by decide)))
  have hxor : ∀ A B : BitVec 16, ~~~(~~~(~~~A &&& B) &&& ~~~(~~~B &&& A)) = A ^^^ B := by
    intro A B
    refine BitVec.eq_of_getLsbD_eq fun i hi => ?_
    simp only [BitVec.getLsbD_not, BitVec.getLsbD_and, BitVec.getLsbD_xor, hi, decide_true,
      Bool.true_and]
    cases A.getLsbD i <;> cases B.getLsbD i <;> rfl
  rw [← hxor]
  refine ⟨?_, ?_⟩
  · simp +decide [e₈, e₇, e₆, e₅, e₄, e₃, e₂, e₁]
  · simp +decide [e₈, e₇, e₆, e₅, e₄, e₃, e₂, e₁]

/-- At word 21. -/
structure XorReady (a : Core TestMemory.Words) : Prop where
  PC : a.PC = 21#16
  R0_zero : a.R R0 = 0
  resident : Resident 20 41 a.mem
  bit_n : a.CC.getLsbD 2 = true

/-- What the pass that begins in step `n` shows. -/
def xorResult (is : ℕ → Samples) (n : ℕ) : BitVec 16 :=
  ((is (n + 1)).load &&& (is (n + 3)).load) ^^^ ((is (n + 6)).load &&& (is (n + 8)).load)

theorem bit_n_trace {n : ℕ} (h : (t n).CC.getLsbD 2 = true) (k : ℕ) :
    (t (n + k)).CC.getLsbD 2 = true := by
  induction k with
  | zero => exact h
  | succ k ih =>
      rw [← Nat.add_assoc, ht]
      exact bit_n_next _ ih

theorem XorReady.computed {n : ℕ} (h : XorReady (t n)) :
    (t (n + 18)).R R3 = xorResult is n ∧ (t (n + 18)).R R0 = 0 := by
  obtain ⟨hPC, h0, hm, -⟩ := h
  have hline := straight ht hm hPC (m := 18) (by decide) (by decide) (by decide) (by decide)
  obtain ⟨hPC5, hmem5, -⟩ := hline 5 (by decide)
  obtain ⟨hPC10, hmem10, -⟩ := hline 10 (by decide)
  obtain ⟨hA, hkeep⟩ := read_pair ht (p := 21) (fun k hlo hhi => hm k (by omega) (by omega)) hPC h0
    (by decide) (d := R1) ⟨rfl, rfl, rfl, rfl, rfl⟩
  have h5 := hkeep R0 (by decide) (by decide) (by decide)
  obtain ⟨hB, hkeep'⟩ := read_pair ht (n := n + 5) (p := 26)
    (fun k hlo hhi => by rw [hmem5]; exact hm k (by omega) (by omega)) hPC5 (h5.trans h0)
    (by decide) (d := R2) ⟨rfl, rfl, rfl, rfl, rfl⟩
  obtain ⟨hR3, hR0⟩ := compute_xor ht (n := n + 10) (by rw [hmem10]; exact hm) hPC10
  refine ⟨?_, ?_⟩
  · rw [hR3, hB, hkeep' R1 (by decide) (by decide) (by decide), hA]
    rfl
  · rw [hR0, hkeep' R0 (by decide) (by decide) (by decide), h5, h0]

/-- One pass. -/
theorem XorReady.pass {n : ℕ} (h : XorReady (t n)) :
    XorReady (t (n + 21)) ∧ (t (n + 19)).PC = 40#16
      ∧ (∀ k ≤ 18, (t (n + k)).hex_data = (t n).hex_data)
      ∧ ∀ k, 19 ≤ k → k ≤ 21 → (t (n + k)).hex_data = xorResult is n := by
  obtain ⟨hR3, h0⟩ := h.computed ht
  obtain ⟨hPC, -, hm, hn⟩ := h
  have hline := straight ht hm hPC (m := 18) (by decide) (by decide) (by decide) (by decide)
  obtain ⟨hPC18, hmem18, -⟩ := hline 18 (Nat.le_refl 18)
  have hm18 : Resident 20 41 (t (n + 18)).mem := by
    rw [hmem18]
    exact hm
  let a := (t (n + 18)).stored 0xFFFF#16 ((t (n + 18)).R R3)
  obtain ⟨hmem, hhex⟩ := stored_hex (t (n + 18)) ((t (n + 18)).R R3)
  have hma : Resident 20 41 a.mem := by
    rw [hmem]
    exact hm18
  have ha : a.PC = 40#16 := by simp only [a, stored_PC, hPC18]; decide
  have hb : (a.paused 0x405).PC = 41#16 := by rw [paused_PC, ha]; decide
  have hnb : (a.paused 0x405).CC.getLsbD 2 = true := bit_n_trace ht hn 18
  have e₁ : t (n + 19) = a := ht.step rfl (next_outHEX (fetch_low hm18 hPC18 rfl) h0)
  have e₂ : t (n + 20) = a.paused 0x405 := ht.step e₁ (next_opPSE (fetch_low hma ha rfl))
  have e₃ : t (n + 21) = (a.paused 0x405).goto 21#16 :=
    ht.step e₂ (next_opBR_n (fetch_low (a := a.paused 0x405) hma hb rfl) (by decide) hnb
      (by rw [hb]; decide))
  refine ⟨?_, by rw [e₁]; exact ha, fun k hk => (hline k hk).2.2, fun k hlo hhi => ?_⟩
  · rw [e₃]
    exact ⟨rfl, h0, hma, hnb⟩
  · rw [← hR3]
    rcases (by omega : k = 19 ∨ k = 20 ∨ k = 21) with rfl | rfl | rfl
    · rw [e₁]; exact hhex
    · rw [e₂]; exact hhex
    · rw [e₃]; exact hhex

theorem XorReady.loop {n : ℕ} (h : XorReady (t n)) (i : ℕ) : XorReady (t (n + 21 * i)) := by
  induction i with
  | zero => exact h
  | succ i ih => exact (ih.pass ht).1

end Xor

/-! ## The run once test -/

section RunOnce

variable {t : ℕ → Core TestMemory.Words} {is : ℕ → Samples} (ht : Trace t is)
include ht

/-- At word 45, with the count in `R1` and the address of the loop in `R7`. -/
structure Counting (i : ℕ) (a : Core TestMemory.Words) : Prop where
  PC : a.PC = 45#16
  R0_zero : a.R R0 = 0
  R1_count : a.R R1 = BitVec.ofNat 16 i
  R7_loop : a.R R7 = 45#16
  resident : Resident 42 48 a.mem

/-- 42 to 44. -/
theorem counting_enter {n : ℕ} (hm : Resident 42 48 (t n).mem) (hPC : (t n).PC = 42#16) :
    Counting 0 (t (n + 3)) := by
  let a₁ := (t n).put R0 0
  let a₂ := a₁.put R1 0
  have h₁ : a₁.PC = 43#16 := by simp [a₁, hPC]
  have h₂ : a₂.PC = 44#16 := by simp [a₂, h₁]
  have e₁ : t (n + 1) = a₁ := ht.step rfl (next_opCLR (fetch_low hm hPC rfl))
  have e₂ : t (n + 2) = a₂ := ht.step e₁ (next_opCLR (fetch_low (a := a₁) hm h₁ rfl))
  have e₃ : t (n + 3) = a₂.call 45#16 :=
    ht.step e₂ (next_opJSR (fetch_low (a := a₂) hm h₂ rfl) (by rw [h₂]; decide))
  rw [e₃]
  refine ⟨rfl, ?_, ?_, ?_, hm⟩
  · simp +decide [a₂, a₁]
  · simp +decide [a₂]
  · rw [call_R, if_pos rfl, h₂]
    decide

/-- 45 to 48: show, pause, increment. -/
theorem Counting.pass {n i : ℕ} (h : Counting i (t n)) :
    Counting (i + 1) (t (n + 4)) ∧ (t (n + 1)).PC = 46#16
      ∧ (∀ k, 1 ≤ k → k ≤ 4 → (t (n + k)).hex_data = BitVec.ofNat 16 i)
      ∧ (t (n + 1)).mem = (t n).mem ∧ (t (n + 2)).mem = (t n).mem
      ∧ (t (n + 2)).PC = 47#16 ∧ (t (n + 3)).mem = (t n).mem ∧ (t (n + 3)).PC = 48#16 := by
  obtain ⟨hPC, h0, h1, h7, hm⟩ := h
  let a₁ := (t n).stored 0xFFFF#16 ((t n).R R1)
  let a₂ := a₁.paused 0x401
  let a₃ := a₂.put R1 (a₂.R R1 + 1)
  obtain ⟨hmem, hhex⟩ := stored_hex (t n) ((t n).R R1)
  have hma : Resident 42 48 a₁.mem := by
    rw [hmem]
    exact hm
  have h₁ : a₁.PC = 46#16 := by simp [a₁, hPC]
  have h₂ : a₂.PC = 47#16 := by simp [a₂, h₁]
  have h₃ : a₃.PC = 48#16 := by simp [a₃, h₂]
  have h7₃ : a₃.R R7 = 45#16 := by simp +decide [a₃, a₂, a₁, h7]
  have e₁ : t (n + 1) = a₁ := ht.step rfl (next_outHEX (fetch_low hm hPC rfl) h0)
  have e₂ : t (n + 2) = a₂ := ht.step e₁ (next_opPSE (fetch_low hma h₁ rfl))
  have e₃ : t (n + 3) = a₃ := ht.step e₂ (next_opINC (fetch_low (a := a₂) hma h₂ rfl))
  have e₄ : t (n + 4) = a₃.goto 45#16 := by
    rw [← h7₃]
    exact ht.step e₃ (next_opRET (fetch_low (a := a₃) hma h₃ rfl))
  refine ⟨?_, by rw [e₁]; exact h₁, fun k hlo hhi => ?_, by rw [e₁]; exact hmem,
    by rw [e₂]; exact hmem, by rw [e₂]; exact h₂, by rw [e₃]; exact hmem, by rw [e₃]; exact h₃⟩
  · rw [e₄]
    refine ⟨rfl, ?_, ?_, h7₃, hma⟩
    · simp +decide [a₃, a₂, a₁, h0]
    · rw [goto_R, put_R, if_pos rfl, paused_R, stored_R, h1]
      exact (BitVec.ofNat_add i 1).symm
  · rw [← h1]
    rcases (by omega : k = 1 ∨ k = 2 ∨ k = 3 ∨ k = 4) with rfl | rfl | rfl | rfl
    · rw [e₁]; exact hhex
    · rw [e₂]; exact hhex
    · rw [e₃]; exact hhex
    · rw [e₄]; exact hhex

theorem Counting.loop {n : ℕ} (h : Counting 0 (t n)) (i : ℕ) : Counting i (t (n + 4 * i)) := by
  induction i with
  | zero => exact h
  | succ i ih => exact (ih.pass ht).1

end RunOnce

/-! ## The checkpoint test -/

/-- The first 1022 numbers are below the opcode. -/
theorem checkpoint_word {i : ℕ} (hi : i < 1022) :
    BitVec.ofNat 16 (0xDC02 + i) = opPSE (BitVec.ofNat 12 (0xC02 + i)) := by
  have hop : op_PSE.toNat = 13 := rfl
  refine BitVec.eq_of_toNat_eq ?_
  simp only [opPSE, toNat_append_add, BitVec.toNat_ofNat, hop]
  omega

/-- The next 8192 run into it. -/
theorem checkpoint_decode {i : ℕ} (hlo : 1022 ≤ i) (hhi : i < 9214) :
    Isdu.decode (Instr.opcode (BitVec.ofNat 16 (0xDC02 + i))) = .S_18 := by
  have hop : (Instr.opcode (BitVec.ofNat 16 (0xDC02 + i))).toNat = 14
      ∨ (Instr.opcode (BitVec.ofNat 16 (0xDC02 + i))).toNat = 15 := by
    rw [Instr.opcode, BitVec.extractLsb'_toNat, BitVec.toNat_ofNat, Nat.shiftRight_eq_div_pow]
    omega
  have hnop : ∀ op : BitVec 4, op.toNat = 14 ∨ op.toNat = 15 → Isdu.decode op = .S_18 := by decide
  exact hnop _ hop

/-- What the LEDs show behind word 16. -/
def checkpointLED (i : ℕ) (LED : BitVec 12) : BitVec 12 :=
  if i < 1022 then BitVec.ofNat 12 (0xC02 + i) else LED

/-- At word 14. Word 16 is the checkpoint instruction, which the program rewrites. -/
structure Numbering (i : ℕ) (a : Core TestMemory.Words) : Prop where
  PC : a.PC = 14#16
  R0_zero : a.R R0 = 0
  R2_word : a.R R2 = BitVec.ofNat 16 (0xDC02 + i)
  R7_base : a.R R7 = 13#16
  before : Resident 11 15 a.mem
  checkpoint : a.mem 16#8 = BitVec.ofNat 16 (0xDC02 + i)
  behind : Resident 17 19 a.mem

theorem next_checkpoint {a : Core TestMemory.Words} {i : ℕ} (hi : i < 9214) (hPC : a.PC = 16#16)
    (hword : a.mem 16#8 = BitVec.ofNat 16 (0xDC02 + i)) (x : Samples) :
    a.next testMemory x = { a with PC := 17#16, LED := checkpointLED i a.LED } := by
  have hfetch : a.fetch x = BitVec.ofNat 16 (0xDC02 + i) := by
    refine (load_testMemory a.arch x.fetch a.PC).trans ?_
    rw [Isa.Arch.rd, hPC, if_neg (by decide), ← hword]
    rfl
  have hnext : a.PC + 1 = 17#16 := by
    rw [hPC]
    decide
  by_cases hlt : i < 1022
  · rw [next_opPSE (hfetch.trans (checkpoint_word hlt)), paused, hnext, checkpointLED, if_pos hlt]
  · rw [next_eq hfetch, exec, checkpoint_decode (Nat.le_of_not_lt hlt) hi, hnext, checkpointLED,
      if_neg hlt]

section Checkpoint

variable {t : ℕ → Core TestMemory.Words} {is : ℕ → Samples} (ht : Trace t is)
include ht

/-- 11 to 13: the link register gives the address the program changes. -/
theorem numbering_enter {n : ℕ} (hm : Resident 11 19 (t n).mem) (hPC : (t n).PC = 11#16)
    (h0 : (t n).R R0 = 0) : Numbering 0 (t (n + 3)) := by
  let a₁ := (t n).paused 0x801
  let a₂ := a₁.call 13#16
  let a₃ := a₂.loaded R2 0xDC02#16
  have h₁ : a₁.PC = 12#16 := by simp [a₁, hPC]
  have h₂ : a₂.PC = 13#16 := rfl
  have h7₂ : a₂.R R7 = 13#16 := by
    rw [call_R, if_pos rfl, h₁]
    decide
  have hword : a₂.mem 16#8 = 0xDC02#16 := hm 16 (by decide) (by decide)
  have e₁ : t (n + 1) = a₁ := ht.step rfl (next_opPSE (fetch_low hm hPC rfl))
  have e₂ : t (n + 2) = a₂ :=
    ht.step e₁ (next_opJSR (fetch_low (a := a₁) hm h₁ rfl) (by rw [h₁]; decide))
  have e₃ : t (n + 3) = a₃ := by
    refine ht.step e₂ ?_
    have haddr : a₂.R R7 + (imm 6 3).signExtend 16 = 16#16 := by
      rw [h7₂]
      decide
    rw [next_opLDR (fetch_low (a := a₂) hm h₂ rfl), haddr]
    refine congrArg (a₂.loaded R2) ((load_testMemory a₂.arch (is (n + 2)).load 16#16).trans ?_)
    rw [Isa.Arch.rd, if_neg (by decide)]
    exact hword
  rw [e₃]
  refine ⟨by simp [a₃, h₂], ?_, by simp [a₃], ?_, fun k hlo hhi => hm k hlo (by omega), hword,
    fun k hlo hhi => hm k (by omega) hhi⟩
  · simp +decide [a₃, a₂, a₁, h0]
  · simp +decide [a₃, h7₂]

/-- 14 to 19. -/
theorem Numbering.pass {n i : ℕ} (h : Numbering i (t n)) (hi : i < 9214) :
    Numbering (i + 1) (t (n + 6)) ∧ (t (n + 2)).PC = 16#16
      ∧ (t (n + 2)).mem 16#8 = BitVec.ofNat 16 (0xDC02 + i)
      ∧ (t (n + 2)).hex_data = (is n).load
      ∧ (t (n + 3)).LED = checkpointLED i (t n).LED
      ∧ (t (n + 6)).LED = checkpointLED i (t n).LED := by
  obtain ⟨hPC, h0, h2, h7, hbefore, hword, hbehind⟩ := h
  let a₁ := (t n).loaded R1 (is n).load
  let a₂ := a₁.stored 0xFFFF#16 (a₁.R R1)
  let a₃ : Core TestMemory.Words := { a₂ with PC := 17#16, LED := checkpointLED i a₂.LED }
  let a₄ := a₃.put R2 (a₃.R R2 + 1)
  let a₅ := a₄.stored 16#16 (a₄.R R2)
  obtain ⟨hmem₂, hhex₂⟩ := stored_hex a₁ (a₁.R R1)
  obtain ⟨hmem₅, hhex₅⟩ := stored_mem a₄ 16#16 (a₄.R R2) (by decide)
  have hmem : a₂.mem = (t n).mem := hmem₂
  have hbehind₃ : Resident 17 19 a₃.mem := by
    rw [show a₃.mem = a₂.mem from rfl, hmem]
    exact hbehind
  have hsmall : ∀ k, k < 256 → k ≠ 16 → BitVec.ofNat 8 k ≠ (16#16).extractLsb' 0 8 := by
    intro k hk hne heq
    have hnat := congrArg BitVec.toNat heq
    simp at hnat
    omega
  have hmem₅' : ∀ k, k < 256 → k ≠ 16 →
      a₅.mem (BitVec.ofNat 8 k) = (t n).mem (BitVec.ofNat 8 k) := by
    intro k hk hne
    rw [hmem₅, Function.update_of_ne (hsmall k hk hne)]
    exact congrFun hmem _
  have hbehind₅ : Resident 17 19 a₅.mem := fun k hlo hhi => by
    rw [hmem₅' k (by omega) (by omega), hbehind k hlo hhi]
  have h₁ : a₁.PC = 15#16 := by simp [a₁, hPC]
  have h₂ : a₂.PC = 16#16 := by simp [a₂, h₁]
  have h₃ : a₃.PC = 17#16 := rfl
  have h₄ : a₄.PC = 18#16 := by simp [a₄, h₃]
  have h₅ : a₅.PC = 19#16 := by simp [a₅, h₄]
  have hR₄ : a₄.R R2 = BitVec.ofNat 16 (0xDC02 + (i + 1)) := by
    rw [put_R, if_pos rfl, show a₃.R R2 = (t n).R R2 by simp +decide [a₃, a₂, a₁], h2]
    exact (BitVec.ofNat_add (0xDC02 + i) 1).symm
  have hkeep : ∀ r, r ≠ R1 → r ≠ R2 → a₅.R r = (t n).R r := fun r hr1 hr2 => by
    simp [a₅, a₄, a₃, a₂, a₁, hr1, hr2]
  have e₁ : t (n + 1) = a₁ := ht.step rfl (next_inSW (fetch_low hbefore hPC rfl) h0)
  have e₂ : t (n + 2) = a₂ := by
    refine ht.step e₁ (next_outHEX (fetch_low (a := a₁) hbefore h₁ rfl) ?_)
    simp +decide [a₁, h0]
  have e₃ : t (n + 3) = a₃ :=
    ht.step e₂ (next_checkpoint hi h₂ (by rw [hmem]; exact hword) _)
  have e₄ : t (n + 4) = a₄ := ht.step e₃ (next_opINC (fetch_low hbehind₃ h₃ rfl))
  have e₅ : t (n + 5) = a₅ := by
    refine ht.step e₄ ?_
    have haddr : a₄.R R7 + (imm 6 3).signExtend 16 = 16#16 := by
      rw [show a₄.R R7 = (t n).R R7 by simp +decide [a₄, a₃, a₂, a₁], h7]
      decide
    rw [next_opSTR (fetch_low (a := a₄) hbehind₃ h₄ rfl), haddr]
  have e₆ : t (n + 6) = a₅.goto 14#16 :=
    ht.step e₅ (next_opBR_n (fetch_low hbehind₅ h₅ rfl) (by decide) (ccOf_bit_n _)
      (by rw [h₅]; decide))
  have hLED : a₃.LED = checkpointLED i (t n).LED := rfl
  refine ⟨?_, by rw [e₂]; exact h₂, by rw [e₂, hmem]; exact hword, ?_, by rw [e₃, hLED],
    by rw [e₆]; exact hLED⟩
  · rw [e₆]
    refine ⟨rfl, ?_, ?_, ?_, fun k hlo hhi => ?_, ?_, hbehind₅⟩
    · rw [goto_R, hkeep R0 (by decide) (by decide), h0]
    · rw [goto_R, stored_R, hR₄]
    · rw [goto_R, hkeep R7 (by decide) (by decide), h7]
    · rw [goto_mem, hmem₅' k (by omega) (by omega), hbefore k hlo hhi]
    · rw [goto_mem, hmem₅, show (16#16).extractLsb' 0 8 = 16#8 from rfl, Function.update_self, hR₄]
  · rw [e₂]
    simp only [a₂, hhex₂]
    simp [a₁]

theorem Numbering.loop {n : ℕ} (h : Numbering 0 (t n)) {i : ℕ} (hi : i < 9215) :
    Numbering i (t (n + 6 * i)) := by
  induction i with
  | zero => exact h
  | succ i ih => exact ((ih (by omega)).pass ht (by omega)).1

end Checkpoint

end Core

namespace System

open Isa (Resident)
open Isdu (State)
open SLC3_2

variable {s : TopLevelForTestMemory} {cs : ℕ → Cycle} {T : ℕ → ℕ} {N : ℕ}

/-- The instructions of a run go on behind its last visit, with any switches. -/
theorem core_trace (a : Core TestMemory.Words) (is : ℕ → Samples) :
    Core.Trace (a.run testMemory is) is :=
  fun _ => rfl

/-- **The XOR test.** In pass `i` the switches are read at the visits 2, 4, 7 and 9
of the pass; from the store on, for the 21 visits up to the next store, the display
shows the exclusive or of the two conjunctions. -/
theorem xor_test (h : At18 s) (hr : s.Reset_s = true) (hcs : NoReset cs)
    (hT : Visits At18 (s.run testMemory cs) T N) (hPC : s.PC = 20#16)
    (hprog : Resident 20 41 s.mem) {i : ℕ} (hi : 21 * i + 20 ≤ N) :
    (s.run testMemory cs (T (21 * i + 20))).PC = 40#16
      ∧ ∀ k, 20 ≤ k → k ≤ 40 → 21 * i + k ≤ N → (s.run testMemory cs (T (21 * i + k))).hex_data
        = ((cs (T (21 * i + 2) + 9)).S &&& (cs (T (21 * i + 4) + 9)).S)
          ^^^ ((cs (T (21 * i + 7) + 9)).S &&& (cs (T (21 * i + 9) + 9)).S) := by
  let t := s.core.run testMemory (samples cs T)
  have hcore : ∀ n ≤ N, (s.run testMemory cs (T n)).core = t n := fun n => core_run h hr hcs hT
  have ht : Core.Trace t (samples cs T) := core_trace _ _
  have e₁ : t 1 = s.core.put R0 0 :=
    ht.step rfl (Core.next_opCLR (Core.fetch_low (a := s.core) hprog hPC rfl))
  have hready : Core.XorReady (t 1) := by
    rw [e₁]
    exact ⟨by simp [show s.core.PC = 20#16 from hPC], by simp, hprog, Core.ccOf_bit_n 0⟩
  obtain ⟨hnext, hout, -, hshow⟩ := (hready.loop ht i).pass ht
  obtain ⟨-, -, hkeep, -⟩ := hnext.pass ht
  have hindex : ∀ j, 1 + 21 * i + j = 21 * i + (j + 1) := by omega
  have hres : Core.xorResult (samples cs T) (1 + 21 * i)
      = ((cs (T (21 * i + 2) + 9)).S &&& (cs (T (21 * i + 4) + 9)).S)
        ^^^ ((cs (T (21 * i + 7) + 9)).S &&& (cs (T (21 * i + 9) + 9)).S) := by
    simp only [Core.xorResult, hindex]
    rfl
  refine ⟨(congrArg Core.PC (hcore _ hi)).trans (by rw [hindex] at hout; exact hout),
    fun k hlo hhi hk => (congrArg Core.hex_data (hcore _ hk)).trans ?_⟩
  rw [← hres]
  by_cases hk : k ≤ 22
  · have h := hshow (k - 1) (by omega) (by omega)
    rwa [hindex, Nat.sub_add_cancel (by omega)] at h
  · have h := (hkeep (k - 22) (by omega)).trans (hshow 21 (by omega) (Nat.le_refl 21))
    rwa [Nat.add_assoc, hindex, show 21 + (k - 22) + 1 = k by omega] at h

/-- The shipped words, with 3 on the switches until the second conjunction is read. -/
theorem xor_test_shipped :
    let s : TopLevelForTestMemory := { cleared TestMemory.initial with State := .S_18, PC := 20 }
    let cs : ℕ → Cycle := fun k => Cycle.blinking (if k < 46 then 3 else 0) k
    ∃ T, (∀ N, Visits At18 (s.run testMemory cs) T N)
      ∧ (s.run testMemory cs (T 20)).hex_data = 3 := by
  intro s cs
  have hcs : NoReset cs := fun _ => rfl
  obtain ⟨T, hT⟩ := exists_visits (M := testMemory) (show At18 s from rfl) rfl hcs
    (fun n => patient_blinking 3 n : Patient cs)
  have hlt := fun n => (hT (n + 1)).lt (Nat.lt_succ_self n)
  have hnext : ∀ {n a d : ℕ}, T n = a →
      NextVisit At18 (fun k => s.run testMemory cs (a + k)) d → T (n + 1) = a + d := by
    rintro n _ d rfl hd
    have heq := ((hT (n + 1)).succ n (Nat.lt_succ_self n)).unique hd
    have hn := hlt n
    omega
  have h1 : T 1 = 7 := hnext (d := 7) (hT 0).zero (by decide +kernel)
  have h2 : T 2 = 16 := hnext (d := 9) h1 (by decide +kernel)
  have h3 : T 3 = 27 := hnext (d := 11) h2 (by decide +kernel)
  have h4 : T 4 = 36 := hnext (d := 9) h3 (by decide +kernel)
  have h7 : 39 ≤ T 7 := by
    have h5 : T 4 < T 5 := hlt 4
    have h6 : T 5 < T 6 := hlt 5
    have h7 : T 6 < T 7 := hlt 6
    omega
  have h9 : 39 ≤ T 9 := by
    have h8 : T 7 < T 8 := hlt 7
    have h9 : T 8 < T 9 := hlt 8
    omega
  have hshow := (xor_test (i := 0) (show At18 s from rfl) rfl hcs (hT 20) rfl (fun _ _ _ => rfl)
    (by decide)).2 20 (by decide) (by decide) (by decide)
  refine ⟨T, hT, hshow.trans ?_⟩
  have hS : ∀ k, (cs k).S = if k < 46 then 3#16 else 0#16 := fun _ => rfl
  simp only [Nat.mul_zero, Nat.zero_add, hS, h2, h4]
  rw [if_neg (show ¬T 7 + 9 < 46 by omega), if_neg (show ¬T 9 + 9 < 46 by omega)]
  rfl

/-- **The checkpoint test** counts on the LEDs, by rewriting the pause at word 16,
and echoes the switches. From pass 1022 on the number has run into the opcode: the
word is no pause any more, and the LEDs stand still. -/
theorem checkpoint_test (h : At18 s) (hr : s.Reset_s = true) (hcs : NoReset cs)
    (hT : Visits At18 (s.run testMemory cs) T N) (hPC : s.PC = 11#16) (h0 : s.reg_file R0 = 0)
    (hprog : Resident 11 19 s.mem) {i : ℕ} (hi : i < 9214) (hN : 6 * i + 5 ≤ N) :
    (s.run testMemory cs (T (6 * i + 5))).PC = 16#16
      ∧ (s.run testMemory cs (T (6 * i + 5))).mem 16#8 = BitVec.ofNat 16 (0xDC02 + i)
      ∧ (Instr.opcode (BitVec.ofNat 16 (0xDC02 + i)) = op_PSE ↔ i < 1022)
      ∧ (s.run testMemory cs (T (6 * i + 5))).hex_data = (cs (T (6 * i + 3) + 9)).S
      ∧ (6 * i + 6 ≤ N →
        (s.run testMemory cs (T (6 * i + 6))).LED = BitVec.ofNat 12 (0xC02 + min i 1021)) := by
  let t := s.core.run testMemory (samples cs T)
  have hcore : ∀ n ≤ N, (s.run testMemory cs (T n)).core = t n := fun n => core_run h hr hcs hT
  have ht : Core.Trace t (samples cs T) := core_trace _ _
  have hloop : ∀ j < 9215, Core.Numbering j (t (0 + 3 + 6 * j)) := fun j hj =>
    (Core.numbering_enter ht (n := 0) hprog hPC h0).loop ht hj
  have hindex : ∀ j k, 0 + 3 + 6 * j + k = 6 * j + (3 + k) := by omega
  have hLED : ∀ j < 9214, (t (0 + 3 + 6 * j + 3)).LED = BitVec.ofNat 12 (0xC02 + min j 1021) := by
    intro j
    induction j with
    | zero => exact fun hj => ((hloop 0 (by omega)).pass ht hj).2.2.2.2.1
    | succ j ih =>
        intro hj
        obtain ⟨-, -, -, -, hled, hkeep⟩ := (hloop j (by omega)).pass ht (by omega)
        obtain ⟨-, -, -, -, hled', -⟩ := (hloop (j + 1) (by omega)).pass ht hj
        rw [hled', show 0 + 3 + 6 * (j + 1) = 0 + 3 + 6 * j + 6 by omega, hkeep, ← hled,
          ih (by omega), Core.checkpointLED]
        split
        · rw [Nat.min_eq_left (by omega)]
        · rw [Nat.min_eq_right (by omega), Nat.min_eq_right (by omega)]
  obtain ⟨-, hPC', hword, hhex, -, -⟩ := (hloop i (by omega)).pass ht hi
  have hled := hLED i hi
  rw [hindex] at hPC' hword hhex hled
  have hcore5 := hcore _ hN
  refine ⟨(congrArg Core.PC hcore5).trans hPC',
    (congrArg (fun a : Core TestMemory.Words => a.mem 16#8) hcore5).trans hword,
    ⟨fun hop => ?_, fun hlt => ?_⟩, (congrArg Core.hex_data hcore5).trans ?_,
    fun hN6 => (congrArg Core.LED (hcore _ hN6)).trans hled⟩
  · by_contra hge
    have hdec := Core.checkpoint_decode (Nat.le_of_not_lt hge) hi
    rw [hop] at hdec
    exact absurd hdec (by decide)
  · rw [Core.checkpoint_word hlt]
    exact BitVec.extractLsb'_append_eq_left
  · rw [show 0 + 3 + 6 * i = 6 * i + 3 by omega] at hhex
    exact hhex

/-- Pass 2000 of the shipped words. -/
theorem checkpoint_test_shipped :
    let s : TopLevelForTestMemory := { cleared TestMemory.initial with State := .S_18, PC := 11 }
    ∃ T, (∀ N, Visits At18 (s.run testMemory (Cycle.blinking 3)) T N)
      ∧ (s.run testMemory (Cycle.blinking 3) (T 12006)).LED = 0xFFF := by
  intro s
  have hcs : NoReset (Cycle.blinking 3) := fun _ => rfl
  obtain ⟨T, hT⟩ := exists_visits (M := testMemory) (show At18 s from rfl) rfl hcs
    (patient_blinking 3)
  have hshow := checkpoint_test (show At18 s from rfl) rfl hcs (hT 12006) rfl rfl
    (fun _ _ _ => rfl) (i := 2000) (by decide) (by decide)
  exact ⟨T, hT, hshow.2.2.2.2 (by decide)⟩

/-! ## Starting a program -/

variable {μ : Type*} {M : ExternalMemory μ} {p : System μ}

theorem core_of_halted {c : Cycle} (hp : p.State = .Halted) (hr : p.Reset_s = true)
    (hc : c.Reset = true) :
    (p.step M c).core = p.core
      ∧ ((p.step M c).State = .Halted ∨ At18 (p.step M c)) := by
  rw [step_eq M p c hr hc]
  cases p.runAh <;> simp [Slc3.latch, Slc3.transfer, State.writes, hp, core, At18]

/-- `Run` starts the machine as it is. -/
theorem started (hp : p.State = .Halted) (hr : p.Reset_s = true) (hcs : NoReset cs) {t₀ : ℕ}
    (ht₀ : NextVisit At18 (p.run M cs) t₀) :
    (p.run M cs t₀).core = p.core ∧ ∀ k < t₀, (p.run M cs k).State = .Halted := by
  have hwait : ∀ k ≤ t₀, (p.run M cs k).core = p.core
      ∧ (k < t₀ → (p.run M cs k).State = .Halted) := by
    intro k
    induction k with
    | zero => exact fun _ => ⟨rfl, fun _ => hp⟩
    | succ k ih =>
        intro hk
        obtain ⟨hcore, hhalt⟩ := ih (by omega)
        obtain ⟨hcore', hnext⟩ := core_of_halted (M := M) (hhalt hk)
          (run_Reset_s hr (hcs.before k)) (hcs k)
        exact ⟨hcore'.trans hcore, fun hlt => hnext.resolve_right (ht₀.2.2 _ (by omega) hlt)⟩
  exact ⟨(hwait t₀ (Nat.le_refl t₀)).1, fun k hk => (hwait k (by omega)).2 hk⟩

/-- The first three words jump to the program whose address is on the switches. -/
theorem selected (a : Core TestMemory.Words) (is : ℕ → Samples) (h₀ : a.PC = 0#16)
    (hprog : Resident 0 2 a.mem) :
    (∀ k ≤ 2, (a.run testMemory is k).PC = BitVec.ofNat 16 k ∧ (a.run testMemory is k).mem = a.mem)
    ∧ (a.run testMemory is 3).PC = (is 1).load ∧ (a.run testMemory is 3).mem = a.mem
    ∧ (a.run testMemory is 3).R R0 = 0 := by
  have ht : Core.Trace (a.run testMemory is) is := core_trace _ _
  let a₁ := a.put R0 0
  let a₂ := a₁.loaded R1 (is 1).load
  have h₁ : a₁.PC = 1#16 := by simp [a₁, h₀]
  have h₂ : a₂.PC = 2#16 := by simp [a₂, h₁]
  have e₁ : a.run testMemory is 1 = a₁ :=
    ht.step rfl (Core.next_opCLR (Core.fetch_low (a := a) hprog h₀ rfl))
  have e₂ : a.run testMemory is 2 = a₂ := by
    refine ht.step e₁ (Core.next_inSW (Core.fetch_low (a := a₁) hprog h₁ rfl) ?_)
    simp [a₁]
  have e₃ : a.run testMemory is 3 = a₂.goto (is 1).load := by
    refine (ht.step e₂ (Core.next_opJMP (x := R1) (Core.fetch_low (a := a₂) hprog h₂ rfl))).trans ?_
    simp [a₂]
  refine ⟨fun k hk => ?_, congrArg Core.PC e₃, by rw [e₃]; rfl, ?_⟩
  · rcases (by omega : k = 0 ∨ k = 1 ∨ k = 2) with rfl | rfl | rfl
    · exact ⟨h₀, rfl⟩
    · exact ⟨(congrArg Core.PC e₁).trans h₁, by rw [e₁]; rfl⟩
    · exact ⟨(congrArg Core.PC e₂).trans h₂, by rw [e₂]; rfl⟩
  · refine (congrArg (fun a : Core _ => a.R R0) e₃).trans ?_
    simp +decide [a₂, a₁]

/-! ## Counting pauses -/

section Count

variable (h : At18 s) (hr : s.Reset_s = true) (hcs : NoReset cs)
  (hT : Visits At18 (s.run testMemory cs) T N)
include h hr hcs hT

/-- A shipped word completes a pause if it is one. -/
theorem count_resident {n lo hi k : ℕ} (hn : n < N)
    (hm : Resident lo hi (s.core.run testMemory (samples cs T) n).mem)
    (hPC : (s.core.run testMemory (samples cs T) n).PC = BitVec.ofNat 16 k)
    (hlo : lo ≤ k := by decide) (hhi : k ≤ hi := by decide) (hk : k < 256 := by decide) :
    Nat.count (Completes (s.run testMemory cs)) (T (n + 1))
      = Nat.count (Completes (s.run testMemory cs)) (T n)
        + if Instr.opcode (TestMemory.initial (BitVec.ofNat 8 k)) = op_PSE then 1 else 0 := by
  have hcore := core_run h hr hcs hT (Nat.le_of_lt hn)
  rw [← hcore] at hm hPC
  have hword : word testMemory s cs T n = TestMemory.initial (BitVec.ofNat 8 k) :=
    Core.fetch_low (a := (s.run testMemory cs (T n)).core) (i := samples cs T n) hm hPC rfl hlo hhi
      hk
  rw [count_completes h hr hcs hT hn, hword]

theorem count_straight {n q lo hi : ℕ} (m : ℕ) (hn : n + m ≤ N)
    (hline : ∀ k < m, (s.core.run testMemory (samples cs T) (n + k)).PC = BitVec.ofNat 16 (q + k)
      ∧ Resident lo hi (s.core.run testMemory (samples cs T) (n + k)).mem)
    (hlo : lo ≤ q) (hhi : q + m ≤ hi + 1) (hlow : hi < 256)
    (hne : ∀ k < m, Instr.opcode (TestMemory.initial (BitVec.ofNat 8 (q + k))) ≠ op_PSE) :
    Nat.count (Completes (s.run testMemory cs)) (T (n + m))
      = Nat.count (Completes (s.run testMemory cs)) (T n) := by
  induction m with
  | zero => rfl
  | succ m ih =>
      obtain ⟨hPC, hm⟩ := hline m (Nat.lt_succ_self m)
      have hprev := ih (by omega) (fun k hk => hline k (by omega)) (by omega) fun k hk =>
        hne k (by omega)
      rw [← Nat.add_assoc, count_resident h hr hcs hT (by omega) hm hPC (by omega) (by omega)
        (by omega), if_neg (hne m (Nat.lt_succ_self m)), hprev, Nat.add_zero]

/-- The count in `R1` is the number of pauses behind it. -/
theorem count_passes {n : ℕ}
    (hstart : Core.Counting 0 (s.core.run testMemory (samples cs T) n)) {i : ℕ}
    (hn : n + 4 * i ≤ N) :
    Nat.count (Completes (s.run testMemory cs)) (T (n + 4 * i))
      = Nat.count (Completes (s.run testMemory cs)) (T n) + i := by
  have ht := core_trace s.core (samples cs T)
  induction i with
  | zero => rfl
  | succ i ih =>
      have hcount := hstart.loop ht i
      obtain ⟨-, hPC1, -, hm1, hm2, hPC2, hm3, hPC3⟩ := hcount.pass ht
      have hm := hcount.resident
      have c₀ := count_resident h hr hcs hT (n := n + 4 * i) (k := 45) (by omega) hm hcount.PC
      have c₁ := count_resident h hr hcs hT (n := n + 4 * i + 1) (k := 46) (by omega)
        (by rw [← hm1] at hm; exact hm) hPC1
      have c₂ := count_resident h hr hcs hT (n := n + 4 * i + 2) (k := 47) (by omega)
        (by rw [← hm2] at hm; exact hm) hPC2
      have c₃ := count_resident h hr hcs hT (n := n + 4 * i + 3) (k := 48) (by omega)
        (by rw [← hm3] at hm; exact hm) hPC3
      rw [if_neg (by decide)] at c₀ c₂ c₃
      rw [if_pos (by decide)] at c₁
      rw [show n + 4 * (i + 1) = n + 4 * i + 3 + 1 by omega, c₃, c₂, c₁, c₀, ih (by omega)]
      omega

end Count

/-- **The run once test**, started with `Run` and 42 on the switches. Each time it is
about to pause, the display is the number of pauses it has completed, as far as 16 bits
hold it; for each of them `Continue` has been let go at least once. -/
theorem run_once {p : TopLevelForTestMemory} (hp : p.State = .Halted) (hr : p.Reset_s = true)
    (hcs : NoReset cs) (hPC : p.PC = 0#16) (hprog : Resident 0 48 p.mem) {t₀ : ℕ}
    (ht₀ : NextVisit At18 (p.run testMemory cs) t₀)
    (hT : Visits At18 ((p.run testMemory cs t₀).run testMemory (later t₀ cs)) T N)
    (hsw : (cs (t₀ + (T 1 + 9))).S = 42#16) {i : ℕ} (hi : 4 * i + 7 ≤ N) :
    let n := t₀ + T (4 * i + 7)
    (p.run testMemory cs n).PC = 46#16
      ∧ (p.run testMemory cs n).hex_data = BitVec.ofNat 16 i
      ∧ Nat.count (Completes (p.run testMemory cs)) n = i
      ∧ i ≤ Nat.count (Releases (p.run testMemory cs)) n := by
  intro n
  let s := p.run testMemory cs t₀
  let t := s.core.run testMemory (samples (later t₀ cs) T)
  obtain ⟨hstarted, hhalt⟩ := started hp hr hcs ht₀
  have h : At18 s := ht₀.2.1
  have hrs : s.Reset_s = true := run_Reset_s hr (hcs.before t₀)
  have hcs' : NoReset (later t₀ cs) := hcs.later t₀
  have ht : Core.Trace t (samples (later t₀ cs) T) := core_trace _ _
  have hres : Resident 0 48 s.mem := by
    rw [show s.mem = p.mem from congrArg Core.mem hstarted]
    exact hprog
  obtain ⟨hentry, hPC3, hmem3, -⟩ := selected s.core (samples (later t₀ cs) T)
    ((congrArg Core.PC hstarted).trans hPC) fun k _ hhi => hres k (by omega) (by omega)
  -- 42 to 44, then the loop.
  have hm3 : Resident 42 48 (t 3).mem := fun k hlo hhi => by
    rw [show (t 3).mem = s.mem from hmem3, hres k (by omega) hhi]
  have hP3 : (t 3).PC = 42#16 := hPC3.trans hsw
  have hstart : Core.Counting 0 (t 6) := Core.counting_enter ht hm3 hP3
  have hcount := hstart.loop ht i
  obtain ⟨-, hPC', hhex, -⟩ := hcount.pass ht
  have hshow := hhex 1 (by decide) (by decide)
  have hindex : 6 + 4 * i + 1 = 4 * i + 7 := by omega
  -- Nothing pauses before the loop.
  have hline := Core.straight ht (n := 3) (m := 2) hm3 hP3 (by decide) (by decide) (by decide)
    (by decide)
  have c₀ : Nat.count (Completes (s.run testMemory (later t₀ cs))) (T 6) = 0 := by
    have hlow := count_straight h hrs hcs' hT (n := 0) (q := 0) 3 (by omega) (fun k hk => by
      obtain ⟨hPCk, hmk⟩ := hentry k (by omega)
      rw [Nat.zero_add]
      exact ⟨hPCk, by rw [hmk]; exact hres⟩) (by decide) (by decide) (by decide) (by decide)
    have hhigh := count_straight h hrs hcs' hT (n := 3) (q := 42) 3 (by omega) (fun k hk => by
      obtain ⟨hPCk, hmk, -⟩ := hline k (by omega)
      exact ⟨hPCk, by rw [show (s.core.run _ _ _).mem = (t 3).mem from hmk]; exact hm3⟩)
      (by decide) (by decide) (by decide) (by decide)
    rw [hhigh, hlow, hT.zero, Nat.count_zero]
  have c₁ := count_passes h hrs hcs' hT hstart (i := i) (by omega)
  have c₂ := count_resident h hrs hcs' hT (n := 6 + 4 * i) (by omega) hcount.resident hcount.PC
  rw [c₁, c₀, if_neg (by decide), hindex] at c₂
  rw [hindex] at hPC' hshow
  have hwait : Nat.count (Completes (p.run testMemory cs)) t₀ = 0 :=
    Nat.count_iff_forall_not.mpr fun k hk hcomp =>
      absurd ((hhalt k hk).symm.trans hcomp.1) (by decide)
  have hn : Nat.count (Completes (p.run testMemory cs)) n = i := by
    rw [Nat.count_add, hwait, Nat.zero_add]
    simp only [Completes, Nat.add_assoc, run_later]
    exact c₂.trans (by omega)
  have hpress := pauses_le_presses (M := testMemory) hp hr hcs n
  rw [hn] at hpress
  have hcore := core_run h hrs hcs' hT hi
  refine ⟨?_, ?_, hn, hpress⟩
  · rw [run_later]
    exact (congrArg Core.PC hcore).trans hPC'
  · rw [run_later]
    exact (congrArg Core.hex_data hcore).trans hshow

/-- The shipped words, after 1000 pauses. -/
theorem run_once_shipped :
    let p : TopLevelForTestMemory := cleared TestMemory.initial
    let cs : ℕ → Cycle := fun k => { Cycle.blinking 42 k with Run := k != 0 }
    ∃ n, (p.run testMemory cs n).hex_data = 1000
      ∧ 1000 ≤ Nat.count (Releases (p.run testMemory cs)) n := by
  intro p cs
  have hcs : NoReset cs := fun _ => rfl
  have ht₀ : NextVisit At18 (p.run testMemory cs) 2 := by
    refine ⟨by decide, rfl, fun m hlo hhi => ?_⟩
    obtain rfl : m = 1 := by omega
    exact fun h => absurd (show Isdu.State.Halted = .S_18 from h) (by decide)
  have hpatient : Patient (later 2 cs) :=
    Patient.later (fun n => patient_blinking 42 n : Patient cs) 2
  obtain ⟨T, hT⟩ := exists_visits (M := testMemory) ht₀.2.1
    (run_Reset_s (show p.Reset_s = true from rfl) (hcs.before 2)) (hcs.later 2) hpatient
  have hshow := run_once (show p.State = .Halted from rfl) rfl hcs rfl (fun _ _ _ => rfl) ht₀
    (hT 4007) rfl (i := 1000) (by decide)
  exact ⟨_, hshow.2.1, hshow.2.2.2⟩

end System

end Ece385
