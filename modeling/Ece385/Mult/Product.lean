import Ece385.Arith.ShiftAdd
import Ece385.Mult.BitMultiplier

/-!
# One multiplication

From `B` to `R` the control unit alternates eight add states with eight shift
states. An add state adds to `{X, A}` what the present bit of `B` selects, and
the shift state after it moves the triple right by one. Two cycles together
are one step of `ShiftAdd`: `Adding` is its partial product, read off the
registers, and `adding_pair` the step. The nine bits of `{X, A}` are what keeps
the addition exact: the sum of two 8-bit numbers, and the negative of -128,
fit (`xaAdderOut_exact`).
-/

namespace Ece385

namespace BitMultiplier

open Clocked ShiftAdd

/-- The add state of the `k`-th bit; after the last comes `R`. -/
def addState : ℕ → State
  | 0 => .B
  | 1 => .D
  | 2 => .F
  | 3 => .H
  | 4 => .J
  | 5 => .L
  | 6 => .N
  | 7 => .P
  | _ => .R

def State.isAdd : State → Bool
  | .B | .D | .F | .H | .J | .L | .N | .P => true
  | _ => false

def State.isShift : State → Bool
  | .C | .E | .G | .I | .K | .M | .O | .Q => true
  | _ => false

/-- Behind the multiplication. -/
def State.waiting : State → Bool
  | .R | .S => true
  | _ => false

theorem addState_isAdd : ∀ k, k < 8 → (addState k).isAdd = true
    ∧ (addState k = .P ↔ k = 7)
    ∧ (∀ Run, (nextState Run (addState k)).isShift = true)
    ∧ ∀ Run Run', nextState Run' (nextState Run (addState k)) = addState (k + 1) := by
  decide

variable (m : BitMultiplier) (i : Inputs)

/-! ## The kinds of cycle -/

theorem ctl_of_isAdd (h : m.curr_state.isAdd = true) : m.ctl.Clr_XA = false
    ∧ m.ctl.Ld_B = false ∧ m.ctl.Shift_En = false ∧ m.ctl.Add = true := by
  unfold ctl
  cases hs : m.curr_state <;> rw [hs] at h <;> simp [State.isAdd] at h
  all_goals exact ⟨rfl, rfl, rfl, rfl⟩

theorem ctl_of_isShift (h : m.curr_state.isShift = true) : m.ctl = { Shift_En := true } := by
  unfold ctl
  cases hs : m.curr_state <;> rw [hs] at h <;> simp [State.isShift] at h
  all_goals rfl

theorem ctl_waiting (h : m.curr_state.waiting = true) : m.ctl = {} := by
  unfold ctl
  cases hs : m.curr_state <;> rw [hs] at h <;> simp [State.waiting] at h
  all_goals rfl

theorem xtoA_of_not_clr (h : m.ctl.Clr_XA = false) : m.xtoA = m.reg_X := by
  rw [xtoA, h]
  rfl

/-- The system reset does not reach `X` and `A`. -/
theorem next_add_xa (h : m.curr_state.isAdd = true) :
    (m.next i).reg_X = m.xaAdderOut.msb ∧ (m.next i).A = m.xaAdderOut.extractLsb' 0 8 := by
  obtain ⟨hclr, -, hen, hadd⟩ := m.ctl_of_isAdd h
  simp [next, xIn, dregNext, reg8Next, hclr, hen, hadd, BitVec.msb_eq_getLsbD_last]

theorem next_add (h : m.curr_state.isAdd = true) (hr : m.Reset_SH = false) :
    (m.next i).reg_X = m.xaAdderOut.msb ∧ (m.next i).A = m.xaAdderOut.extractLsb' 0 8
      ∧ (m.next i).B = m.B := by
  obtain ⟨-, hld, hen, -⟩ := m.ctl_of_isAdd h
  obtain ⟨hX, hA⟩ := m.next_add_xa i h
  exact ⟨hX, hA, by simp [next, reg8Next, hr, hld, hen]⟩

theorem next_shift (h : m.curr_state.isShift = true) (hr : m.Reset_SH = false) :
    (m.next i).reg_X = m.reg_X
      ∧ (m.next i).A = BitVec.ofBool m.reg_X ++ m.A.extractLsb' 1 7
      ∧ (m.next i).B = BitVec.ofBool (m.A.getLsbD 0) ++ m.B.extractLsb' 1 7 := by
  simp [next, xtoA, m.ctl_of_isShift h, dregNext, reg8Next, hr]

theorem next_cleared (h : m.ctl.Clr_XA = true) : (m.next i).reg_X = false ∧ (m.next i).A = 0 := by
  constructor <;> simp [next, dregNext, reg8Next, h]

theorem next_waiting (h : m.curr_state.waiting = true) (hr : m.Reset_SH = false) :
    (m.next i).reg_X = m.reg_X ∧ (m.next i).A = m.A ∧ (m.next i).B = m.B := by
  simp [next, m.ctl_waiting h, dregNext, reg8Next, hr]

/-! ## The adder -/

theorem sExt_toInt : m.sExt.toInt = m.S_S.toInt := by
  have h : ∀ s : BitVec 8, (if s[7] then 1#1 ++ s else 0#1 ++ s : BitVec 9).toInt = s.toInt := by
    decide +kernel
  exact h m.S_S

theorem sExtNeg_toInt : m.sExtNeg.toInt = -m.S_S.toInt := by
  have h : ∀ s : BitVec 8,
      (((if s[7] then 1#1 ++ s else 0#1 ++ s) ^^^ 0b111111111#9) + 1#9).toInt = -s.toInt := by
    decide +kernel
  rw [sExtNeg, rippleAdder_sum]
  exact h m.S_S

/-- What the adder adds to `{X, A}`, as a number. -/
def addend : ℤ := if m.ctl.Sub then -m.S_S.toInt else if m.mBit then m.S_S.toInt else 0

theorem adderIn_toInt : m.adderIn.toInt = m.addend := by
  unfold adderIn addend
  cases m.ctl.Sub
  · cases m.mBit
    · rfl
    · exact m.sExt_toInt
  · exact m.sExtNeg_toInt

/-- The negative of -128 is the greatest. -/
theorem addend_bounds : -128 ≤ m.addend ∧ m.addend ≤ 128 := by
  have hS : -128 ≤ m.S_S.toInt ∧ m.S_S.toInt < 128 := ⟨m.S_S.le_toInt, m.S_S.toInt_lt⟩
  unfold addend
  split
  · omega
  · split <;> omega

/-- With `X` the sign of `A` the sum is exact: two 8-bit numbers, or a
difference, fit in nine bits. -/
theorem xaAdderOut_exact (hx : m.xtoA = m.A.msb) :
    m.xaAdderOut.toInt = m.A.toInt + m.addend := by
  have hA : -128 ≤ m.A.toInt ∧ m.A.toInt < 128 := ⟨m.A.le_toInt, m.A.toInt_lt⟩
  have hd := m.addend_bounds
  rw [xaAdderOut, rippleAdder_sum, BitVec.toInt_add, m.adderIn_toInt, hx, toInt_sign_append,
    Int.add_comm]
  exact Int.bmod_eq_of_le (by omega) (by omega)

/-- What an add state adds. -/
def summand (k : ℕ) (M_bit : Bool) (S_S : BitVec 8) : ℤ :=
  if M_bit then (if k = 7 then -S_S.toInt else S_S.toInt) else 0

theorem addend_eq_summand {k : ℕ} (hk : k < 8) (h : m.curr_state = addState k) :
    m.addend = summand k m.mBit m.S_S := by
  obtain ⟨hadd, hP, -, -⟩ := addState_isAdd k hk
  have hsub : m.ctl.Sub = (m.mBit && decide (k = 7)) := by
    rw [ctl, h]
    by_cases h7 : k = 7
    · rw [hP.mpr h7, controls, decide_eq_true h7, Bool.and_true]
    · rw [decide_eq_false h7, Bool.and_false]
      have hne : addState k ≠ .P := fun hp => h7 (hP.mp hp)
      cases hs : addState k <;> rw [hs] at hadd hne <;> simp [State.isAdd] at hadd hne
      all_goals rfl
  unfold addend summand
  rw [hsub]
  cases m.mBit
  · simp
  · by_cases h7 : k = 7 <;> simp [h7]

theorem xaAdderOut_toInt {k : ℕ} (hk : k < 8) (h : m.curr_state = addState k)
    (hx : m.reg_X = m.A.msb) :
    m.xaAdderOut.toInt = m.A.toInt + summand k m.mBit m.S_S := by
  have hadd : m.curr_state.isAdd = true := by
    rw [h]
    exact (addState_isAdd k hk).1
  have hsign : m.xtoA = m.A.msb := (m.xtoA_of_not_clr (m.ctl_of_isAdd hadd).1).trans hx
  rw [m.xaAdderOut_exact hsign, m.addend_eq_summand hk h]

/-! ## The loop -/

/-- The machine is about to use bit `k` of the multiplier `b`, and the bits
below `k` have contributed `P`. -/
structure Adding (b : BitVec 8) (k : ℕ) (P : ℤ) (m : BitMultiplier) : Prop where
  state : m.curr_state = addState k
  sign : m.reg_X = m.A.msb
  pair : Partial 8 k b.toNat P m.A.toInt m.B.toNat

/-- Shifting `{X, A}` right: nine bits become eight, and the bit that falls
out. -/
theorem shift_xa : ∀ v : BitVec 9,
    let a : BitVec 8 := BitVec.ofBool v.msb ++ (v.extractLsb' 0 8).extractLsb' 1 7
    v.msb = a.msb
      ∧ (2 : ℤ) * a.toInt + (((v.extractLsb' 0 8).getLsbD 0).toNat : ℤ) = v.toInt := by
  decide +kernel

theorem shift_b (e : Bool) : ∀ b : BitVec 8,
    (BitVec.ofBool e ++ b.extractLsb' 1 7 : BitVec 8).toNat
      = e.toNat * 2 ^ (8 - 1) + b.toNat / 2 := by
  cases e <;> decide +kernel

/-- An add state and the shift state after it. -/
theorem adding_pair {m : BitMultiplier} {b : BitVec 8} {k : ℕ} {P : ℤ} (h : Adding b k P m)
    (hk : k < 8) (i j : Inputs) (hr : m.Reset_SH = false) (hr' : (m.next i).Reset_SH = false) :
    Adding b (k + 1) (P + 2 ^ k * summand k (b.toNat.testBit k) m.S_S) ((m.next i).next j) := by
  obtain ⟨hadd, -, hshift, hnext⟩ := addState_isAdd k hk
  have hstate : (m.next i).curr_state = nextState m.Run_SH (addState k) := by
    rw [next, hr, h.state]
    rfl
  have hstate' : ((m.next i).next j).curr_state = addState (k + 1) := by
    rw [next, hr', hstate]
    exact hnext _ _
  obtain ⟨hX, hA, hB⟩ := m.next_add i (by rw [h.state]; exact hadd) hr
  obtain ⟨hX', hA', hB'⟩ := (m.next i).next_shift j (by rw [hstate]; exact hshift _) hr'
  obtain ⟨hsign, hdouble⟩ := shift_xa m.xaAdderOut
  have hbit : m.mBit = b.toNat.testBit k := by
    rw [← h.pair.bit hk]
    rfl
  have hsum := m.xaAdderOut_toInt hk h.state h.sign
  rw [hX, hA] at hA'
  rw [hX] at hX'
  rw [hA, hB] at hB'
  refine ⟨hstate', ?_, ?_⟩
  · rw [hX', hA']
    exact hsign
  · rw [hA', hB']
    refine h.pair.step hk ?_ (shift_b _ m.B)
    rw [hdouble, hsum, hbit]

/-- The loop, from `B` on. -/
theorem adding_run {m : BitMultiplier} {ins : ℕ → Inputs} {b : BitVec 8} (h : Adding b 0 0 m)
    {k : ℕ} (hk : k ≤ 8) (hr : ∀ j, j < 16 → (m.run ins j).Reset_SH = false) :
    Adding b k (∑ i ∈ Finset.range k, 2 ^ i * summand i (b.toNat.testBit i) (m.run ins (2 * i)).S_S)
      (m.run ins (2 * k)) := by
  induction k with
  | zero => exact h
  | succ k ih =>
      rw [Finset.sum_range_succ]
      exact adding_pair (ih (by omega)) (by omega) (ins (2 * k)) (ins (2 * k + 1))
        (hr _ (by omega)) (hr (2 * k + 1) (by omega))

/-- Both ways into the loop clear `{X, A}`. -/
theorem adding_zero {m : BitMultiplier} {i : Inputs}
    (hstart : m.curr_state = .A ∨ m.curr_state = .T) (hB : (m.next i).curr_state = .B) :
    Adding (m.next i).B 0 0 (m.next i) := by
  have hclr : m.ctl.Clr_XA = true := by
    unfold ctl
    rcases hstart with h | h <;> rw [h] <;> rfl
  obtain ⟨hX, hA⟩ := m.next_cleared i hclr
  refine ⟨hB, ?_, ?_⟩
  · rw [hX, hA]
    rfl
  · rw [hA]
    exact Partial.init (m.next i).B.isLt

/-- The summands, seven of them added and the last one subtracted. -/
theorem sum_summand (b : BitVec 8) (s : ℕ → BitVec 8) :
    ∑ i ∈ Finset.range 8, 2 ^ i * summand i (b.toNat.testBit i) (s i)
      = ∑ i ∈ Finset.range 7, 2 ^ i * (if b.toNat.testBit i then (s i).toInt else 0)
        - 2 ^ 7 * (if b.toNat.testBit 7 then (s 7).toInt else 0) := by
  have hlow : ∀ i ∈ Finset.range 7, 2 ^ i * summand i (b.toNat.testBit i) (s i)
      = 2 ^ i * (if b.toNat.testBit i then (s i).toInt else 0) := by
    intro i hi
    have h7 : i ≠ 7 := Nat.ne_of_lt (Finset.mem_range.mp hi)
    simp [summand, h7]
  have hhigh : summand 7 (b.toNat.testBit 7) (s 7)
      = -(if b.toNat.testBit 7 then (s 7).toInt else 0) := by
    unfold summand
    split <;> simp
  rw [Finset.sum_range_succ, Finset.sum_congr rfl hlow, hhigh, mul_neg, ← sub_eq_add_neg]

/-- With the same switches throughout, the sum is a product. -/
theorem sum_summand_const (b S : BitVec 8) :
    ∑ i ∈ Finset.range 7, 2 ^ i * (if b.toNat.testBit i then S.toInt else 0)
        - 2 ^ 7 * (if b.toNat.testBit 7 then S.toInt else 0) = S.toInt * b.toInt := by
  have hterm : ∀ i, (2 : ℤ) ^ i * (if b.toNat.testBit i then S.toInt else 0)
      = S.toInt * (2 ^ i * ((b.toNat.testBit i).toNat : ℤ)) := by
    intro i
    cases b.toNat.testBit i
    · simp
    · simp [mul_comm]
  rw [toInt_eq_sum_testBit b, mul_sub, Finset.mul_sum, hterm,
    Finset.sum_congr rfl fun i _ => hterm i]

/-- From `A` or `T` into `B` and on to `R`. -/
theorem adding_eight {m : BitMultiplier} {ins : ℕ → Inputs}
    (hstart : m.curr_state = .A ∨ m.curr_state = .T) (hB : (m.run ins 1).curr_state = .B)
    (hr : ∀ k, 1 ≤ k → k < 17 → (m.run ins k).Reset_SH = false) :
    Adding (m.run ins 1).B 8
      (∑ i ∈ Finset.range 8,
        2 ^ i * summand i ((m.run ins 1).B.toNat.testBit i) (m.run ins (1 + 2 * i)).S_S)
      (m.run ins 17) := by
  have hrun : ∀ k, (m.run ins 1).run (later 1 ins) k = m.run ins (1 + k) := fun k =>
    (m.run_later ins 1 k).symm
  have h0 : Adding (m.run ins 1).B 0 0 (m.run ins 1) := adding_zero hstart hB
  have hr' : ∀ j, j < 16 → ((m.run ins 1).run (later 1 ins) j).Reset_SH = false := by
    intro j hj
    rw [hrun]
    exact hr (1 + j) (by omega) (by omega)
  have h := adding_run h0 (Nat.le_refl 8) hr'
  simp only [hrun] at h
  exact h

theorem Adding.ab_toInt {m : BitMultiplier} {b : BitVec 8} {P : ℤ} (h : Adding b 8 P m) :
    m.ab.toInt = P := by
  rw [← h.pair.done, ab, BitVec.toInt_append, mul_comm]
  rfl

theorem product_held {m : BitMultiplier} {ins : ℕ → Inputs} {S : BitVec 8}
    (hstart : m.curr_state = .A ∨ m.curr_state = .T) (hB : (m.run ins 1).curr_state = .B)
    (hr : ∀ k, 1 ≤ k → k < 17 → (m.run ins k).Reset_SH = false)
    (hS : ∀ i, i < 8 → (m.run ins (1 + 2 * i)).S_S = S) :
    (m.run ins 17).ab.toInt = S.toInt * (m.run ins 1).B.toInt := by
  rw [(adding_eight hstart hB hr).ab_toInt, ← sum_summand_const, ← sum_summand _ fun _ => S]
  refine Finset.sum_congr rfl fun i hi => ?_
  rw [hS i (Finset.mem_range.mp hi)]

/-- **The multiplier computes the signed product.** On entering `R` the pair
is the sum of the switch values of the eight add states, weighted with the
bits of the multiplier `b`; with the switches held, it is the product. -/
theorem product_of_run {m : BitMultiplier} {ins : ℕ → Inputs}
    (hstart : m.curr_state = .A ∨ m.curr_state = .T) (hB : (m.run ins 1).curr_state = .B)
    (hr : ∀ k, 1 ≤ k → k < 17 → (m.run ins k).Reset_SH = false) :
    let b := (m.run ins 1).B
    let s := fun i => (m.run ins (1 + 2 * i)).S_S
    let e := m.run ins 17
    e.curr_state = .R
      ∧ e.ab.toInt = ∑ i ∈ Finset.range 7, 2 ^ i * (if b.toNat.testBit i then (s i).toInt else 0)
        - 2 ^ 7 * (if b.toNat.testBit 7 then (s 7).toInt else 0)
      ∧ e.xtoA = e.A.getLsbD 7
      ∧ ∀ S, (∀ i, i < 8 → s i = S) → e.ab.toInt = S.toInt * b.toInt := by
  intro b s e
  have hadding := adding_eight hstart hB hr
  have hx : e.xtoA = e.A.getLsbD 7 := by
    rw [xtoA, ctl, hadding.state]
    exact hadding.sign.trans (BitVec.msb_eq_getLsbD_last e.A)
  exact ⟨hadding.state, hadding.ab_toInt.trans (sum_summand b s), hx,
    fun S hS => product_held hstart hB hr hS⟩

/-- `-128 * -128`. -/
theorem product_of_run_corner :
    let m := { loaded 0x80#8 with Run_SH := true }
    (m.run (fun _ => Inputs.idle 0x80#8) 17).ab.toInt = 16384 := by
  intro m
  have hr : ∀ k, 1 ≤ k → k < 17 → (m.run (fun _ => Inputs.idle 0x80#8) k).Reset_SH = false := by
    intro k hk _
    obtain ⟨j, rfl⟩ : ∃ j, k = j + 1 := ⟨k - 1, by omega⟩
    rfl
  obtain ⟨-, -, -, hprod⟩ := product_of_run (m := m) (Or.inl rfl) rfl hr
  refine (hprod 0x80#8 fun i hi => ?_).trans (by decide)
  show (m.run _ (1 + 2 * i)).S_S = _
  rw [Nat.add_comm]
  rfl

end BitMultiplier

end Ece385
