import Ece385.Mult.Protocol

/-!
# The accumulator does not overflow

The adder in front of `{X, A}` has nine bits, one more than its operands need,
as long as `X` is the sign of `A`. An add state leaves nine bits in the pair
and breaks that; the shift state behind it brings it back. So the sign is there
in the add states and not elsewhere (`Signed`), and it does not have to be
carried along from the beginning of a multiplication: every way into an add
state shifts or clears the pair in the cycle before (`signed_next`), whatever
was interrupted and whatever the switches show.
-/

namespace Ece385

namespace BitMultiplier

/-- `{X, A}` as latched. -/
def xa (m : BitMultiplier) : BitVec 9 := BitVec.ofBool m.reg_X ++ m.A

/-- In an add state `X` is the sign of `A`. -/
def Signed (m : BitMultiplier) : Prop := m.curr_state.isAdd = true → m.reg_X = m.A.msb

/-- The states from a reset on. Behind the reset nothing is known but `A`; what
the other registers held and what the buttons and the switches do is open. -/
inductive Reachable : BitMultiplier → Prop
  | reset {m : BitMultiplier} (h : m.curr_state = .A) : Reachable m
  | next {m : BitMultiplier} (h : Reachable m) (i : Inputs) : Reachable (m.next i)

theorem nextState_isAdd : ∀ Run s, (nextState Run s).isAdd = true →
    s.isShift = true ∨ s = .A ∨ s = .T := by
  intro Run s
  cases s <;> cases Run <;> decide

theorem nextState_of_isAdd : ∀ Run s, s.isAdd = true → (nextState Run s).isShift = true := by
  intro Run s
  cases s <;> cases Run <;> decide

section Step

variable {m : BitMultiplier}

/-- In any run, once `Reset` has been seen. -/
theorem reachable_of_reset {ins : ℕ → Inputs} {r n : ℕ} (hr : (m.run ins r).Reset_SH = true)
    (hn : r < n) : (m.run ins n).Reachable := by
  induction n with
  | zero => exact absurd hn (Nat.not_lt_zero r)
  | succ n ih =>
      rcases Nat.lt_succ_iff_lt_or_eq.mp hn with hlt | rfl
      · exact (ih hlt).next (ins n)
      · exact .reset (next_reset _ (ins r) hr).1

theorem isAdd_of_add (h : m.ctl.Add = true) : m.curr_state.isAdd = true := by
  unfold ctl at h
  cases hs : m.curr_state <;> rw [hs] at h
  all_goals first
    | rfl
    | exact absurd h Bool.false_ne_true

theorem mBit_of_sub (h : m.ctl.Sub = true) : m.mBit = true := by
  unfold ctl at h
  cases hs : m.curr_state <;> rw [hs] at h
  case P => exact h
  all_goals exact absurd h Bool.false_ne_true

theorem signed_next (m : BitMultiplier) (i : Inputs) : (m.next i).Signed := by
  intro hadd
  have hr : m.Reset_SH = false := by
    refine Bool.eq_false_of_not_eq_true fun hr => ?_
    rw [(m.next_reset i hr).1] at hadd
    exact Bool.false_ne_true hadd
  rw [m.next_curr_state i hr] at hadd
  rcases nextState_isAdd _ _ hadd with hshift | hclear
  · obtain ⟨hX, hA, -⟩ := m.next_shift i hshift hr
    rw [hX, hA, BitVec.msb_append]
    exact (BitVec.msb_ofBool _).symm
  · have hclr : m.ctl.Clr_XA = true := by
      unfold ctl
      rcases hclear with h | h <;> rw [h] <;> rfl
    obtain ⟨hX, hA⟩ := m.next_cleared i hclr
    rw [hX, hA]
    rfl

theorem Reachable.signed (h : Reachable m) : m.Signed := by
  cases h with
  | reset hA =>
      intro hadd
      rw [hA] at hadd
      exact absurd hadd Bool.false_ne_true
  | next h i => exact signed_next _ i

theorem sign_append : ∀ v : BitVec 9, BitVec.ofBool v.msb ++ v.extractLsb' 0 8 = v := by
  decide +kernel

theorem next_xa (h : m.curr_state.isAdd = true) (i : Inputs) : (m.next i).xa = m.xaAdderOut := by
  obtain ⟨hX, hA⟩ := m.next_add_xa i h
  rw [xa, hX, hA, sign_append]

end Step

/-- An add cycle adds what the multiplier bit and `Sub` ask for, and no bit of
the sum is lost. -/
structure AddsExactly (m : BitMultiplier) : Prop where
  sign : m.xtoA = m.A.getLsbD 7
  nothing : m.mBit = false → ∀ i, (m.next i).xa.toInt = m.A.toInt
  plus : m.mBit = true → m.ctl.Sub = false →
    ∀ i, (m.next i).xa.toInt = m.A.toInt + m.S_S.toInt
  minus : m.ctl.Sub = true → ∀ i, (m.next i).xa.toInt = m.A.toInt - m.S_S.toInt
  shown : m.Reset_SH = false → ∀ i, (m.next i).xtoA = (m.next i).reg_X

/-- **The accumulator is exact** in every add cycle. -/
theorem accumulator_exact {m : BitMultiplier} (h : m.Reachable) (hadd : m.ctl.Add = true) :
    m.AddsExactly := by
  have hstate := isAdd_of_add hadd
  have hsign : m.xtoA = m.A.msb :=
    (m.xtoA_of_not_clr (m.ctl_of_isAdd hstate).1).trans (h.signed hstate)
  have hsum : ∀ i, (m.next i).xa.toInt = m.A.toInt + m.addend := by
    intro i
    rw [next_xa hstate, m.xaAdderOut_exact hsign]
  constructor
  case sign => exact hsign.trans (BitVec.msb_eq_getLsbD_last m.A)
  case nothing =>
    intro hbit i
    have hsub : m.ctl.Sub = false := by
      refine Bool.eq_false_of_not_eq_true fun hsub => ?_
      exact Bool.false_ne_true (hbit.symm.trans (mBit_of_sub hsub))
    rw [hsum, addend, hsub, hbit]
    exact Int.add_zero _
  case plus =>
    intro hbit hsub i
    rw [hsum, addend, hsub, hbit]
    rfl
  case minus =>
    intro hsub i
    rw [hsum, addend, hsub]
    rfl
  case shown =>
    intro hr i
    have hshift : (m.next i).curr_state.isShift = true := by
      rw [m.next_curr_state i hr]
      exact nextState_of_isAdd _ _ hstate
    exact xtoA_of_not_clr _ (by rw [ctl_of_isShift _ hshift])

/-- A reset, -128 loaded, and -128 on the switches: the last add state
subtracts what does not fit in eight bits. -/
theorem accumulator_exact_corner :
    let ins : ℕ → Inputs := fun k =>
      { Reset := true, Run := k != 1, ClearA_LoadB := k != 0, S := 0x80#8 }
    let m := ({ loaded 0 with Reset_SH := true } : BitMultiplier).run ins 17
    m.S_S.toInt = -128 ∧ (m.next (ins 17)).xa.toInt = m.A.toInt - m.S_S.toInt := by
  intro ins m
  have hreach : m.Reachable := reachable_of_reset (r := 0) rfl (by decide)
  have hsub : m.ctl.Sub = true := by
    simp only [m, ins]
    decide +kernel
  exact ⟨rfl, (accumulator_exact hreach rfl).minus hsub (ins 17)⟩

end BitMultiplier

end Ece385
