import Ece385.Slc3.Isa

/-!
# Condition codes and branches

The branch masks of `SLC3_2` name three flags, and `nzp` is what they are
documented to be: negative, zero, positive, one of them set. `brTaken` is the
decision the comment of `opBR` writes out. The netlist has two slips here and
one omission:

- `CC_next` is `{1'b1, z, p}`: the `n` flag is the constant 1, which agrees
  with `nzp` on negative values only (`ccOf_eq_nzp`).
- `BEN_next` compares each mask bit with its flag instead of masking it, so a
  branch is taken unless its mask is the exact complement of the flags
  (`benOf_eq_brTaken` says when that is the documented decision).
- The last state of a load does not open `LD_CC`. Only the ALU states do
  (`transfer_CC`), so after a load `CC` is whatever it was before.

Each of the three is a theorem about runs that says exactly when the machine
does what is documented, followed by a run from reset in which it does not.
-/

namespace Ece385

open Isdu (State)
open Clocked

namespace Isa

/-- The flags `n`, `z`, `p` of a value. -/
def nzp (v : BitVec 16) : BitVec 3 :=
  BitVec.ofBool (v.toInt < 0) ++ BitVec.ofBool (v = 0) ++ BitVec.ofBool (0 < v.toInt)

/-- `(n AND N) OR (z AND Z) OR (p AND P)`. -/
def brTaken (w : BitVec 16) (CC : BitVec 3) : Bool :=
  (w.getLsbD 11 && CC.getLsbD 2) || (w.getLsbD 10 && CC.getLsbD 1)
    || (w.getLsbD 9 && CC.getLsbD 0)

def mask (w : BitVec 16) : BitVec 3 := w.extractLsb' 9 3

end Isa

/-! ## What the netlist computes -/

namespace Datapath

theorem flagN_eq (v : BitVec 16) : flagN v = decide (v.toInt < 0) := by
  rw [← BitVec.msb_eq_toInt, BitVec.msb_eq_getLsbD_last]
  rfl

theorem flagP_eq (v : BitVec 16) : flagP v = decide (0 < v.toInt) := by
  have hz : flagZ v = decide (v.toInt = 0) := by
    rw [flagZ, Bool.if_true_left, Bool.or_false, decide_eq_decide, ← BitVec.toInt_inj]
    rfl
  rw [flagP, flagN_eq, hz]
  rcases Int.lt_trichotomy v.toInt 0 with h | h | h
  · simp [h, Int.le_of_lt h]
  · simp [h]
  · simp [h, Int.le_of_lt h, Int.ne_of_gt h]

theorem ccOf_eq (v : BitVec 16) :
    ccOf v = 1#1 ++ BitVec.ofBool (v = 0) ++ BitVec.ofBool (0 < v.toInt) := by
  rw [ccOf, flagP_eq, flagZ, Bool.if_true_left, Bool.or_false]

theorem append_flags_inj : ∀ a b c a' b' c' : Bool,
    BitVec.ofBool a ++ BitVec.ofBool b ++ BitVec.ofBool c
        = BitVec.ofBool a' ++ BitVec.ofBool b' ++ BitVec.ofBool c'
      ↔ a = a' ∧ b = b' ∧ c = c' := by
  decide

theorem ccOf_eq_nzp (v : BitVec 16) : ccOf v = Isa.nzp v ↔ v.toInt < 0 := by
  have h : ccOf v = BitVec.ofBool true ++ BitVec.ofBool (v = 0) ++ BitVec.ofBool (0 < v.toInt) :=
    ccOf_eq v
  rw [h, Isa.nzp, append_flags_inj]
  simp

/-- Both decisions as conditions on the mask. -/
theorem benOf_brTaken_mask (w : BitVec 16) (c : BitVec 3) :
    (benOf w c = true ↔ Isa.mask w ≠ ~~~c) ∧ (Isa.brTaken w c = true ↔ Isa.mask w &&& c ≠ 0) := by
  have h2 : w.getLsbD 11 = (Isa.mask w).getLsbD 2 := by simp [Isa.mask]
  have h1 : w.getLsbD 10 = (Isa.mask w).getLsbD 1 := by simp [Isa.mask]
  have h0 : w.getLsbD 9 = (Isa.mask w).getLsbD 0 := by simp [Isa.mask]
  simp only [benOf, Isa.brTaken, ← BitVec.getLsbD_eq_getElem, h2, h1, h0]
  generalize Isa.mask w = m
  revert m c
  decide

theorem benOf_eq_brTaken (w : BitVec 16) (c : BitVec 3) :
    benOf w c = Isa.brTaken w c ↔ Isa.mask w &&& c ≠ 0 ∨ Isa.mask w = ~~~c := by
  obtain ⟨hb, ht⟩ := benOf_brTaken_mask w c
  rw [Bool.eq_iff_iff, hb, ht]
  clear hb ht
  generalize Isa.mask w = m
  revert m c
  decide

end Datapath

/-- Two decisions lead to one address when they are equal or nothing is
added. -/
theorem branch_target_eq (b b' : Bool) (P off : BitVec 16) :
    (if b then P + off else P) = (if b' then P + off else P) ↔ b = b' ∨ off = 0 := by
  have h : P + off = P ↔ off = 0 := BitVec.add_right_eq_self
  have h' : P = P + off ↔ off = 0 := BitVec.self_eq_add_right
  cases b <;> cases b' <;> simp [h, h']

/-! ## Who loads `CC` -/

namespace System

variable {μ : Type*} {M : ExternalMemory μ}

/-- Between ALU states `CC` stays what it is. -/
theorem run_CC {s : System μ} {cs : ℕ → Cycle} {t n : ℕ}
    (hr : ∀ k, t ≤ k → k < t + n → (s.run M cs k).Reset_s = true)
    (hq : ∀ k, t ≤ k → k < t + n → (s.run M cs k).State.isAlu = false) :
    (s.run M cs (t + n)).CC = (s.run M cs t).CC := by
  induction n with
  | zero => rfl
  | succ n ih =>
      have hlast := step_CC M (s.run M cs (t + n)) (cs (t + n)) (hr _ (by omega) (by omega))
      rw [hq (t + n) (by omega) (by omega)] at hlast
      exact hlast.trans (ih (fun k h h' => hr k h (by omega)) fun k h h' => hq k h (by omega))

/-! ## The flags of an ALU instruction -/

/-- **When the condition codes track the last ALU result.** The last ALU state
before `t'` was at `t`; what it wrote to its destination is on the left, and
its operation on the registers of that moment on the right. -/
theorem cc_tracks_alu_iff {s : System μ} {cs : ℕ → Cycle} {t t' : ℕ} (hlt : t < t')
    (halu : (s.run M cs t).State.isAlu = true)
    (hr : ∀ k, t ≤ k → k < t' → (s.run M cs k).Reset_s = true)
    (hlast : ∀ k, t < k → k < t' → (s.run M cs k).State.isAlu = false) :
    (s.run M cs t').CC
        = Isa.nzp ((s.run M cs (t + 1)).reg_file (Instr.dr (s.run M cs t).IR))
      ↔ (s.run M cs t).aluOut.toInt < 0 := by
  obtain ⟨n, rfl⟩ : ∃ n, t' = t + 1 + n := ⟨t' - (t + 1), by omega⟩
  have hrt := hr t (Nat.le_refl t) hlt
  have hCC : (s.run M cs (t + 1)).CC = Datapath.ccOf (s.run M cs t).aluOut := by
    have h := step_CC M (s.run M cs t) (cs t) hrt
    rwa [if_pos halu] at h
  have hreg : (s.run M cs (t + 1)).reg_file (Instr.dr (s.run M cs t).IR)
      = (s.run M cs t).aluOut := by
    have h := congrArg (fun q : Slc3 => q.reg_file)
      (step_toSlc3 M (s.run M cs t) (cs t) hrt)
    exact (congrFun h _).trans (Slc3.transfer_reg_of_isAlu _ halu _)
  rw [run_CC (fun k h h' => hr k (by omega) h') fun k h h' => hlast k (by omega) h', hCC, hreg,
    Datapath.ccOf_eq_nzp]

/-- A machine that complements a cleared register has the right flags, and still has them
after the load that follows. -/
theorem cc_tracks_not :
    let m : BitVec 20 → BitVec 16 := fun a =>
      if a = 0 then SLC3_2.opNOT SLC3_2.R0 SLC3_2.R0
      else SLC3_2.opLDR SLC3_2.R1 SLC3_2.R2 SLC3_2.inSW
    let run := (cleared m).run sram (Cycle.start 5)
    (run 20).reg_file SLC3_2.R1 = 5
      ∧ (run 20).CC = Isa.nzp ((run 9).reg_file (Instr.dr (run 8).IR)) := by
  intro m run
  have hreset : ∀ i < 12, (run (8 + i)).Reset_s = true := by decide +kernel
  have hload : ∀ i < 11, (run (9 + i)).State.isAlu = false := by decide +kernel
  refine ⟨by decide +kernel, (cc_tracks_alu_iff (show 8 < 20 by decide) (by decide +kernel)
    (fun k hlo hhi => ?_) fun k hlo hhi => ?_).mpr (by decide +kernel)⟩
  · obtain ⟨i, rfl⟩ := Nat.exists_eq_add_of_le hlo
    exact hreset i (by omega)
  · obtain ⟨i, rfl⟩ := Nat.exists_eq_add_of_le (show 9 ≤ k from hlo)
    exact hload i (by omega)

/-- The first instruction of the shipped program writes 0 and leaves
`n` and `z` both set. -/
theorem cc_of_clr :
    let s := cleared TestMemory.initial
    let run := s.run testMemory (Cycle.start 0)
    (run 8).State.isAlu = true ∧ At18 (run 9) ∧ (run 9).CC = 0b110#3
      ∧ Isa.nzp ((run 9).reg_file (Instr.dr (run 8).IR)) = 0b010#3 := by
  decide +kernel

/-! ## The decision of a branch -/

theorem effect_br {a : Core μ} {w : BitVec 16} (hw : Instr.opcode w = SLC3_2.op_BR)
    (S : BitVec 16) :
    a.effect M w S = { a with
      PC := if Datapath.benOf w a.CC then a.PC + 1 + Instr.off9 w else a.PC + 1 } := by
  unfold Core.effect Core.exec
  rw [hw]
  rfl

theorem core_of_br {s : System μ} {cs : ℕ → Cycle} {n : ℕ} (h : At18 s)
    (hr : s.Reset_s = true) (hcs : NoResetBefore n cs) (hn : NextVisit At18 (s.run M cs) n)
    (hw : Instr.opcode (s.fetchWord M cs) = SLC3_2.op_BR) :
    (s.run M cs n).core = { s.core with
      PC := if Datapath.benOf (s.fetchWord M cs) s.CC
        then s.PC + 1 + Instr.off9 (s.fetchWord M cs) else s.PC + 1 } :=
  (effect_of_nextVisit h hr hcs hn).trans (effect_br hw _)

/-- **When a branch takes the documented decision.** `P` is the incremented
`PC` and the flags are those of the decode. -/
theorem br_decides_iff {s : System μ} {cs : ℕ → Cycle} (h : At18 s) (hr : s.Reset_s = true)
    (hw : Instr.opcode (s.fetchWord M cs) = SLC3_2.op_BR) :
    let w := s.fetchWord M cs
    let P := s.PC + 1
    (∀ n, NoResetBefore n cs → NextVisit At18 (s.run M cs) n →
      (s.run M cs n).core = { s.core with PC := (s.run M cs n).PC }
      ∧ ((s.run M cs n).PC = (if Isa.brTaken w s.CC then P + Instr.off9 w else P)
        ↔ Isa.mask w &&& s.CC ≠ 0 ∨ Isa.mask w = ~~~s.CC ∨ Instr.off9 w = 0))
    ∧ (NoResetBefore 11 cs → ∃ n, 6 ≤ n ∧ n ≤ 11 ∧ NextVisit At18 (s.run M cs) n) := by
  intro w P
  refine ⟨fun n hcs hn => ?_, fun hcs => nextVisit_of_ne_pause h hr hcs (by rw [hw]; decide)⟩
  have hcore := core_of_br h hr hcs hn hw
  have hPC : (s.run M cs n).PC = if Datapath.benOf w s.CC then P + Instr.off9 w else P :=
    congrArg Core.PC hcore
  refine ⟨by rw [hPC]; exact hcore, ?_⟩
  rw [hPC, branch_target_eq, Datapath.benOf_eq_brTaken, or_assoc]

/-- A branch on `nzp`, as in most of the shipped programs, goes the right
way. -/
theorem br_decides_nzp :
    let s : System (BitVec 20 → BitVec 16) :=
      { cleared fun _ => SLC3_2.opBR SLC3_2.nzp 5 with State := .S_18, CC := 0b110#3 }
    ∃ n, NextVisit At18 (s.run sram fun _ => Cycle.idle 0) n
      ∧ (s.run sram (fun _ => Cycle.idle 0) n).PC = 6 := by
  intro s
  have hcs : ∀ n, NoResetBefore n fun _ => Cycle.idle 0 := fun _ _ _ => rfl
  have hw : Instr.opcode (s.fetchWord sram fun _ => Cycle.idle 0) = SLC3_2.op_BR := by decide
  obtain ⟨hall, hex⟩ := br_decides_iff (show At18 s from rfl) rfl hw
  obtain ⟨n, -, -, hn⟩ := hex (hcs 11)
  exact ⟨n, hn, ((hall n (hcs n) hn).2.mpr (by decide)).trans (by decide)⟩

/-- After `opCLR` the flags are 110. A branch with an empty mask follows, and
jumps. -/
theorem br_no_op_jumps :
    let m : BitVec 20 → BitVec 16 :=
      fun a => if a = 0 then SLC3_2.opCLR SLC3_2.R0 else SLC3_2.opBR 0 5
    let run := (cleared m).run sram (Cycle.start 0)
    At18 (run 9) ∧ (run 9).CC = 0b110#3 ∧ (run 9).PC = 1
      ∧ NextVisit At18 (fun k => run (9 + k)) 8 ∧ (run 14).IR = SLC3_2.opBR 0 5
      ∧ Isa.brTaken (SLC3_2.opBR 0 5) 0b110#3 = false ∧ (run 17).PC = 7 := by
  decide +kernel

/-! ## The flags after a load -/

theorem effect_ldr {a : Core μ} {w : BitVec 16} (hw : Instr.opcode w = SLC3_2.op_LDR)
    (S : BitVec 16) :
    a.effect M w S = { a with
      PC := a.PC + 1
      R := Function.update a.R (Instr.dr w)
        (load M a.mem S (a.R (Instr.sr1 w) + Instr.off6 w)) } := by
  unfold Core.effect Core.exec
  rw [hw]
  rfl

theorem effect_alu_CC {a : Core μ} {w : BitVec 16}
    (hw : (Isdu.decode (Instr.opcode w)).isAlu = true) (S : BitVec 16) :
    (a.effect M w S).CC = Datapath.ccOf ((a.effect M w S).R (Instr.dr w)) := by
  unfold Core.effect Core.exec
  cases hd : Isdu.decode (Instr.opcode w) <;> simp_all [State.isAlu, Core.setReg]

theorem isAlu_decode_iff : ∀ op : BitVec 4, (Isdu.decode op).isAlu = true
    ↔ op = SLC3_2.op_ADD ∨ op = SLC3_2.op_AND ∨ op = SLC3_2.op_NOT := by
  decide

/-- **When a load leaves the flags an ALU instruction would leave.** One run
loads `v`, the other computes it. -/
theorem ldr_cc_iff {ν : Type*} {N : ExternalMemory ν} {s : System μ} {s' : System ν}
    {cs cs' : ℕ → Cycle} {n n' : ℕ}
    (h : At18 s) (hr : s.Reset_s = true) (hcs : NoResetBefore n cs)
    (hn : NextVisit At18 (s.run M cs) n)
    (hw : Instr.opcode (s.fetchWord M cs) = SLC3_2.op_LDR)
    (h' : At18 s') (hr' : s'.Reset_s = true) (hcs' : NoResetBefore n' cs')
    (hn' : NextVisit At18 (s'.run N cs') n')
    (hw' : Instr.opcode (s'.fetchWord N cs') = SLC3_2.op_ADD
      ∨ Instr.opcode (s'.fetchWord N cs') = SLC3_2.op_AND
      ∨ Instr.opcode (s'.fetchWord N cs') = SLC3_2.op_NOT)
    (hv : (s'.run N cs' n').reg_file (Instr.dr (s'.fetchWord N cs'))
      = (s.run M cs n).reg_file (Instr.dr (s.fetchWord M cs))) :
    let t := s.run M cs n
    let v := t.reg_file (Instr.dr (s.fetchWord M cs))
    let cs₁ := later n cs
    let b := t.fetchWord M cs₁
    (t.CC = (s'.run N cs' n').CC
      ↔ s.CC = 1#1 ++ BitVec.ofBool (v = 0) ++ BitVec.ofBool (0 < v.toInt))
    ∧ (Instr.opcode b = SLC3_2.op_BR →
      ∀ m, NoResetBefore m cs₁ → NextVisit At18 (t.run M cs₁) m →
        ((t.run M cs₁ m).PC
            = (if Datapath.benOf b (Datapath.ccOf v) then t.PC + 1 + Instr.off9 b
              else t.PC + 1)
          ↔ Datapath.benOf b s.CC = Datapath.benOf b (Datapath.ccOf v)
            ∨ Instr.off9 b = 0)) := by
  intro t v cs₁ b
  have hload := effect_of_nextVisit h hr hcs hn
  have halu := effect_of_nextVisit h' hr' hcs' hn'
  rw [effect_ldr hw] at hload
  have hCC : t.CC = s.CC := congrArg Core.CC hload
  have hCC' : (s'.run N cs' n').CC = Datapath.ccOf v := by
    rw [show v = _ from hv.symm]
    have hflags := effect_alu_CC (M := N) (a := s'.core) ((isAlu_decode_iff _).mpr hw') (cs' 9).S
    rwa [← halu] at hflags
  refine ⟨by rw [hCC, hCC', Datapath.ccOf_eq], fun hb m hcsm hm => ?_⟩
  have hrt : t.Reset_s = true := run_Reset_s hr hcs
  have hPC : (t.run M cs₁ m).PC
      = if Datapath.benOf b t.CC then t.PC + 1 + Instr.off9 b else t.PC + 1 :=
    congrArg Core.PC (core_of_br hn.2.1 hrt hcsm hm hb)
  rw [hPC, branch_target_eq, ← hCC]

/-- A load of 1 when the flags are those of 1 already. -/
theorem ldr_cc_same :
    let s : System (BitVec 20 → BitVec 16) :=
      { cleared fun _ => SLC3_2.opLDR SLC3_2.R1 SLC3_2.R0 SLC3_2.inSW with
        State := .S_18, CC := 0b101#3 }
    let s' : System (BitVec 20 → BitVec 16) :=
      { cleared fun _ => SLC3_2.opADDi SLC3_2.R1 SLC3_2.R1 1 with State := .S_18 }
    (s.run sram (fun _ => Cycle.idle 1) 11).CC = (s'.run sram (fun _ => Cycle.idle 1) 7).CC := by
  intro s s'
  have hcs : ∀ n, NoResetBefore n fun _ => Cycle.idle 1 := fun _ _ _ => rfl
  have h18 : At18 s ∧ At18 s' := ⟨rfl, rfl⟩
  have hn : NextVisit At18 (s.run sram fun _ => Cycle.idle 1) 11 := by decide +kernel
  have hn' : NextVisit At18 (s'.run sram fun _ => Cycle.idle 1) 7 := by decide +kernel
  exact (ldr_cc_iff h18.1 rfl (hcs 11) hn (by decide) h18.2 rfl (hcs 7) hn' (by decide)
    (by decide +kernel)).1.mpr (by decide +kernel)

/-- The menu loop of the shipped program, entered from reset by way of word
90. The switches are at 0 when `opLDR(R1, R0, inSW)` reads them, the flags are
still those of the positive number word 93 computed, and `opBR(z, -3)`, "if
0, retry", falls through. The `opCLR(R0)` of word 90 wrote a 0 too. -/
theorem menu_loop_falls_through :
    let cs : ℕ → Cycle := fun k =>
      { Cycle.start (if k < 40 then 90 else 0) k with Continue := k != 62 }
    let run := (cleared TestMemory.initial).run testMemory cs
    At18 (run 34) ∧ (run 34).IR = SLC3_2.opCLR SLC3_2.R0
      ∧ (run 34).reg_file SLC3_2.R0 = 0 ∧ (run 34).CC = 0b110#3
      ∧ At18 (run 76) ∧ (run 76).IR = SLC3_2.opLDR SLC3_2.R1 SLC3_2.R0 SLC3_2.inSW
      ∧ (run 76).reg_file SLC3_2.R1 = 0 ∧ (run 76).CC = 0b101#3
      ∧ At18 (run 83) ∧ (run 83).IR = SLC3_2.opBR SLC3_2.z (-3) ∧ (run 83).PC = 97 := by
  intro cs run
  have hrun : ∀ n, run n = _ := run_eq_transferStep testMemory (cleared TestMemory.initial) cs
  rw [hrun, hrun, hrun]
  decide +kernel

end System

end Ece385
