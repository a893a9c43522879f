import Ece385.Slc3.Transfer

/-!
# Instructions as runs

From one visit of `S_18` to the next the machine executes one instruction.
`effect` is what the instruction does to the registers a program can see,
`CC` and the LEDs included, exactly as the netlist has it: the flags are
`ccOf`, the branch decision is `benOf`, and a load leaves the flags alone.
`effect_of_nextVisit` proves it, by symbolic execution: `leads_fetch` for the
five cycles every instruction begins with, then one lemma per opcode from
the decode state on.

A run without reset is all that is assumed: the memory, the switches, the
other buttons and every undriven wire are arbitrary, and so is everything
the machine holds at the start.
-/

namespace Ece385

open Isdu (State)
open Clocked

/-- The registers an instruction acts on. -/
@[ext]
structure Core (μ : Type*) where
  PC : BitVec 16
  R : RegFile
  CC : BitVec 3
  LED : BitVec 12
  mem : μ
  hex_data : BitVec 16

namespace System

variable {μ : Type*} (M : ExternalMemory μ)

def core (s : System μ) : Core μ := ⟨s.PC, s.reg_file, s.CC, s.LED, s.mem, s.hex_data⟩

/-- Nobody presses the reset button. -/
def NoReset (cs : ℕ → Cycle) : Prop := ∀ k, (cs k).Reset = true

theorem NoReset.later {cs : ℕ → Cycle} (h : NoReset cs) (m : ℕ) : NoReset (later m cs) :=
  fun k => h (m + k)

/-- Nobody presses it for `n` cycles. -/
def NoResetBefore (n : ℕ) (cs : ℕ → Cycle) : Prop := ∀ k, k < n → (cs k).Reset = true

theorem NoReset.before {cs : ℕ → Cycle} (h : NoReset cs) (n : ℕ) : NoResetBefore n cs :=
  fun k _ => h k

theorem run_Reset_s {M : ExternalMemory μ} {s : System μ} {n : ℕ} {cs : ℕ → Cycle}
    (hr : s.Reset_s = true) (hcs : NoResetBefore n cs) : (s.run M cs n).Reset_s = true := by
  cases n with
  | zero => exact hr
  | succ n => exact hcs n (Nat.lt_succ_self n)

/-- The stream in which the button stays up from `n` on. -/
def released (n : ℕ) (cs : ℕ → Cycle) : ℕ → Cycle :=
  fun k => if k < n then cs k else { cs k with Reset := true }

theorem NoResetBefore.released {n : ℕ} {cs : ℕ → Cycle} (h : NoResetBefore n cs) :
    NoReset (released n cs) := by
  intro k
  unfold System.released
  split
  case isTrue hk => exact h k hk
  case isFalse => rfl

theorem run_released {n k : ℕ} (s : System μ) (cs : ℕ → Cycle) (hk : k ≤ n) :
    s.run M (released n cs) k = s.run M cs k :=
  run_congr fun _ hj => if_pos (Nat.lt_of_lt_of_le hj hk)

theorem released_S (n : ℕ) (cs : ℕ → Cycle) (k : ℕ) : (released n cs k).S = (cs k).S := by
  unfold released
  split <;> rfl

/-- An instruction boundary. -/
def At18 (s : System μ) : Prop := s.State = .S_18

instance : DecidablePred (At18 : System μ → Prop) :=
  fun s => inferInstanceAs (Decidable (s.State = .S_18))

/-- The word on the read path at address `a`, with `S` on the switches. -/
def load (m : μ) (S a : BitVec 16) : BitVec 16 :=
  if a = 0xFFFF#16 then S else M.rd m (0#4 ++ a)

end System

namespace Core

variable {μ : Type*} (M : ExternalMemory μ) (a : Core μ)

/-- `DR <- v` with the flags of `v`. -/
def setReg (w v : BitVec 16) : Core μ :=
  { a with R := Function.update a.R (Instr.dr w) v, CC := Datapath.ccOf v }

/-- A store: the display at `xFFFF`, and the memory at whatever address its
own decoding makes of it. -/
def store (addr v : BitVec 16) : Core μ :=
  { a with
    mem := M.wr a.mem (0#4 ++ addr) v
    hex_data := if addr = 0xFFFF#16 then v else a.hex_data }

/-- The instruction `w`, after the fetch has incremented `PC`. `S` are the
switches a load from `xFFFF` would read. -/
def exec (w S : BitVec 16) : Core μ :=
  match Isdu.decode (Instr.opcode w) with
  | .S_01 => a.setReg w (a.R (Instr.sr1 w) + Instr.operand2 w a.R)
  | .S_05 => a.setReg w (a.R (Instr.sr1 w) &&& Instr.operand2 w a.R)
  | .S_09 => a.setReg w (~~~(a.R (Instr.sr1 w)))
  | .S_00 => { a with PC := if Datapath.benOf w a.CC then a.PC + Instr.off9 w else a.PC }
  | .S_12 => { a with PC := a.R (Instr.sr1 w) }
  | .S_04 => { a with PC := a.PC + Instr.off11 w, R := Function.update a.R 7 a.PC }
  | .S_06 =>
      { a with
        R := Function.update a.R (Instr.dr w)
          (System.load M a.mem S (a.R (Instr.sr1 w) + Instr.off6 w)) }
  | .S_07 => a.store M (a.R (Instr.sr1 w) + Instr.off6 w) (a.R (Instr.dr w))
  | .PauseIR1 => { a with LED := w.extractLsb' 0 12 }
  | _ => a

/-- One instruction. -/
def effect (w S : BitVec 16) : Core μ := ({ a with PC := a.PC + 1 } : Core μ).exec M w S

end Core

namespace System

variable {μ : Type*} (M : ExternalMemory μ)

/-! ## The fetch -/

/-- The instruction word of the fetch that starts now. -/
def fetchWord (s : System μ) (cs : ℕ → Cycle) : BitVec 16 := load M s.mem (cs 3).S s.PC

/-- The state in which the fetch leaves the machine, five cycles later. -/
def fetched (s : System μ) (cs : ℕ → Cycle) : System μ :=
  { s with
    State := .S_32
    MAR := s.PC
    PC := s.PC + 1
    MDR := s.fetchWord M cs
    IR := s.fetchWord M cs
    Data_write_buffer := s.fetchWord M cs
    Data_read_buffer := (cs 4).x.Data
    Reset_s := true
    Continue_s := (cs 4).Continue
    Run_s := (cs 4).Run }

attribute [local simp] Slc3.latch Slc3.transfer State.reads State.writes Slc3.readWord Slc3.addr
  At18 load

variable {M}

theorem leads_fetch {s : System μ} {cs : ℕ → Cycle} (h : At18 s) (hr : s.Reset_s = true)
    (hcs : NoReset cs) :
    Leads At18 (fun c s => s.step M c) s cs 5 (s.fetched M cs) := by
  have h18 : s.State = .S_18 := h
  refine Leads.cons (step_eq M _ _ hr (hcs 0)) (by simp [h18]) ?_
  refine Leads.cons (step_eq M _ _ (hcs 0) (hcs 1)) (by simp [h18]) ?_
  refine Leads.cons (step_eq M _ _ (hcs 1) (hcs 2)) (by simp [h18]) ?_
  refine Leads.cons (step_eq M _ _ (hcs 2) (hcs 3)) (by simp [h18]) ?_
  refine Leads.cons (step_eq M _ _ (hcs 3) (hcs 4)) (by simp [h18]) ?_
  have h4 : (cs 4).Reset = true := hcs 4
  simpa [h18, fetched, fetchWord, h4] using Leads.refl

/-! ## Execution, opcode by opcode -/

section Exec

variable {f : System μ} {cs : ℕ → Cycle} (h : f.State = .S_32) (hr : f.Reset_s = true)
  (hcs : NoReset cs)
include h hr hcs

theorem returns_alu {q : State} (hd : Isdu.decode (Instr.opcode f.IR) = q)
    (hq : q.isAlu = true) (S : BitVec 16) :
    ∃ f', Returns At18 (fun c s => s.step M c) f cs 2 f' ∧ f'.core = f.core.exec M f.IR S := by
  refine ⟨_, Returns.cons (step_eq M _ _ hr (hcs 0)) ?_
    (Returns.one (step_eq M _ _ (hcs 0) (hcs 1)) ?_), ?_⟩
  all_goals cases q <;> simp_all [State.isAlu, Core.exec, Core.setReg, core, Slc3.aluOut]

theorem returns_ldr (hd : Isdu.decode (Instr.opcode f.IR) = .S_06) :
    ∃ f', Returns At18 (fun c s => s.step M c) f cs 6 f'
      ∧ f'.core = f.core.exec M f.IR (cs 4).S := by
  refine ⟨_, Returns.cons (step_eq M _ _ hr (hcs 0)) ?_ <|
    Returns.cons (step_eq M _ _ (hcs 0) (hcs 1)) ?_ <|
    Returns.cons (step_eq M _ _ (hcs 1) (hcs 2)) ?_ <|
    Returns.cons (step_eq M _ _ (hcs 2) (hcs 3)) ?_ <|
    Returns.cons (step_eq M _ _ (hcs 3) (hcs 4)) ?_ <|
    Returns.one (step_eq M _ _ (hcs 4) (hcs 5)) ?_, ?_⟩
  all_goals simp [h, hd, Core.exec, core]
  rfl

/-- Three cycles drive the write, the first of them with the stale buffer;
the later ones overwrite it. -/
theorem returns_str (hd : Isdu.decode (Instr.opcode f.IR) = .S_07) (S : BitVec 16) :
    ∃ f', Returns At18 (fun c s => s.step M c) f cs 6 f' ∧ f'.core = f.core.exec M f.IR S := by
  refine ⟨_, Returns.cons (step_eq M _ _ hr (hcs 0)) ?_ <|
    Returns.cons (step_eq M _ _ (hcs 0) (hcs 1)) ?_ <|
    Returns.cons (step_eq M _ _ (hcs 1) (hcs 2)) ?_ <|
    Returns.cons (step_eq M _ _ (hcs 2) (hcs 3)) ?_ <|
    Returns.cons (step_eq M _ _ (hcs 3) (hcs 4)) ?_ <|
    Returns.one (step_eq M _ _ (hcs 4) (hcs 5)) ?_, ?_⟩
  all_goals
    by_cases hx : f.reg_file (Instr.sr1 f.IR) + Instr.off6 f.IR = 0xFFFF#16 <;>
      simp [h, hd, hx, Core.exec, Core.store, core, M.wr_wr, Slc3.hexWrite]

theorem returns_jsr (hd : Isdu.decode (Instr.opcode f.IR) = .S_04) (S : BitVec 16) :
    ∃ f', Returns At18 (fun c s => s.step M c) f cs 3 f' ∧ f'.core = f.core.exec M f.IR S := by
  refine ⟨_, Returns.cons (step_eq M _ _ hr (hcs 0)) ?_ <|
    Returns.cons (step_eq M _ _ (hcs 0) (hcs 1)) ?_ <|
    Returns.one (step_eq M _ _ (hcs 1) (hcs 2)) ?_, ?_⟩
  all_goals simp [h, hd, Core.exec, core]

theorem returns_jmp (hd : Isdu.decode (Instr.opcode f.IR) = .S_12) (S : BitVec 16) :
    ∃ f', Returns At18 (fun c s => s.step M c) f cs 2 f' ∧ f'.core = f.core.exec M f.IR S := by
  refine ⟨_, Returns.cons (step_eq M _ _ hr (hcs 0)) ?_ <|
    Returns.one (step_eq M _ _ (hcs 0) (hcs 1)) ?_, ?_⟩
  all_goals simp [h, hd, Core.exec, core]

/-- A branch is one cycle longer when `BEN`, freshly latched by `S_32`, says
so. -/
theorem returns_br (hd : Isdu.decode (Instr.opcode f.IR) = .S_00) (S : BitVec 16) :
    ∃ n f', 2 ≤ n ∧ n ≤ 3 ∧ Returns At18 (fun c s => s.step M c) f cs n f'
      ∧ f'.core = f.core.exec M f.IR S := by
  cases hb : Datapath.benOf f.IR f.CC with
  | false =>
      refine ⟨2, _, by omega, by omega, Returns.cons (step_eq M _ _ hr (hcs 0)) ?_ <|
        Returns.one (step_eq M _ _ (hcs 0) (hcs 1)) ?_, ?_⟩
      all_goals simp [h, hd, hb, Core.exec, core]
  | true =>
      refine ⟨3, _, by omega, by omega, Returns.cons (step_eq M _ _ hr (hcs 0)) ?_ <|
        Returns.cons (step_eq M _ _ (hcs 0) (hcs 1)) ?_ <|
        Returns.one (step_eq M _ _ (hcs 1) (hcs 2)) ?_, ?_⟩
      all_goals simp [h, hd, hb, Core.exec, core]

theorem returns_nop (hd : Isdu.decode (Instr.opcode f.IR) = .S_18) (S : BitVec 16) :
    ∃ f', Returns At18 (fun c s => s.step M c) f cs 1 f' ∧ f'.core = f.core.exec M f.IR S := by
  refine ⟨_, Returns.one (step_eq M _ _ hr (hcs 0)) ?_, ?_⟩
  all_goals simp [h, hd, Core.exec, core]

end Exec

/-! ## The pause states -/

/-- Everything a pause holds still. -/
def held (s : System μ) :
    BitVec 16 × BitVec 16 × BitVec 16 × BitVec 16 × RegFile × BitVec 3 × BitVec 16 × μ :=
  (s.PC, s.IR, s.MAR, s.MDR, s.reg_file, s.CC, s.hex_data, s.mem)

theorem core_of_held {p q : System μ} {l : BitVec 12} (h : q.held = p.held) (hl : q.LED = l) :
    q.core = { p.core with LED := l } := by
  simp only [held, Prod.mk.injEq] at h
  obtain ⟨hPC, -, -, -, hR, hCC, hhex, hmem⟩ := h
  simp only [core, hPC, hR, hCC, hl, hhex, hmem]

/-- A cycle of a pause: the LEDs show the instruction, nothing else moves. -/
theorem step_of_isPause {p : System μ} {c : Cycle} (hp : p.State.isPause = true)
    (hr : p.Reset_s = true) (hc : c.Reset = true) :
    (p.step M c).held = p.held ∧ (p.step M c).LED = p.IR.extractLsb' 0 12
      ∧ ((p.step M c).State.isPause = true ∨ At18 (p.step M c)) := by
  rw [step_eq M p c hr hc]
  cases hs : p.State <;> simp [State.isPause, hs] at hp ⊢
  case PauseIR1 => exact ⟨rfl, by cases p.continueAh <;> simp⟩
  case PauseIR2 => exact ⟨rfl, by cases p.continueAh <;> simp⟩

/-- A pause of any length. -/
theorem run_of_isPause {p : System μ} {cs : ℕ → Cycle} (hr : p.Reset_s = true)
    (hcs : NoReset cs) (n : ℕ) (hn : ∀ k, k < n → (p.run M cs k).State.isPause = true) :
    (p.run M cs n).held = p.held ∧ (0 < n → (p.run M cs n).LED = p.IR.extractLsb' 0 12) := by
  refine run_invariant (P := fun k (q : System μ) => q.held = p.held
    ∧ (0 < k → q.LED = p.IR.extractLsb' 0 12)) n ⟨rfl, fun h => absurd h (Nat.lt_irrefl 0)⟩ ?_
  rintro k hk ⟨hheld, -⟩
  have hrk : (p.run M cs k).Reset_s = true := run_Reset_s hr (hcs.before k)
  obtain ⟨hheld', hled, -⟩ := step_of_isPause (c := cs k) (M := M) (hn k hk) hrk (hcs k)
  have hIR : (p.run M cs k).IR = p.IR := congrArg (fun h => h.2.1) hheld
  exact ⟨hheld'.trans hheld, fun _ => hled.trans (by rw [hIR])⟩

/-- From a pause state the machine pauses until it is back at `S_18`. -/
theorem isPause_of_nextVisit {p : System μ} {cs : ℕ → Cycle} (hp : p.State.isPause = true)
    (hr : p.Reset_s = true) (hcs : NoReset cs) {n : ℕ} (hn : NextVisit At18 (p.run M cs) n) :
    ∀ k, k < n → (p.run M cs k).State.isPause = true := by
  intro k
  induction k with
  | zero => exact fun _ => hp
  | succ k ih =>
      intro hk
      have hrk : (p.run M cs k).Reset_s = true := run_Reset_s hr (hcs.before k)
      obtain ⟨-, -, hstay | hleave⟩ :=
        step_of_isPause (c := cs k) (M := M) (ih (Nat.lt_of_succ_lt hk)) hrk (hcs k)
      · exact hstay
      · exact absurd hleave (hn.2.2 (k + 1) (Nat.succ_pos k) hk)

theorem exec_pause {f : System μ} {cs : ℕ → Cycle} (h : f.State = .S_32)
    (hr : f.Reset_s = true) (hcs : NoReset cs)
    (hd : Isdu.decode (Instr.opcode f.IR) = .PauseIR1) (S : BitVec 16) {n : ℕ}
    (hn : NextVisit At18 (f.run M cs) n) : (f.run M cs n).core = f.core.exec M f.IR S := by
  have hlead : Leads At18 (fun c s => s.step M c) f cs 1 (f.step M (cs 0)) :=
    Leads.cons rfl (by rw [step_eq M _ _ hr (hcs 0)]; simp [h, hd]) Leads.refl
  obtain ⟨j, rfl, hj⟩ := hlead.nextVisit.mp hn
  generalize hp : f.step M (cs 0) = p at hlead hj
  rw [step_eq M _ _ hr (hcs 0)] at hp
  have hpr : p.Reset_s = true := by rw [← hp]; exact hcs 0
  have hpp : p.State.isPause = true := by rw [← hp]; simp [h, hd, State.isPause]
  have hpc : p.core = f.core ∧ p.IR = f.IR := by rw [← hp]; simp [h, hd, core]
  have hcs' := hcs.later 1
  have hpause := isPause_of_nextVisit (M := M) hpp hpr hcs' hj
  obtain ⟨hheld, hled⟩ := run_of_isPause (M := M) hpr hcs' j hpause
  have hrun : f.run M cs (1 + j) = p.run M (later 1 cs) j := by
    rw [run_later]; exact congrArg (fun p => p.run M (later 1 cs) j) hlead.1
  rw [hrun, core_of_held hheld (hled hj.1), hpc.1, hpc.2, Core.exec, hd]

/-! ## The instruction -/

theorem decode_cases : ∀ op : BitVec 4,
    (Isdu.decode op).isAlu = true ∨ Isdu.decode op = .S_00 ∨ Isdu.decode op = .S_12
      ∨ Isdu.decode op = .S_04 ∨ Isdu.decode op = .S_06 ∨ Isdu.decode op = .S_07
      ∨ Isdu.decode op = .PauseIR1 ∨ Isdu.decode op = .S_18 := by
  decide

theorem returns_of_ne_pause {s : System μ} {cs : ℕ → Cycle} (h : At18 s)
    (hr : s.Reset_s = true) (hcs : NoReset cs)
    (hw : Isdu.decode (Instr.opcode (s.fetchWord M cs)) ≠ .PauseIR1) :
    ∃ n s', 6 ≤ n ∧ n ≤ 11 ∧ Returns At18 (fun c s => s.step M c) s cs n s'
      ∧ s'.core = s.core.effect M (s.fetchWord M cs) (cs 9).S := by
  have hlead := leads_fetch (M := M) h hr hcs
  have hcs' := hcs.later 5
  have hf : (s.fetched M cs).State = .S_32 := rfl
  have hfr : (s.fetched M cs).Reset_s = true := rfl
  suffices hx : ∃ k f', 1 ≤ k ∧ k ≤ 6
      ∧ Returns At18 (fun c s => s.step M c) (s.fetched M cs) (later 5 cs) k f'
      ∧ f'.core = (s.fetched M cs).core.exec M (s.fetchWord M cs) (cs 9).S by
    obtain ⟨k, f', h1, h6, hret, hcore⟩ := hx
    exact ⟨5 + k, f', by omega, by omega, hlead.returns hret, hcore⟩
  rcases decode_cases (Instr.opcode (s.fetchWord M cs)) with
    hd | hd | hd | hd | hd | hd | hd | hd
  · obtain ⟨f', hret, hcore⟩ := returns_alu hf hfr hcs' rfl hd (cs 9).S
    exact ⟨2, f', by omega, by omega, hret, hcore⟩
  · obtain ⟨k, f', h2, h3, hret, hcore⟩ := returns_br hf hfr hcs' hd (cs 9).S
    exact ⟨k, f', by omega, by omega, hret, hcore⟩
  · obtain ⟨f', hret, hcore⟩ := returns_jmp hf hfr hcs' hd (cs 9).S
    exact ⟨2, f', by omega, by omega, hret, hcore⟩
  · obtain ⟨f', hret, hcore⟩ := returns_jsr hf hfr hcs' hd (cs 9).S
    exact ⟨3, f', by omega, by omega, hret, hcore⟩
  · obtain ⟨f', hret, hcore⟩ := returns_ldr hf hfr hcs' hd
    exact ⟨6, f', by omega, by omega, hret, hcore⟩
  · obtain ⟨f', hret, hcore⟩ := returns_str hf hfr hcs' hd (cs 9).S
    exact ⟨6, f', by omega, by omega, hret, hcore⟩
  · exact absurd hd hw
  · obtain ⟨f', hret, hcore⟩ := returns_nop hf hfr hcs' hd (cs 9).S
    exact ⟨1, f', by omega, by omega, hret, hcore⟩

theorem effect_of_noReset {s : System μ} {cs : ℕ → Cycle} (h : At18 s)
    (hr : s.Reset_s = true) (hcs : NoReset cs) {n : ℕ} (hn : NextVisit At18 (s.run M cs) n) :
    (s.run M cs n).core = s.core.effect M (s.fetchWord M cs) (cs 9).S := by
  by_cases hw : Isdu.decode (Instr.opcode (s.fetchWord M cs)) = .PauseIR1
  · obtain ⟨j, rfl, hj⟩ := (leads_fetch (M := M) h hr hcs).nextVisit.mp hn
    have hrun : s.run M cs (5 + j) = (s.fetched M cs).run M (later 5 cs) j := by
      rw [run_later]
      exact congrArg (fun f => f.run M (later 5 cs) j) (leads_fetch h hr hcs).1
    have hexec := exec_pause (f := s.fetched M cs) rfl rfl (hcs.later 5) hw (cs 9).S hj
    rw [hrun, hexec]
    rfl
  · obtain ⟨m, s', -, -, hret, hcore⟩ := returns_of_ne_pause h hr hcs hw
    obtain ⟨rfl, hs'⟩ := hret.eq_of_nextVisit hn
    exact (congrArg core hs').trans hcore

/-- **One instruction.** Whenever the machine is next at `S_18`, the
instruction that was at `PC` has had its effect. The reset button matters up
to that moment only. -/
theorem effect_of_nextVisit {s : System μ} {cs : ℕ → Cycle} {n : ℕ} (h : At18 s)
    (hr : s.Reset_s = true) (hcs : NoResetBefore n cs) (hn : NextVisit At18 (s.run M cs) n) :
    (s.run M cs n).core = s.core.effect M (s.fetchWord M cs) (cs 9).S := by
  have hrun : ∀ k, k ≤ n → s.run M (released n cs) k = s.run M cs k :=
    fun k hk => run_released M s cs hk
  have heff := effect_of_noReset h hr hcs.released (hn.congr fun k hk => (hrun k hk).symm)
  rwa [hrun n (Nat.le_refl n), fetchWord, released_S, released_S] at heff

/-- Every instruction but `PAUSE` is over after 6 to 11 cycles. -/
theorem nextVisit_of_ne_pause {s : System μ} {cs : ℕ → Cycle} (h : At18 s)
    (hr : s.Reset_s = true) (hcs : NoResetBefore 11 cs)
    (hw : Isdu.decode (Instr.opcode (s.fetchWord M cs)) ≠ .PauseIR1) :
    ∃ n, 6 ≤ n ∧ n ≤ 11 ∧ NextVisit At18 (s.run M cs) n := by
  have hw' : Isdu.decode (Instr.opcode (s.fetchWord M (released 11 cs))) ≠ .PauseIR1 := by
    rwa [fetchWord, released_S]
  obtain ⟨n, s', h6, h11, hret, -⟩ := returns_of_ne_pause h hr hcs.released hw'
  exact ⟨n, h6, h11, hret.1.congr fun k hk => run_released M s cs (Nat.le_trans hk h11)⟩

end System

end Ece385
