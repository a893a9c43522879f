import Ece385.Slc3.Pause
import Ece385.Sync.Visits

/-!
# Whole runs, instruction by instruction

`effect_of_nextVisit` is about one instruction. `Core.next` makes a machine of
it: the instruction at `PC`, with the switches as they are when the fetch and
when a load reads them. `instructions` says that a run of the board without
reset is a run of this machine at its visits of `S_18`, however many there are,
and that the visits never end as long as somebody presses and releases
`Continue` again and again (`Patient`): only a `PAUSE` waits for anything.
-/

namespace Ece385

open Isdu (State)
open Clocked

/-- The switches when an instruction is fetched, and when it loads. -/
structure Samples where
  fetch : BitVec 16
  load : BitVec 16

/-- `Continue` is pressed every other cycle. -/
def Cycle.blinking (S : BitVec 16) (k : ℕ) : Cycle :=
  { idle S with Continue := decide (k % 2 = 0) }

namespace Core

variable {μ : Type*} (M : ExternalMemory μ)

/-- The instruction at `PC`. -/
def next (i : Samples) (a : Core μ) : Core μ :=
  a.effect M (System.load M a.mem i.fetch a.PC) i.load

def run (a : Core μ) (is : ℕ → Samples) : ℕ → Core μ := Clocked.run (fun i a => a.next M i) a is

end Core

namespace System

variable {μ : Type*} {M : ExternalMemory μ} {s : System μ} {cs : ℕ → Cycle} {T : ℕ → ℕ}

/-- What the instructions of a run see of the switches, if `T` are its visits. -/
def samples (cs : ℕ → Cycle) (T : ℕ → ℕ) : ℕ → Samples :=
  fun n => ⟨(cs (T n + 3)).S, (cs (T n + 9)).S⟩

section Steps

variable {N n : ℕ} (h : At18 s) (hr : s.Reset_s = true) (hcs : NoReset cs)
  (hT : Visits At18 (s.run M cs) T N)
include h hT

theorem At18.run_visit (hn : n ≤ N) : At18 (s.run M cs (T n)) := hT.visit h hn

include hr hcs

theorem core_next (hn : n < N) :
    (s.run M cs (T (n + 1))).core = (s.run M cs (T n)).core.next M (samples cs T n) := by
  have hrn : (s.run M cs (T n)).Reset_s = true := run_Reset_s hr (hcs.before _)
  have hcs' := hcs.later (T n)
  have hvisit := (hT.succ n hn).congr fun k _ => run_later M s cs (T n) k
  have heffect := effect_of_nextVisit (h.run_visit hT (Nat.le_of_lt hn)) hrn (hcs'.before _) hvisit
  rw [← run_later, hT.moment hn] at heffect
  exact heffect

theorem core_run (hn : n ≤ N) :
    (s.run M cs (T n)).core = s.core.run M (samples cs T) n :=
  hT.simulates (fun _ => core_next h hr hcs hT) hn

end Steps

/-! ## A pause ends -/

/-- `Continue` goes down again and again, and up again and again. -/
def Patient (cs : ℕ → Cycle) : Prop :=
  ∀ n, (∃ k, n ≤ k ∧ (cs k).Continue = false) ∧ ∃ k, n ≤ k ∧ (cs k).Continue = true

theorem Patient.later (h : Patient cs) (m : ℕ) : Patient (later m cs) := by
  intro n
  obtain ⟨⟨j, hj, hdown⟩, k, hk, hup⟩ := h (m + n)
  refine ⟨⟨j - m, by omega, ?_⟩, k - m, by omega, ?_⟩
  · rwa [later_apply, Nat.add_sub_of_le (by omega)]
  · rwa [later_apply, Nat.add_sub_of_le (by omega)]

theorem patient_blinking (S : BitVec 16) : Patient (Cycle.blinking S) := fun n =>
  ⟨⟨2 * n + 1, by omega, decide_eq_false (by omega)⟩, 2 * n, by omega, decide_eq_true (by omega)⟩

/-- A state that waits for the button is left when the button comes. -/
theorem exists_left {q : State} {b : Bool} {n : ℕ} (hn : (s.run M cs n).State = q)
    (hb : ∃ k, n ≤ k ∧ (s.run M cs k).continueAh = b)
    (hleave : ∀ k, (s.run M cs k).State = q → (s.run M cs k).continueAh = b →
      (s.run M cs (k + 1)).State ≠ q) :
    ∃ k, n ≤ k ∧ (s.run M cs k).State = q ∧ (s.run M cs (k + 1)).State ≠ q := by
  obtain ⟨k, hk, hkb⟩ := hb
  by_cases hq : (s.run M cs k).State = q
  · exact ⟨k, hk, hq, hleave k hq hkb⟩
  · obtain ⟨j, hnj, -, hj, hj'⟩ :=
      exists_exit (P := fun k => (s.run M cs k).State = q) hk hn hq
    exact ⟨j, hnj, hj, hj'⟩

theorem exists_continueAh (hp : Patient cs) (b : Bool) (n : ℕ) :
    ∃ k, n ≤ k ∧ (s.run M cs k).continueAh = b := by
  obtain ⟨⟨j, hj, hdown⟩, k, hk, hup⟩ := hp n
  cases b with
  | false => exact ⟨k + 1, by omega, congrArg (! ·) hup⟩
  | true => exact ⟨j + 1, by omega, congrArg (! ·) hdown⟩

theorem pause_ends (hr : s.Reset_s = true) (hcs : NoReset cs) (hp : Patient cs) {n : ℕ}
    (hn : (s.run M cs n).State = .PauseIR1) : ∃ k, n < k ∧ At18 (s.run M cs k) := by
  have hState := fun k => State_run_succ (M := M) hr hcs k
  obtain ⟨j, hnj, hj, hj'⟩ := exists_left hn (exists_continueAh hp true n) fun k hk hb => by
    rw [hState, hk, hb]
    simp [Isdu.nextState]
  have h2 : (s.run M cs (j + 1)).State = .PauseIR2 := by
    rw [hState, hj] at hj' ⊢
    cases hb : (s.run M cs j).continueAh with
    | false => exact absurd (by rw [hb]; rfl) hj'
    | true => rfl
  obtain ⟨k, hjk, hk, hk'⟩ := exists_left h2 (exists_continueAh hp false (j + 1)) fun k hk hb => by
    rw [hState, hk, hb]
    simp [Isdu.nextState]
  refine ⟨k + 1, by omega, ?_⟩
  rw [hState, hk] at hk'
  rw [At18, hState, hk]
  cases hb : (s.run M cs k).continueAh with
  | false => rfl
  | true => exact absurd (by rw [hb]; rfl) hk'

/-! ## Whole runs -/

theorem exists_back (h : At18 s) (hr : s.Reset_s = true) (hcs : NoReset cs) (hp : Patient cs) :
    ∃ n, 0 < n ∧ At18 (s.run M cs n) := by
  by_cases hw : Isdu.decode (Instr.opcode (s.fetchWord M cs)) = .PauseIR1
  · obtain ⟨hrun, -⟩ := leads_fetch (M := M) h hr hcs
    have h6 : (s.run M cs (5 + 1)).State = .PauseIR1 := by
      have h5 : s.run M cs 5 = s.fetched M cs := hrun
      rw [State_run_succ hr hcs, h5]
      exact hw
    obtain ⟨k, hk, h18⟩ := pause_ends hr hcs hp h6
    exact ⟨k, by omega, h18⟩
  · obtain ⟨n, -, -, hn⟩ := nextVisit_of_ne_pause h hr (hcs.before 11) hw
    exact ⟨n, hn.1, hn.2.1⟩

theorem exists_visits (h : At18 s) (hr : s.Reset_s = true) (hcs : NoReset cs) (hp : Patient cs) :
    ∃ T, ∀ N, Visits At18 (s.run M cs) T N := by
  refine Visits.of_back h fun m hm => ?_
  obtain ⟨k, hpos, hk⟩ := exists_back (M := M) hm (run_Reset_s hr (hcs.before m)) (hcs.later m)
    (hp.later m)
  exact ⟨k, hpos, by rwa [run_later]⟩

/-- **The board executes instructions**, one a visit. Whatever the run, its cycles up to
any `k` are a list of visits and the beginning of one more instruction, and if `Continue`
is pressed and let go again and again the list never ends. -/
theorem instructions (h : At18 s) (hr : s.Reset_s = true) (hcs : NoReset cs) :
    (∀ T N, Visits At18 (s.run M cs) T N →
      (∀ n ≤ N, (s.run M cs (T n)).core = s.core.run M (samples cs T) n)
      ∧ ∀ n < N, Instr.opcode (load M (s.run M cs (T n)).mem (cs (T n + 3)).S (s.run M cs (T n)).PC)
          ≠ SLC3_2.op_PSE → T n + 6 ≤ T (n + 1) ∧ T (n + 1) ≤ T n + 11)
    ∧ (∀ k, ∃ T N, Visits At18 (s.run M cs) T N ∧ T N ≤ k
        ∧ ∀ j, T N < j → j ≤ k → ¬At18 (s.run M cs j))
    ∧ (Patient cs → ∃ T, ∀ N, Visits At18 (s.run M cs) T N) := by
  refine ⟨fun T N hT => ⟨fun n => core_run h hr hcs hT, fun n hn hw => ?_⟩,
    Visits.exists_upto At18 (s.run M cs), exists_visits h hr hcs⟩
  have hrn : (s.run M cs (T n)).Reset_s = true := run_Reset_s hr (hcs.before _)
  have hcs' := hcs.later (T n)
  obtain ⟨k, h6, h11, hk⟩ := nextVisit_of_ne_pause (M := M) (h.run_visit hT (Nat.le_of_lt hn)) hrn
    (hcs'.before 11) fun hp => hw ((decode_eq_pause _).mp hp)
  have hvisit := (hT.succ n hn).congr fun k _ => run_later M s cs (T n) k
  have heq := hvisit.unique hk
  have hlt := hT.lt hn
  omega

/-- The shipped program, with a button that is pressed every other cycle. -/
theorem instructions_blinking :
    let s : TopLevelForTestMemory := { cleared TestMemory.initial with State := .S_18 }
    let cs := Cycle.blinking 3
    ∃ T, (∀ N, Visits At18 (s.run testMemory cs) T N)
      ∧ (s.run testMemory cs (T 2)).core = s.core.run testMemory (samples cs T) 2 := by
  intro s cs
  obtain ⟨hcore, -, hvisits⟩ :=
    instructions (M := testMemory) (show At18 s from rfl) rfl (fun _ => rfl : NoReset cs)
  obtain ⟨T, hT⟩ := hvisits (patient_blinking 3)
  exact ⟨T, hT, (hcore T 2 (hT 2)).1 2 (Nat.le_refl 2)⟩

/-! ## Counting pauses visit by visit -/

/-- The states behind the decode of anything but a `PAUSE`. -/
def executing : State → Bool
  | .Halted | .PauseIR1 | .PauseIR2 | .S_18 | .S_33_1 | .S_33_2 | .S_33_3 | .S_35 | .S_32 => false
  | _ => true

theorem executing_nextState (Run Continue BEN : Bool) (op : BitVec 4) (q : State)
    (h : executing q = true) : executing (Isdu.nextState Run Continue BEN op q) = true
      ∨ Isdu.nextState Run Continue BEN op q = .S_18 := by
  refine Isdu.nextState_rel (P := fun q q' => executing q = true →
    executing q' = true ∨ q' = .S_18) (by decide) ?_ Run Continue BEN op q h
  intro q
  cases q <;> decide

theorem executing_decode : ∀ op : BitVec 4, Isdu.decode op = .PauseIR1
    ∨ Isdu.decode op = .S_18 ∨ executing (Isdu.decode op) = true := by
  decide

/-- The states behind the decode of anything but a store. -/
def storeless : State → Bool
  | .S_18 | .S_33_1 | .S_33_2 | .S_33_3 | .S_35 | .S_32 => false
  | .S_07 | .S_23 | .S_16_1 | .S_16_2 | .S_16_3 => false
  | _ => true

theorem storeless_nextState (Run Continue BEN : Bool) (op : BitVec 4) (q : State)
    (h : storeless q = true) : storeless (Isdu.nextState Run Continue BEN op q) = true
      ∨ Isdu.nextState Run Continue BEN op q = .S_18 := by
  refine Isdu.nextState_rel (P := fun q q' => storeless q = true →
    storeless q' = true ∨ q' = .S_18) (by decide) ?_ Run Continue BEN op q h
  intro q
  cases q <;> decide

theorem storeless_decode : ∀ op : BitVec 4, Isdu.decode op = .S_07
    ∨ Isdu.decode op = .S_18 ∨ storeless (Isdu.decode op) = true := by
  decide

theorem not_writes_of_storeless {q : State} (h : storeless q = true) : q.writes = false := by
  cases q <;> first
    | rfl
    | exact absurd h (by decide)

section Fetch

variable (h : At18 s) (hr : s.Reset_s = true) (hcs : NoReset cs)
include h hr hcs

theorem State_of_fetch : (s.run M cs 1).State = .S_33_1 ∧ (s.run M cs 2).State = .S_33_2
    ∧ (s.run M cs 3).State = .S_33_3 ∧ (s.run M cs 4).State = .S_35
    ∧ (s.run M cs 5).State = .S_32
    ∧ (s.run M cs 6).State = Isdu.decode (Instr.opcode (s.fetchWord M cs)) := by
  have hState := fun k => State_run_succ (M := M) hr hcs k
  have h0 : (s.run M cs 0).State = .S_18 := h
  have h1 : (s.run M cs 1).State = .S_33_1 := by rw [hState, h0]; rfl
  have h2 : (s.run M cs 2).State = .S_33_2 := by rw [hState, h1]; rfl
  have h3 : (s.run M cs 3).State = .S_33_3 := by rw [hState, h2]; rfl
  have h4 : (s.run M cs 4).State = .S_35 := by rw [hState, h3]; rfl
  have h5 : (s.run M cs 5).State = .S_32 := by rw [hState, h4]; rfl
  have hfetched : s.run M cs 5 = s.fetched M cs := (leads_fetch h hr hcs).1
  refine ⟨h1, h2, h3, h4, h5, ?_⟩
  rw [hState, hfetched]
  rfl

/-- From the fetch of anything but a store to the next visit nothing is written. -/
theorem kept_until_visit (hw : Isdu.decode (Instr.opcode (s.fetchWord M cs)) ≠ .S_07) {k : ℕ}
    (hno : ∀ j, 0 < j → j ≤ k → ¬At18 (s.run M cs j)) :
    (s.run M cs k).mem = s.mem ∧ (s.run M cs k).hex_data = s.hex_data := by
  obtain ⟨h1, h2, h3, h4, h5, h6⟩ := State_of_fetch (M := M) h hr hcs
  have hbehind : ∀ j, 6 + j ≤ k → storeless (s.run M cs (6 + j)).State = true := by
    intro j
    induction j with
    | zero =>
        intro hj
        have hne : (s.run M cs 6).State ≠ .S_18 := hno 6 (by decide) hj
        rw [h6] at hne
        rw [Nat.add_zero, h6]
        exact ((storeless_decode _).resolve_left hw).resolve_left hne
    | succ j ih =>
        intro hj
        have hne : (s.run M cs (6 + j + 1)).State ≠ .S_18 := hno (6 + (j + 1)) (by omega) hj
        rw [State_run_succ hr hcs] at hne
        rw [← Nat.add_assoc, State_run_succ hr hcs]
        exact (storeless_nextState _ _ _ _ _ (ih (by omega))).resolve_right hne
  have hquiet : ∀ j ≤ k, (s.run M cs j).State.writes = false := by
    intro j hj
    by_cases hj6 : j < 6
    · rcases (by omega : j = 0 ∨ j = 1 ∨ j = 2 ∨ j = 3 ∨ j = 4 ∨ j = 5) with
        rfl | rfl | rfl | rfl | rfl | rfl
      · rw [show (s.run M cs 0).State = .S_18 from h]; rfl
      · rw [h1]; rfl
      · rw [h2]; rfl
      · rw [h3]; rfl
      · rw [h4]; rfl
      · rw [h5]; rfl
    · obtain ⟨i, rfl⟩ : ∃ i, j = 6 + i := ⟨j - 6, by omega⟩
      exact not_writes_of_storeless (hbehind i hj)
  induction k with
  | zero => exact ⟨rfl, rfl⟩
  | succ k ih =>
      obtain ⟨hmem, hhex⟩ := ih (fun j hpos hj => hno j hpos (by omega))
        (fun j hj => hbehind j (by omega)) fun j hj => hquiet j (by omega)
      obtain ⟨hmem', hhex'⟩ := step_of_not_writes M (s.run M cs k) (cs k)
        (run_Reset_s hr (hcs.before k)) (hcs k) (hquiet k (by omega))
      exact ⟨hmem'.trans hmem, hhex'.trans hhex⟩

/-- A pause lasts until the next fetch. -/
theorem isPause_until {n : ℕ} (hn : NextVisit At18 (s.run M cs) n)
    (hp : Isdu.decode (Instr.opcode (s.fetchWord M cs)) = .PauseIR1) {k : ℕ} (hk : 6 + k < n) :
    (s.run M cs (6 + k)).State.isPause = true := by
  obtain ⟨-, -, -, -, -, h6⟩ := State_of_fetch (M := M) h hr hcs
  induction k with
  | zero => rw [Nat.add_zero, h6, hp]; rfl
  | succ k ih =>
      have hstep := step_of_isPause (c := cs (6 + k)) (M := M) (ih (by omega))
        (run_Reset_s hr (hcs.before _)) (hcs (6 + k))
      exact hstep.2.2.resolve_right (hn.2.2 (6 + (k + 1)) (by omega) hk)

/-- Any other instruction is executed until the next fetch. -/
theorem executing_until {n : ℕ} (hn : NextVisit At18 (s.run M cs) n)
    (hp : Isdu.decode (Instr.opcode (s.fetchWord M cs)) ≠ .PauseIR1) {k : ℕ} (hk : 6 + k < n) :
    executing (s.run M cs (6 + k)).State = true := by
  obtain ⟨-, -, -, -, -, h6⟩ := State_of_fetch (M := M) h hr hcs
  induction k with
  | zero =>
      have hne : (s.run M cs 6).State ≠ .S_18 := hn.2.2 6 (by omega) hk
      rw [h6] at hne
      rw [Nat.add_zero, h6]
      exact ((executing_decode _).resolve_left hp).resolve_left hne
  | succ k ih =>
      have hne : (s.run M cs (6 + k + 1)).State ≠ .S_18 := hn.2.2 (6 + (k + 1)) (by omega) hk
      rw [State_run_succ (M := M) hr hcs] at hne
      rw [← Nat.add_assoc, State_run_succ (M := M) hr hcs]
      exact (executing_nextState _ _ _ _ _ (ih (by omega))).resolve_right hne

/-- The state an instruction ends in. -/
theorem last_state {n : ℕ} (hn : NextVisit At18 (s.run M cs) n) :
    (s.run M cs (n - 1)).State = .PauseIR2
      ↔ Instr.opcode (s.fetchWord M cs) = SLC3_2.op_PSE := by
  obtain ⟨h1, h2, h3, h4, h5, h6⟩ := State_of_fetch (M := M) h hr hcs
  have hn6 : 6 ≤ n := by
    by_contra hlt
    obtain ⟨hpos, h18, -⟩ := hn
    rcases (by omega : n = 1 ∨ n = 2 ∨ n = 3 ∨ n = 4 ∨ n = 5) with rfl | rfl | rfl | rfl | rfl
    all_goals simp_all [At18]
  obtain ⟨j, rfl⟩ : ∃ j, n = 6 + j := ⟨n - 6, by omega⟩
  rw [← decode_eq_pause]
  by_cases hp : Isdu.decode (Instr.opcode (s.fetchWord M cs)) = .PauseIR1
  · refine iff_of_true ?_ hp
    have hj : 0 < j := by
      refine Nat.pos_of_ne_zero fun h0 => ?_
      have h18 : (s.run M cs 6).State = .S_18 := by
        have hv := hn.2.1
        rwa [h0] at hv
      rw [h6, hp] at h18
      exact absurd h18 (by decide)
    obtain ⟨k, rfl⟩ : ∃ k, j = k + 1 := ⟨j - 1, by omega⟩
    have hk := isPause_until h hr hcs hn hp (k := k) (by omega)
    have hnext : (s.run M cs (6 + k + 1)).State = .S_18 := hn.2.1
    rw [State_run_succ (M := M) hr hcs] at hnext
    show (s.run M cs (6 + k)).State = .PauseIR2
    have hcases : ∀ q : State, q.isPause = true → q = .PauseIR1 ∨ q = .PauseIR2 := by
      intro q
      cases q <;> decide
    refine (hcases _ hk).resolve_left fun h1 => ?_
    rw [h1] at hnext
    exact absurd hnext (by cases (s.run M cs (6 + k)).continueAh <;> simp [Isdu.nextState])
  · refine iff_of_false ?_ hp
    intro h2
    cases j with
    | zero => exact absurd (h5.symm.trans h2) (by decide)
    | succ j =>
        have hk := executing_until h hr hcs hn hp (k := j) (by omega)
        rw [show (s.run M cs (6 + j)).State = .PauseIR2 from h2] at hk
        exact absurd hk (by decide)

end Fetch

/-- The word at visit `n`. -/
def word (M : ExternalMemory μ) (s : System μ) (cs : ℕ → Cycle) (T : ℕ → ℕ) (n : ℕ) : BitVec 16 :=
  load M (s.run M cs (T n)).mem (cs (T n + 3)).S (s.run M cs (T n)).PC

theorem count_completes (h : At18 s) (hr : s.Reset_s = true) (hcs : NoReset cs) {N n : ℕ}
    (hT : Visits At18 (s.run M cs) T N) (hn : n < N) :
    Nat.count (Completes (s.run M cs)) (T (n + 1)) = Nat.count (Completes (s.run M cs)) (T n)
      + if Instr.opcode (word M s cs T n) = SLC3_2.op_PSE then 1 else 0 := by
  have hvisit := hT.succ n hn
  obtain ⟨d, hd⟩ : ∃ d, T (n + 1) = T n + (d + 1) := by
    have hlt := hT.lt hn
    exact ⟨T (n + 1) - T n - 1, by omega⟩
  have hrn : (s.run M cs (T n)).Reset_s = true := run_Reset_s hr (hcs.before _)
  rw [hd, Nat.add_sub_cancel_left] at hvisit
  have hlast := last_state (M := M) (h.run_visit hT (Nat.le_of_lt hn)) hrn (hcs.later (T n))
    (hvisit.congr fun k _ => run_later M s cs (T n) k)
  rw [← run_later, Nat.add_sub_cancel] at hlast
  have hnone : Nat.count (fun k => Completes (s.run M cs) (T n + k)) d = 0 :=
    Nat.count_iff_forall_not.mpr fun k hk hcomp =>
      hvisit.2.2 (k + 1) (Nat.succ_pos k) (by omega) hcomp.2
  have hiff : Completes (s.run M cs) (T n + d) ↔ Instr.opcode (word M s cs T n) = SLC3_2.op_PSE :=
    ⟨fun hcomp => hlast.mp hcomp.1, fun hw => ⟨hlast.mpr hw, hvisit.2.1⟩⟩
  rw [hd, Nat.count_add, Nat.count_succ, hnone, Nat.zero_add]
  simp only [hiff]

end System

end Ece385
