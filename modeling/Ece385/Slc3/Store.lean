import Ece385.Slc3.Encode
import Ece385.Slc3.Instr

/-!
# A store that is cut short

A store holds `Mem_WE` low for three cycles, and the memory takes what is on
`Data` at the end of each. What is on `Data` is `MDR` one cycle late: in
`S_16_1` the write buffer still holds what `MDR` held in `S_23`, the
instruction word. The two cycles that follow write the register. Reset after
the first of them leaves the instruction word in memory.

`beforeStore` counts the cycles from a control state to the nearest
`S_16_1`; nothing shortens the way by more than one per cycle, so the cycles
before a store are accounted for whatever the buttons do.
-/

namespace Ece385

open Isdu (State)
open Clocked

/-- A lower bound on the number of cycles to the next `S_16_1`. -/
def Isdu.State.beforeStore : State → ℕ
  | .S_16_1 => 0
  | .S_23 => 1
  | .S_07 => 2
  | .S_32 => 3
  | .S_35 => 4
  | .S_33_3 => 5
  | .S_33_2 => 6
  | .S_33_1 => 7
  | .S_18 => 8
  | _ => 9

namespace Isdu

theorem beforeStore_nextState (Run Continue BEN : Bool) (op : BitVec 4) (q : State) :
    q.beforeStore ≤ (nextState Run Continue BEN op q).beforeStore + 1 := by
  refine nextState_rel (P := fun q q' => q.beforeStore ≤ q'.beforeStore + 1) (by decide) ?_ ..
  intro q
  cases q <;> decide

theorem beforeStore_le (q : State) : q.beforeStore ≤ 9 := by
  cases q <;> decide

/-- The later cycles of a write follow the first. -/
theorem writes_nextState (Run Continue BEN : Bool) (op : BitVec 4) (q : State)
    (h : (nextState Run Continue BEN op q).writes = true) :
    nextState Run Continue BEN op q = .S_16_1 ∨ q.writes = true := by
  refine nextState_rel (P := fun q q' => q'.writes = true → q' = .S_16_1 ∨ q.writes = true)
    (by decide) ?_ Run Continue BEN op q h
  intro q
  cases q <;> decide

end Isdu

/-! ## The cycles of a run -/

namespace System

variable {s : System (BitVec 20 → BitVec 16)} {cs : ℕ → Cycle}

/-- A static RAM is written in the writing states and nowhere else. -/
theorem step_mem (s : System (BitVec 20 → BitVec 16)) (c : Cycle) :
    (s.step sram c).mem
      = if s.State.writes then Function.update s.mem s.addr s.Data_write_buffer else s.mem := by
  have hnow : s.memNow sram c.toInputs = s.mem := ite_self _
  have hmem := s.memNext_eq sram c.toInputs c.x
  rw [hnow] at hmem
  exact hmem.trans (ite_self _)

theorem beforeStore_step {μ : Type*} (M : ExternalMemory μ) (s : System μ) (c : Cycle) :
    s.State.beforeStore ≤ (s.step M c).State.beforeStore + 1 := by
  rw [step_State]
  cases s.resetAh with
  | false => exact Isdu.beforeStore_nextState _ _ _ _ _
  | true => exact Nat.le_succ_of_le (Isdu.beforeStore_le _)

theorem beforeStore_run {μ : Type*} (M : ExternalMemory μ) (s : System μ) (cs : ℕ → Cycle)
    (n : ℕ) : s.State.beforeStore ≤ (s.run M cs n).State.beforeStore + n := by
  induction n with
  | zero => exact Nat.le_refl _
  | succ n ih =>
      have h := beforeStore_step M (s.run M cs n) (cs n)
      rw [← run_step] at h
      omega

/-- Without an `S_16_1` the memory keeps its contents. -/
theorem mem_of_no_store {n : ℕ} (hs : s.State.writes = false)
    (hq : ∀ k, k < n → (s.run sram cs k).State ≠ .S_16_1) : (s.run sram cs n).mem = s.mem := by
  have hw : ∀ k, k < n → (s.run sram cs k).State.writes = false := by
    intro k
    induction k with
    | zero => exact fun _ => hs
    | succ k ih =>
        intro hk
        have hne := hq (k + 1) hk
        rw [run_step, step_State] at hne ⊢
        split
        · rfl
        · next hres =>
          rw [if_neg hres] at hne
          refine Bool.eq_false_iff.mpr fun hwr => ?_
          rcases Isdu.writes_nextState _ _ _ _ _ hwr with h | h
          · exact hne h
          · exact Bool.false_ne_true ((ih (Nat.lt_of_succ_lt hk)).symm.trans h)
  refine run_invariant (P := fun _ (q : System (BitVec 20 → BitVec 16)) => q.mem = s.mem) n rfl ?_
  intro k hk hmem
  have hstep := step_mem (s.run sram cs k) (cs k)
  rw [hw k hk] at hstep
  exact hstep.trans hmem

/-! ## The store -/

theorem writes_of_at18 (h : At18 s) : s.State.writes = false := by
  rw [show s.State = .S_18 from h]
  rfl

theorem no_store_before (h : At18 s) {k : ℕ} (hk : k < 8) :
    (s.run sram cs k).State ≠ .S_16_1 := by
  intro hstore
  have hle := beforeStore_run sram s cs k
  rw [hstore, show s.State = .S_18 from h] at hle
  exact absurd (show 8 ≤ 0 + k from hle) (by omega)

theorem mem_before_store (h : At18 s) {n : ℕ} (hn : n ≤ 8) : (s.run sram cs n).mem = s.mem :=
  mem_of_no_store (writes_of_at18 h) fun _ hk =>
    no_store_before h (Nat.lt_of_lt_of_le hk hn)

/-- The state in which the first write cycle finds the machine, eight cycles
after `S_18`: the write buffer is the instruction word. -/
theorem run_eight (h : At18 s) (hr : ∀ k, k < 8 → (s.run sram cs k).Reset_s = true)
    (hw : Instr.opcode (s.fetchWord sram cs) = SLC3_2.op_STR) :
    let w := s.fetchWord sram cs
    let q := s.run sram cs 8
    q.State = .S_16_1 ∧ q.MAR = s.reg_file (Instr.sr1 w) + Instr.off6 w
      ∧ q.MDR = s.reg_file (Instr.dr w) ∧ q.Data_write_buffer = w ∧ q.mem = s.mem := by
  intro w q
  have hcs : NoResetBefore 7 cs := fun k hk => hr (k + 1) (Nat.succ_lt_succ hk)
  have hlead := leads_fetch (M := sram) h (hr 0 (by decide)) hcs.released
  have hw' : s.fetchWord sram (released 7 cs) = w := by rw [fetchWord, released_S]; rfl
  have h5 : s.run sram cs 5 = s.fetched sram (released 7 cs) :=
    (run_released sram s cs (by decide)).symm.trans hlead.1
  have hd : Isdu.decode (Instr.opcode w) = .S_07 := by rw [hw]; rfl
  have h6 := run_toSlc3 sram s cs 5 (hr 5 (by decide))
  have h7 := run_toSlc3 sram s cs 6 (hr 6 (by decide))
  have h8 := run_toSlc3 sram s cs 7 (hr 7 (by decide))
  rw [h5] at h6
  rw [h6] at h7
  rw [h7] at h8
  refine ⟨?_, ?_, ?_, ?_, mem_before_store h (Nat.le_refl 8)⟩
  all_goals simp [q, h8, Slc3.latch, Slc3.transfer, fetched, hw', hd]

/-- What holds from the end of the first write cycle until another store: the
target has the instruction word or the register, and what is still to be
written is the register. -/
structure Storing (m : BitVec 20 → BitVec 16) (a w v : BitVec 16)
    (q : System (BitVec 20 → BitVec 16)) : Prop where
  mem : q.mem = Function.update m (0#4 ++ a) w ∨ q.mem = Function.update m (0#4 ++ a) v
  writes : q.State.writes = true → q.MAR = a ∧ q.Data_write_buffer = v ∧ q.MDR = v

section Storing

variable {m : BitVec 20 → BitVec 16} {a w v : BitVec 16} {q : System (BitVec 20 → BitVec 16)}

theorem Storing.mem_step (h : Storing m a w v q) (c : Cycle) :
    (q.step sram c).mem = Function.update m (0#4 ++ a) w
      ∨ (q.step sram c).mem = Function.update m (0#4 ++ a) v := by
  rw [step_mem]
  split
  · next hwr =>
    obtain ⟨hMAR, hbuf, -⟩ := h.writes hwr
    refine Or.inr ?_
    rw [Slc3.addr, hMAR, hbuf]
    rcases h.mem with hm | hm <;> rw [hm, Function.update_idem]
  · exact h.mem

theorem Storing.step (h : Storing m a w v q) {c : Cycle}
    (hne : (q.step sram c).State ≠ .S_16_1) : Storing m a w v (q.step sram c) := by
  refine ⟨h.mem_step c, fun hwr => ?_⟩
  cases hr : q.Reset_s with
  | false =>
      rw [step_State, Slc3.resetAh, hr] at hwr
      exact absurd hwr Bool.false_ne_true
  | true =>
      have hprev : q.State.writes = true := by
        rw [step_State, Slc3.resetAh, hr] at hwr hne
        exact (Isdu.writes_nextState _ _ _ _ _ hwr).resolve_left hne
      obtain ⟨hMAR, -, hMDR⟩ := h.writes hprev
      have hstep := step_toSlc3 sram q c hr
      cases hs : q.State <;> rw [hs] at hprev <;> simp [State.writes] at hprev
      all_goals simp [hstep, Slc3.latch, Slc3.transfer, hs, hMAR, hMDR]

theorem Storing.run (h : Storing m a w v q) (ds : ℕ → Cycle) (n : ℕ)
    (hne : ∀ k, 0 < k → k < n → (q.run sram ds k).State ≠ .S_16_1) :
    (q.run sram ds n).mem = Function.update m (0#4 ++ a) w
      ∨ (q.run sram ds n).mem = Function.update m (0#4 ++ a) v := by
  have hst : ∀ k, k < n → Storing m a w v (q.run sram ds k) := by
    intro k
    induction k with
    | zero => exact fun _ => h
    | succ k ih => exact fun hk => (ih (by omega)).step (hne (k + 1) (Nat.succ_pos k) hk)
  cases n with
  | zero => exact h.mem
  | succ n => exact (hst n (Nat.lt_succ_self n)).mem_step (ds n)

end Storing

/-- Old value or new value at the target, and nothing else touched, until
another store begins. -/
def StoreAtomic (s : System (BitVec 20 → BitVec 16)) (cs : ℕ → Cycle) (a v : BitVec 16) : Prop :=
  ∀ n, (∀ k, 8 < k → k < n → (s.run sram cs k).State ≠ .S_16_1) →
    ((s.run sram cs n).mem (0#4 ++ a) = s.mem (0#4 ++ a) ∨ (s.run sram cs n).mem (0#4 ++ a) = v)
    ∧ ∀ b, b ≠ 0#4 ++ a → (s.run sram cs n).mem b = s.mem b

/-- A reset in the first eight cycles comes before the store. -/
theorem no_store_of_reset (h : At18 s) {r : ℕ} (hr8 : r < 8)
    (hr : (s.run sram cs r).resetAh = true) {k : ℕ} (hk : k ≤ 8) :
    (s.run sram cs k).State ≠ .S_16_1 := by
  by_cases hk8 : k < 8
  · exact no_store_before h hk8
  · intro hstore
    obtain ⟨j, rfl⟩ : ∃ j, k = r + 1 + j := ⟨k - (r + 1), by omega⟩
    have hhalt : (s.run sram cs (r + 1)).State = .Halted := by
      rw [run_step, step_State, if_pos hr]
    have hle := beforeStore_run sram (s.run sram cs (r + 1)) (later (r + 1) cs) j
    rw [← run_later, hstore, hhalt] at hle
    exact absurd (show 9 ≤ 0 + j from hle) (by omega)

/-- After the first write cycle. -/
theorem storing_nine (h : At18 s) (hr : ∀ k, k < 8 → (s.run sram cs k).Reset_s = true)
    (hw : Instr.opcode (s.fetchWord sram cs) = SLC3_2.op_STR) :
    let w := s.fetchWord sram cs
    (s.run sram cs 9).mem
        = Function.update s.mem (0#4 ++ (s.reg_file (Instr.sr1 w) + Instr.off6 w)) w
      ∧ Storing s.mem (s.reg_file (Instr.sr1 w) + Instr.off6 w) w (s.reg_file (Instr.dr w))
        (s.run sram cs 9) := by
  intro w
  obtain ⟨hState, hMAR, hMDR, hbuf, hmem⟩ := run_eight h hr hw
  have hmem9 := step_mem (s.run sram cs 8) (cs 8)
  have hwrites : State.writes .S_16_1 = true := rfl
  rw [hState, if_pos hwrites, hmem, Slc3.addr, hMAR, hbuf] at hmem9
  refine ⟨hmem9, Or.inl hmem9, fun hwr => ?_⟩
  cases hr8 : (s.run sram cs 8).Reset_s with
  | false =>
      rw [run_step, step_State, Slc3.resetAh, hr8] at hwr
      exact absurd hwr Bool.false_ne_true
  | true =>
      have h9 := run_toSlc3 sram s cs 8 hr8
      simp [h9, Slc3.latch, Slc3.transfer, hState, hMAR, hMDR, w]

/-- A store that never starts is atomic. -/
theorem storeAtomic_of_reset (h : At18 s) {r : ℕ} (hr8 : r < 8)
    (hr : (s.run sram cs r).resetAh = true) (a v : BitVec 16) : StoreAtomic s cs a v := by
  intro n hn
  have hmem : (s.run sram cs n).mem = s.mem := by
    refine mem_of_no_store (writes_of_at18 h) fun k hk => ?_
    by_cases hk8 : k ≤ 8
    · exact no_store_of_reset h hr8 hr hk8
    · exact hn k (by omega) hk
  exact ⟨Or.inl (congrFun hmem _), fun b _ => congrFun hmem b⟩

/-- A store that starts leaves the instruction word or the register. -/
theorem mem_of_store (h : At18 s) (hr : ∀ k, k < 8 → (s.run sram cs k).Reset_s = true)
    (hw : Instr.opcode (s.fetchWord sram cs) = SLC3_2.op_STR) {n : ℕ} (hn8 : 8 < n)
    (hn : ∀ k, 8 < k → k < n → (s.run sram cs k).State ≠ .S_16_1) :
    let w := s.fetchWord sram cs
    let a := s.reg_file (Instr.sr1 w) + Instr.off6 w
    (s.run sram cs n).mem = Function.update s.mem (0#4 ++ a) w
      ∨ (s.run sram cs n).mem = Function.update s.mem (0#4 ++ a) (s.reg_file (Instr.dr w)) := by
  intro w a
  obtain ⟨j, rfl⟩ : ∃ j, n = 9 + j := ⟨n - 9, by omega⟩
  rw [run_later]
  refine (storing_nine h hr hw).2.run (later 9 cs) j fun k hk hkj => ?_
  rw [← run_later]
  exact hn (9 + k) (by omega) (by omega)

/-- **When a store is atomic.** -/
theorem store_atomic_iff (h : At18 s) (hw : Instr.opcode (s.fetchWord sram cs) = SLC3_2.op_STR) :
    let w := s.fetchWord sram cs
    let a := s.reg_file (Instr.sr1 w) + Instr.off6 w
    let v := s.reg_file (Instr.dr w)
    StoreAtomic s cs a v
      ↔ (∃ k, k < 8 ∧ (s.run sram cs k).resetAh = true) ∨ w = s.mem (0#4 ++ a) ∨ w = v := by
  intro w a v
  by_cases hres : ∃ k, k < 8 ∧ (s.run sram cs k).resetAh = true
  · obtain ⟨r, hr8, hr⟩ := hres
    exact iff_of_true (storeAtomic_of_reset h hr8 hr a v) (Or.inl ⟨r, hr8, hr⟩)
  · have hr : ∀ k, k < 8 → (s.run sram cs k).Reset_s = true := by
      intro k hk
      cases hk' : (s.run sram cs k).Reset_s with
      | true => rfl
      | false => exact absurd ⟨k, hk, by rw [Slc3.resetAh, hk']; rfl⟩ hres
    constructor
    · intro hat
      have h9 := (hat 9 (fun k hk hk' => by omega)).1
      rw [(storing_nine h hr hw).1, Function.update_self] at h9
      exact Or.inr h9
    · intro hw' n hn
      replace hw' : w = s.mem (0#4 ++ a) ∨ w = v := hw'.resolve_left hres
      by_cases hn8 : n ≤ 8
      · have hmem : (s.run sram cs n).mem = s.mem := mem_before_store h hn8
        exact ⟨Or.inl (congrFun hmem _), fun b _ => congrFun hmem b⟩
      · rcases mem_of_store h hr hw (Nat.lt_of_not_le hn8) hn with hmem | hmem <;> rw [hmem]
        · exact ⟨by rwa [Function.update_self], fun b hb => Function.update_of_ne hb _ _⟩
        · exact ⟨Or.inr (Function.update_self _ _ _), fun b hb => Function.update_of_ne hb _ _⟩

/-- Storing over a copy of the instruction itself. -/
theorem store_atomic_copy :
    let s : System (BitVec 20 → BitVec 16) :=
      { cleared fun _ => SLC3_2.opSTR SLC3_2.R0 SLC3_2.R0 5 with State := .S_18 }
    StoreAtomic s (fun _ => Cycle.idle 0) 5 0 := by
  intro s
  have hw : s.fetchWord sram (fun _ => Cycle.idle 0) = SLC3_2.opSTR SLC3_2.R0 SLC3_2.R0 5 := by
    decide
  have hop : Instr.opcode (s.fetchWord sram fun _ => Cycle.idle 0) = SLC3_2.op_STR := by decide
  have h := store_atomic_iff (show At18 s from rfl) hop
  simp only [hw] at h
  have ha : s.reg_file (Instr.sr1 (SLC3_2.opSTR SLC3_2.R0 SLC3_2.R0 5))
      + Instr.off6 (SLC3_2.opSTR SLC3_2.R0 SLC3_2.R0 5) = 5#16 := by
    decide
  rw [ha] at h
  exact h.mpr (Or.inr (Or.inl rfl))

/-- `mem[5] <- R0` over a 1, with the reset button down for one cycle: the
word in memory is, and stays, the instruction. -/
theorem store_torn_by_reset :
    let m : BitVec 20 → BitVec 16 :=
      fun a => if a = 0 then SLC3_2.opSTR SLC3_2.R0 SLC3_2.R0 5 else 1
    let cs : ℕ → Cycle := fun k => { Cycle.start 0 k with Reset := k != 9 }
    let s := (cleared m).run sram cs 2
    At18 s ∧ s.fetchWord sram (later 2 cs) = SLC3_2.opSTR SLC3_2.R0 SLC3_2.R0 5
      ∧ s.reg_file SLC3_2.R0 = 0 ∧ s.mem 5 = 1
      ∧ (s.run sram (later 2 cs) 9).State = .Halted
      ∧ (s.run sram (later 2 cs) 40).mem 5 = SLC3_2.opSTR SLC3_2.R0 SLC3_2.R0 5
      ∧ ¬StoreAtomic s (later 2 cs) 5 0 := by
  refine ⟨rfl, by decide +kernel, rfl, rfl, by decide +kernel, by decide +kernel, fun h => ?_⟩
  have h9 := (h 9 fun k hk hk' => by omega).1
  revert h9
  decide +kernel

end System

end Ece385
