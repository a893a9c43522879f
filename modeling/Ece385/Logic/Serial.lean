import Mathlib.Data.List.Basic
import Mathlib.Tactic.IntervalCases
import Ece385.Arith.Window
import Ece385.Logic.Processor

/-!
# One execution

From `B` to `J` the two registers are shifted eight times, and in each cycle
the bits that leave them are routed back in at the top. `operate` is the
operation on whole words; an `execute` takes each bit from the `operate` that
the selects of its own cycle ask for. `serial_run` is the invariant: each
register is a window that starts in the operand and ends in the result.
-/

namespace Ece385

namespace Processor8

open Clocked Window

/-! ## Operations on words -/

/-- `compute` on words. -/
def logicOp (F : BitVec 3) (a b : BitVec 8) : BitVec 8 :=
  match F with
  | 0b000#3 => a &&& b
  | 0b001#3 => a ||| b
  | 0b010#3 => a ^^^ b
  | 0b011#3 => BitVec.allOnes 8
  | 0b100#3 => ~~~(a &&& b)
  | 0b101#3 => ~~~(a ||| b)
  | 0b110#3 => ~~~(a ^^^ b)
  | _ => 0

/-- What an execution does with the selects held. -/
def operate (F : BitVec 3) (R : BitVec 2) (w : BitVec 8 × BitVec 8) : BitVec 8 × BitVec 8 :=
  match R with
  | 0b00#2 => w
  | 0b01#2 => (w.1, logicOp F w.1 w.2)
  | 0b10#2 => (logicOp F w.1 w.2, w.2)
  | _ => (w.2, w.1)

section Routes

variable (F : BitVec 3) (w : BitVec 8 × BitVec 8)

theorem operate_keep : operate F 0b00#2 w = w := rfl

theorem operate_to_B : operate F 0b01#2 w = (w.1, logicOp F w.1 w.2) := rfl

theorem operate_to_A : operate F 0b10#2 w = (logicOp F w.1 w.2, w.2) := rfl

theorem operate_swap : operate F 0b11#2 w = (w.2, w.1) := rfl

end Routes

/-- What an execution does when bit `i` is computed with `F i` and `R i`. -/
def execute (F : ℕ → BitVec 3) (R : ℕ → BitVec 2) (w : BitVec 8 × BitVec 8) :
    BitVec 8 × BitVec 8 :=
  (ofBits 8 fun i => (operate (F i) (R i) w).1.getLsbD i,
    ofBits 8 fun i => (operate (F i) (R i) w).2.getLsbD i)

theorem execute_held {F : ℕ → BitVec 3} {R : ℕ → BitVec 2} {f : BitVec 3} {r : BitVec 2}
    (h : ∀ i, i < 8 → F i = f ∧ R i = r) (w : BitVec 8 × BitVec 8) :
    execute F R w = operate f r w := by
  have hbits : ∀ i, i < 8 → operate f r w = operate (F i) (R i) w := by
    intro i hi
    rw [(h i hi).1, (h i hi).2]
  exact Prod.ext (eq_ofBits fun i hi => by rw [hbits i hi]).symm
    (eq_ofBits fun i hi => by rw [hbits i hi]).symm

theorem getLsbD_logicOp (F : BitVec 3) (a b : BitVec 8) {i : ℕ} (hi : i < 8) :
    (logicOp F a b).getLsbD i = compute F (a.getLsbD i) (b.getLsbD i) := by
  unfold logicOp compute
  split
  case h_4 =>
    exact BitVec.getLsbD_allOnes.trans (decide_eq_true hi)
  all_goals simp [hi]

theorem routing_cases : ∀ R : BitVec 2, R = 0b00#2 ∨ R = 0b01#2 ∨ R = 0b10#2 ∨ R = 0b11#2 := by
  decide

/-- One bit through the ALU and the router. -/
theorem router_compute (F : BitVec 3) (R : BitVec 2) (w : BitVec 8 × BitVec 8) {i : ℕ}
    (hi : i < 8) :
    router R (w.1.getLsbD i) (w.2.getLsbD i) (compute F (w.1.getLsbD i) (w.2.getLsbD i))
      = ((operate F R w).1.getLsbD i, (operate F R w).2.getLsbD i) := by
  rw [← getLsbD_logicOp F w.1 w.2 hi]
  rcases routing_cases R with rfl | rfl | rfl | rfl <;> rfl

/-! ## The eight shifts -/

/-- The state that shifts bit `k`; after the last comes `J`. -/
def shiftState : ℕ → State
  | 0 => .B
  | 1 => .C
  | 2 => .D
  | 3 => .E
  | 4 => .F
  | 5 => .G
  | 6 => .H
  | 7 => .I
  | _ => .J

theorem shiftState_succ : ∀ k, k < 8 →
    (∀ Execute, nextState Execute (shiftState k) = shiftState (k + 1))
    ∧ ∀ LoadA LoadB, (controls LoadA LoadB (shiftState k)).Shift_En = true := by
  decide

theorem shiftState_ne_B {k : ℕ} (hk : 0 < k) (hk8 : k ≤ 8) : shiftState k ≠ .B := by
  interval_cases k <;> decide

variable {p : Processor8} {ins : ℕ → Inputs} {j k : ℕ}

/-- The result of the execution that is entered in cycle `j`. -/
def result (p : Processor8) (ins : ℕ → Inputs) (j : ℕ) : BitVec 8 × BitVec 8 :=
  execute (fun i => (p.run ins (j + i)).F_S) (fun i => (p.run ins (j + i)).R_S) (p.run ins j).words

theorem serial_run (hj : (p.run ins j).curr_state = .B)
    (hr : ∀ i, i < k → (p.run ins (j + i)).Reset_SH = false) (hk : k ≤ 8) :
    (p.run ins (j + k)).curr_state = shiftState k
      ∧ (p.run ins (j + k)).A = window (p.result ins j).1 (p.run ins j).A k
      ∧ (p.run ins (j + k)).B = window (p.result ins j).2 (p.run ins j).B k := by
  induction k with
  | zero => exact ⟨hj, (window_zero _ _).symm, (window_zero _ _).symm⟩
  | succ k ih =>
      obtain ⟨hstate, hA, hB⟩ := ih (fun i hi => hr i (by omega)) (by omega)
      obtain ⟨hnext, hshift⟩ := shiftState_succ k (by omega)
      have hrk := hr k (Nat.lt_succ_self k)
      have hen : (p.run ins (j + k)).ctl.Shift_En = true := by
        rw [ctl, hstate]
        exact hshift _ _
      obtain ⟨hA', hB'⟩ := (p.run ins (j + k)).next_shift (ins (j + k)) hen hrk
      have hbit := router_compute (p.run ins (j + k)).F_S (p.run ins (j + k)).R_S
        (p.run ins j).words (show k < 8 by omega)
      have hnewA : (p.run ins (j + k)).newA = (p.result ins j).1.getLsbD k := by
        rw [newA, fAB, hA, hB, window_out _ _ (by omega), window_out _ _ (by omega), result,
          execute, getLsbD_ofBits _ (by omega)]
        exact congrArg Prod.fst hbit
      have hnewB : (p.run ins (j + k)).newB = (p.result ins j).2.getLsbD k := by
        rw [newB, fAB, hA, hB, window_out _ _ (by omega), window_out _ _ (by omega), result,
          execute, getLsbD_ofBits _ (by omega)]
        exact congrArg Prod.snd hbit
      rw [← Nat.add_assoc, run_step]
      refine ⟨?_, ?_, ?_⟩
      · rw [next_curr_state _ _ hrk, hstate, hnext]
      · rw [hA', hnewA, hA, window_succ]
      · rw [hB', hnewB, hB, window_succ]

theorem serial_done (hj : (p.run ins j).curr_state = .B)
    (hr : ∀ k, k < 8 → (p.run ins (j + k)).Reset_SH = false) :
    (p.run ins (j + 8)).curr_state = .J ∧ (p.run ins (j + 8)).words = p.result ins j := by
  obtain ⟨hstate, hA, hB⟩ := serial_run hj hr (Nat.le_refl 8)
  refine ⟨hstate, Prod.ext ?_ ?_⟩
  · exact hA.trans (window_self _ _)
  · exact hB.trans (window_self _ _)

theorem serial_bits (hj : (p.run ins j).curr_state = .B)
    (hr : ∀ k, k < 8 → (p.run ins (j + k)).Reset_SH = false) {i : ℕ} (hi : i < 8)
    {f : BitVec 3} {r : BitVec 2} (hf : (p.run ins (j + i)).F_S = f)
    (hR : (p.run ins (j + i)).R_S = r) :
    (p.run ins (j + 8)).A.getLsbD i = (operate f r (p.run ins j).words).1.getLsbD i
      ∧ (p.run ins (j + 8)).B.getLsbD i = (operate f r (p.run ins j).words).2.getLsbD i := by
  obtain ⟨-, hwords⟩ := serial_done hj hr
  have hA : (p.run ins (j + 8)).A = (p.result ins j).1 := congrArg Prod.fst hwords
  have hB : (p.run ins (j + 8)).B = (p.result ins j).2 := congrArg Prod.snd hwords
  subst hf hR
  rw [hA, hB]
  exact ⟨getLsbD_ofBits _ hi, getLsbD_ofBits _ hi⟩

/-- The execution entered in cycle `j`: bit by bit, and as a whole when the
selects are held. -/
structure Executed (p : Processor8) (ins : ℕ → Inputs) (j : ℕ) : Prop where
  done : (p.run ins (j + 8)).curr_state = .J
  keep : ∀ i, i < 8 → (p.run ins (j + i)).R_S = 0b00#2 →
    (p.run ins (j + 8)).A.getLsbD i = (p.run ins j).A.getLsbD i
      ∧ (p.run ins (j + 8)).B.getLsbD i = (p.run ins j).B.getLsbD i
  to_B : ∀ i, i < 8 → (p.run ins (j + i)).R_S = 0b01#2 →
    (p.run ins (j + 8)).A.getLsbD i = (p.run ins j).A.getLsbD i
      ∧ (p.run ins (j + 8)).B.getLsbD i
        = (logicOp (p.run ins (j + i)).F_S (p.run ins j).A (p.run ins j).B).getLsbD i
  to_A : ∀ i, i < 8 → (p.run ins (j + i)).R_S = 0b10#2 →
    (p.run ins (j + 8)).A.getLsbD i
        = (logicOp (p.run ins (j + i)).F_S (p.run ins j).A (p.run ins j).B).getLsbD i
      ∧ (p.run ins (j + 8)).B.getLsbD i = (p.run ins j).B.getLsbD i
  swap : ∀ i, i < 8 → (p.run ins (j + i)).R_S = 0b11#2 →
    (p.run ins (j + 8)).A.getLsbD i = (p.run ins j).B.getLsbD i
      ∧ (p.run ins (j + 8)).B.getLsbD i = (p.run ins j).A.getLsbD i
  held : ∀ f r, (∀ i, i < 8 → (p.run ins (j + i)).F_S = f ∧ (p.run ins (j + i)).R_S = r) →
    (p.run ins (j + 8)).words = operate f r (p.run ins j).words

theorem executed (hj : (p.run ins j).curr_state = .B)
    (hr : ∀ k, k < 8 → (p.run ins (j + k)).Reset_SH = false) : p.Executed ins j where
  done := (serial_done hj hr).1
  keep _ hi hR := by
    have hbits := serial_bits hj hr hi rfl hR
    rw [operate_keep] at hbits
    exact hbits
  to_B _ hi hR := by
    have hbits := serial_bits hj hr hi rfl hR
    rw [operate_to_B] at hbits
    exact hbits
  to_A _ hi hR := by
    have hbits := serial_bits hj hr hi rfl hR
    rw [operate_to_A] at hbits
    exact hbits
  swap _ hi hR := by
    have hbits := serial_bits hj hr hi rfl hR
    rw [operate_swap] at hbits
    exact hbits
  held _ _ hheld := (serial_done hj hr).2.trans (execute_held hheld _)

/-! ## Waiting -/

def State.idle : State → Bool
  | .A | .J => true
  | _ => false

theorem nextState_idle : ∀ Execute s, s.idle = true → nextState Execute s ≠ .B →
    (nextState Execute s).idle = true := by
  intro Execute s
  cases s <;> cases Execute <;> decide

/-- Nothing is loaded in this cycle. -/
def NoLoad (p : Processor8) : Prop :=
  p.curr_state = .A → p.LoadA_SH = false ∧ p.LoadB_SH = false

theorem next_words_idle {i : Inputs} (h : p.curr_state.idle = true) (hload : p.NoLoad)
    (hr : p.Reset_SH = false) : (p.next i).words = p.words := by
  have hctl : p.ctl = { Ld_A := false, Ld_B := false, Shift_En := false } := by
    unfold ctl
    cases hs : p.curr_state <;> rw [hs] at h <;> simp [State.idle] at h
    · obtain ⟨hA, hB⟩ := hload hs
      rw [hA, hB]
      rfl
    · rfl
  rw [next_idle p i (by rw [hctl]) hr, hctl]
  rfl

theorem waiting (hj : (p.run ins j).curr_state.idle = true)
    (hr : ∀ i, i < k → (p.run ins (j + i)).Reset_SH = false)
    (hload : ∀ i, i < k → (p.run ins (j + i)).NoLoad)
    (hB : ∀ i, i < k → (p.run ins (j + i)).curr_state ≠ .B) :
    ((p.run ins (j + k)).curr_state.idle = true ∨ (p.run ins (j + k)).curr_state = .B)
      ∧ (p.run ins (j + k)).words = (p.run ins j).words := by
  induction k with
  | zero => exact ⟨Or.inl hj, rfl⟩
  | succ k ih =>
      obtain ⟨hstate, hwords⟩ := ih (fun i hi => hr i (by omega)) (fun i hi => hload i (by omega))
        fun i hi => hB i (by omega)
      have hidle : (p.run ins (j + k)).curr_state.idle = true :=
        hstate.resolve_right (hB k (Nat.lt_succ_self k))
      have hrk := hr k (Nat.lt_succ_self k)
      rw [← Nat.add_assoc, run_step]
      refine ⟨?_, (next_words_idle hidle (hload k (Nat.lt_succ_self k)) hrk).trans hwords⟩
      rw [next_curr_state _ _ hrk]
      by_cases hnext : nextState (p.run ins (j + k)).Execute_SH (p.run ins (j + k)).curr_state = .B
      · exact Or.inr hnext
      · exact Or.inl (nextState_idle _ _ hidle hnext)

/-! ## One execution after another -/

/-- `n + 1` executions, entered in the cycles `t 0`, .., `t n`, with no reset
and no load in between. -/
structure Executions (p : Processor8) (ins : ℕ → Inputs) (n : ℕ) (t : ℕ → ℕ) : Prop where
  entry : ∀ i, i ≤ n → (p.run ins (t i)).curr_state = .B
  later : ∀ i, i < n → t i < t (i + 1)
  next : ∀ i, i < n → ∀ k, t i < k → k < t (i + 1) → (p.run ins k).curr_state ≠ .B
  no_reset : ∀ k, t 0 ≤ k → k < t n + 8 → (p.run ins k).Reset_SH = false
  no_load : ∀ k, t 0 ≤ k → k < t n + 8 → (p.run ins k).NoLoad

namespace Executions

variable {n i : ℕ} {t : ℕ → ℕ}

theorem mono (h : Executions p ins n t) {i d : ℕ} (hd : i + d ≤ n) : t i ≤ t (i + d) := by
  induction d with
  | zero => exact Nat.le_refl _
  | succ d ih => exact Nat.le_trans (ih (by omega)) (Nat.le_of_lt (h.later (i + d) (by omega)))

theorem within (h : Executions p ins n t) (hi : i ≤ n) : t 0 ≤ t i ∧ t i ≤ t n := by
  have h0 := h.mono (i := 0) (d := i) (by omega)
  have hn := h.mono (i := i) (d := n - i) (by omega)
  rw [Nat.zero_add] at h0
  rw [Nat.add_sub_cancel' hi] at hn
  exact ⟨h0, hn⟩

theorem one (h : Executions p ins n t) (hi : i ≤ n) :
    (p.run ins (t i + 8)).curr_state = .J ∧ (p.run ins (t i + 8)).words = p.result ins (t i) := by
  have hw := h.within hi
  exact serial_done (h.entry i hi) fun k hk => h.no_reset _ (by omega) (by omega)

/-- The next execution starts with the result of the one before. -/
theorem handed_on (h : Executions p ins n t) (hi : i < n) :
    (p.run ins (t (i + 1))).words = p.result ins (t i) := by
  have hw := h.within (show i ≤ n by omega)
  have hw' := h.within (show i + 1 ≤ n by omega)
  have hlater := h.later i hi
  obtain ⟨hJ, hwords⟩ := h.one (show i ≤ n by omega)
  have hfar : t i + 8 < t (i + 1) := by
    refine Nat.lt_of_not_le fun hle => ?_
    obtain ⟨d, hd⟩ := Nat.exists_eq_add_of_lt hlater
    have hB := h.entry (i + 1) (by omega)
    have hstate := serial_run (k := d + 1) (h.entry i (by omega))
      (fun k hk => h.no_reset _ (by omega) (by omega)) (by omega)
    rw [hd, Nat.add_assoc, hstate.1] at hB
    exact shiftState_ne_B (Nat.succ_pos d) (by omega) hB
  obtain ⟨d, hd⟩ := Nat.exists_eq_add_of_le (Nat.le_of_lt hfar)
  have hwait := waiting (k := d) (show (p.run ins (t i + 8)).curr_state.idle = true by rw [hJ]; rfl)
    (fun k hk => h.no_reset _ (by omega) (by omega)) (fun k hk => h.no_load _ (by omega) (by omega))
    fun k hk => h.next i hi _ (by omega) (by omega)
  rw [hd, hwait.2, hwords]

theorem composed (h : Executions p ins n t) (hi : i ≤ n) :
    (p.run ins (t i + 8)).words
      = (List.range (i + 1)).foldl (fun w l => execute (fun k => (p.run ins (t l + k)).F_S)
          (fun k => (p.run ins (t l + k)).R_S) w) (p.run ins (t 0)).words := by
  induction i with
  | zero => exact (h.one hi).2
  | succ i ih =>
      have hdone := (h.one (show i ≤ n by omega)).2
      have hstart := h.handed_on (show i < n by omega)
      rw [List.range_succ, List.foldl_append, ← ih (by omega), (h.one hi).2, result, hstart,
        ← hdone]
      rfl

theorem composed_held (h : Executions p ins n t) {f : ℕ → BitVec 3} {r : ℕ → BitVec 2}
    (hheld : ∀ i, i ≤ n → ∀ k, k < 8 →
      (p.run ins (t i + k)).F_S = f i ∧ (p.run ins (t i + k)).R_S = r i) (hi : i ≤ n) :
    (p.run ins (t i + 8)).words
      = (List.range (i + 1)).foldl (fun w l => operate (f l) (r l) w) (p.run ins (t 0)).words := by
  rw [h.composed hi]
  refine List.foldl_ext _ _ _ fun w l hl => ?_
  have hli := List.mem_range.mp hl
  exact execute_held (hheld l (by omega)) w

end Executions

/-- **The serial processor computes the 8-bit operation**, once and `n + 1`
times in a row. -/
theorem serial_execution (p : Processor8) (ins : ℕ → Inputs) :
    (∀ j, (p.run ins j).curr_state = .B →
        (∀ k, k < 8 → (p.run ins (j + k)).Reset_SH = false) → p.Executed ins j)
    ∧ ∀ n t, p.Executions ins n t →
        (p.run ins (t n + 8)).words
          = (List.range (n + 1)).foldl (fun w i => execute (fun k => (p.run ins (t i + k)).F_S)
              (fun k => (p.run ins (t i + k)).R_S) w) (p.run ins (t 0)).words
        ∧ ∀ (f : ℕ → BitVec 3) (r : ℕ → BitVec 2), (∀ i, i ≤ n → ∀ k, k < 8 →
            (p.run ins (t i + k)).F_S = f i ∧ (p.run ins (t i + k)).R_S = r i) →
          (p.run ins (t n + 8)).words
            = (List.range (n + 1)).foldl (fun w i => operate (f i) (r i) w)
                (p.run ins (t 0)).words :=
  ⟨fun _ hj hr => executed hj hr, fun n _ h =>
    ⟨h.composed (Nat.le_refl n), fun _ _ hheld => h.composed_held hheld (Nat.le_refl n)⟩⟩

/-- `A <- A XOR B` twice in a row gives `A` back. -/
theorem serial_execution_twice :
    let p : Processor8 :=
      { curr_state := .A, A := 0x5A, B := 0x3C, Reset_SH := false, LoadA_SH := false
        LoadB_SH := false, Execute_SH := false, Din_S := 0, F_S := 0b010, R_S := 0b10 }
    let ins : ℕ → Inputs := fun k =>
      { Reset := true, LoadA := true, LoadB := true, Execute := k != 0 && k != 11
        Din := 0, F := 0b010, R := 0b10 }
    p.Executions ins 1 (fun i => 2 + 11 * i) ∧ (p.run ins 21).words = (0x5A, 0x3C) := by
  intro p ins
  have hquiet : ∀ k < 22, (p.run ins k).Reset_SH = false ∧ (p.run ins k).LoadA_SH = false
      ∧ (p.run ins k).LoadB_SH = false := by
    decide
  have hother : ∀ k < 10, (p.run ins (3 + k)).curr_state ≠ .B := by
    decide
  have hexec : p.Executions ins 1 fun i => 2 + 11 * i := by
    refine ⟨by decide, fun i _ => by omega, fun i hi k hlo hhi => ?_,
      fun k _ hk => (hquiet k (by omega)).1, fun k _ hk _ => (hquiet k (by omega)).2⟩
    obtain rfl : i = 0 := by omega
    obtain ⟨d, rfl⟩ := Nat.exists_eq_add_of_le (show 3 ≤ k by omega)
    exact hother d (by omega)
  refine ⟨hexec, (((serial_execution p ins).2 1 _ hexec).2 (fun _ => 0b010) (fun _ => 0b10)
    fun i hi k hk => ?_).trans (by decide)⟩
  obtain ⟨d, hd⟩ : ∃ d, 2 + 11 * i + k = d + 1 := ⟨1 + 11 * i + k, by omega⟩
  rw [hd]
  exact ⟨rfl, rfl⟩

end Processor8

end Ece385
