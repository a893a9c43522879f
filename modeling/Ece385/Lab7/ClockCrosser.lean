import Ece385.Sync.Run
import Ece385.Sync.Stream

/-!
# The clock crosser

`altera_avalon_st_clock_crosser`, which takes the requests of the processor to the
clock of the SDRAM and the answers back. A word is kept in `in_data_buffer`, and a
toggle announces it: the toggle goes through a synchronizer of the other clock, and its
copy `out_data_toggle_flopped` goes back through one of this clock. There is no output
stage (`USE_OUTPUT_PIPELINE` is 0), as in all four crossers of the interconnect.

The synchronizers are cells of the vendor, `altera_std_synchronizer`. They are a
parameter (`Synchronizers`), and what is used of them is what they are documented to do
(`Delays`): they show their input as many clock edges late as they are deep. A chain of
flip-flops does that (`delays_chain`).

The clocks have nothing to do with each other. An `Instant` is a moment in which one of
them rises, or both; what a flip-flop takes over that is clocked while its input
changes is open.
-/

namespace Ece385

/-- The registers of the crosser. What is known of a synchronizer is the list of what its
clock has sampled since the reset, the last sample first. -/
structure ClockCrosser (α : Type*) where
  in_data_buffer : α
  out_data_buffer : α
  in_data_toggle : Bool
  out_data_toggle_flopped : Bool
  in_to_out_synchronizer : List Bool
  out_to_in_synchronizer : List Bool

namespace ClockCrosser

open Clocked (history history_conserved mem_history)

variable {α : Type*}

/-- Which clocks rise, the pins, and what is open when both rise: whether the first
flip-flop of a synchronizer sees a change already, and what of a changing word is
sampled. -/
structure Instant (α : Type*) where
  in_clk : Bool
  out_clk : Bool
  in_valid : Bool
  in_data : α
  out_ready : Bool
  forward_sees : Bool
  backward_sees : Bool
  sampled : α

/-- The two instances of `altera_std_synchronizer`: `dout`, after the samples of its clock. -/
structure Synchronizers where
  in_to_out : List Bool → Bool
  out_to_in : List Bool → Bool

/-- What a synchronizer of a given `depth` is documented to do: `dout` is the sample that
`depth` edges, the last one included, have carried through, and 0 before there is one. -/
def Delays (depth : ℕ) (dout : List Bool → Bool) : Prop := ∀ l, dout l = l.getD (depth - 1) false

section Wires

variable (y : Synchronizers) (s : ClockCrosser α)

def outDataToggle : Bool := y.in_to_out s.in_to_out_synchronizer

def inDataToggleReturned : Bool := y.out_to_in s.out_to_in_synchronizer

def inReady : Bool := !(s.inDataToggleReturned y ^^ s.in_data_toggle)

def takeInData (c : Instant α) : Bool := c.in_valid && s.inReady y

def outValid : Bool := s.outDataToggle y ^^ s.out_data_toggle_flopped

def outDataTaken (c : Instant α) : Bool := c.out_ready && s.outValid y

/-- `in_data_toggle` behind the instant. -/
def toggle (c : Instant α) : Bool :=
  if c.in_clk && s.takeInData y c then !s.in_data_toggle else s.in_data_toggle

/-- `out_data_toggle_flopped` behind the instant. -/
def flopped (c : Instant α) : Bool :=
  if c.out_clk && s.outDataTaken y c then s.outDataToggle y else s.out_data_toggle_flopped

end Wires

def reset (zero : α) : ClockCrosser α where
  in_data_buffer := zero
  out_data_buffer := zero
  in_data_toggle := false
  out_data_toggle_flopped := false
  in_to_out_synchronizer := []
  out_to_in_synchronizer := []

section Clock

variable (y : Synchronizers)

def step (c : Instant α) (s : ClockCrosser α) : ClockCrosser α where
  in_data_buffer := if c.in_clk && s.takeInData y c then c.in_data else s.in_data_buffer
  out_data_buffer :=
    if c.out_clk then
      if c.in_clk && s.takeInData y c then c.sampled else s.in_data_buffer
    else s.out_data_buffer
  in_data_toggle := s.toggle y c
  out_data_toggle_flopped := s.flopped y c
  in_to_out_synchronizer :=
    if c.out_clk then
      (if c.forward_sees then s.toggle y c else s.in_data_toggle) :: s.in_to_out_synchronizer
    else s.in_to_out_synchronizer
  out_to_in_synchronizer :=
    if c.in_clk then
      (if c.backward_sees then s.flopped y c else s.out_data_toggle_flopped)
        :: s.out_to_in_synchronizer
    else s.out_to_in_synchronizer

def run (s : ClockCrosser α) (cs : ℕ → Instant α) : ℕ → ClockCrosser α :=
  Clocked.run (step y) s cs

/-- The words that are taken in an instant. -/
def taken (s : ClockCrosser α) (c : Instant α) : List α :=
  if c.in_clk && s.takeInData y c then [c.in_data] else []

/-- The words that are handed over. -/
def delivered (s : ClockCrosser α) (c : Instant α) : List α :=
  if c.out_clk && s.outDataTaken y c then [s.out_data_buffer] else []

end Clock

/-- The other clock is twice as fast; there is always a word, and always room. -/
def beats (n : ℕ) : Instant ℕ where
  in_clk := n % 2 = 0
  out_clk := true
  in_valid := true
  in_data := n
  out_ready := true
  forward_sees := false
  backward_sees := true
  sampled := 0

/-! ## A chain of flip-flops -/

/-- A clock edge of a chain of flip-flops, the one that samples first. -/
def shift (din : Bool) (l : List Bool) : List Bool := (din :: l).dropLast

/-- What `depth` flip-flops hold after the samples, the last sample first. -/
def flipFlops (depth : ℕ) : List Bool → List Bool
  | [] => List.replicate depth false
  | din :: l => shift din (flipFlops depth l)

def chain (depth : ℕ) (l : List Bool) : Bool := (flipFlops depth l).getLastD false

theorem flipFlops_eq (depth : ℕ) (l : List Bool) :
    flipFlops depth l = (l ++ List.replicate depth false).take depth := by
  induction l with
  | nil => rw [flipFlops, List.nil_append, List.take_of_length_le (by simp)]
  | cons din l ih =>
      rw [flipFlops, ih, shift, List.cons_append]
      cases depth with
      | zero => rfl
      | succ d =>
          rw [List.take_succ_cons, List.dropLast_eq_take, List.length_cons, Nat.add_sub_cancel]
          simp [List.take_take]

/-- A chain is a synchronizer. -/
theorem delays_chain {depth : ℕ} (hdepth : 0 < depth) : Delays depth (chain depth) := by
  intro l
  obtain ⟨d, rfl⟩ : ∃ d, depth = d + 1 := ⟨depth - 1, by omega⟩
  rw [chain, flipFlops_eq, Nat.add_sub_cancel, List.getLastD_eq_getLast?,
    List.getLast?_eq_getElem?, List.length_take_of_le (by simp), Nat.add_sub_cancel,
    List.getElem?_take_of_lt (Nat.lt_succ_self d), List.getD_eq_getElem?_getD]
  by_cases hd : d < l.length
  · rw [List.getElem?_append_left hd]
  · rw [List.getElem?_append_right (by omega), List.getElem?_eq_none (l := l) (by omega),
      List.getElem?_replicate]
    split <;> rfl

/-- Two flip-flops each way. -/
def chains : Synchronizers := ⟨chain 2, chain 2⟩

theorem Delays.eq_chain {depth : ℕ} {dout : List Bool → Bool} (h : Delays depth dout)
    (hdepth : 0 < depth) (l : List Bool) : dout l = (flipFlops depth l).getLastD false :=
  (h l).trans (delays_chain hdepth l).symm

/-! ## A change on its way -/

/-- The first `k` of `n` flip-flops hold `t` already. -/
def wave (t : Bool) (k n : ℕ) : List Bool := List.replicate k t ++ List.replicate (n - k) (!t)

section Wave

variable {t : Bool} {k n : ℕ}

theorem wave_all : wave t n n = List.replicate n t := by
  rw [wave, Nat.sub_self, List.replicate_zero, List.append_nil]

theorem wave_none : wave t 0 n = List.replicate n (!t) := by
  rw [wave, List.replicate_zero, List.nil_append, Nat.sub_zero]

theorem shift_wave (hk : k < n) : shift t (wave t k n) = wave t (k + 1) n := by
  obtain ⟨d, rfl⟩ : ∃ d, n = k + (d + 1) := ⟨n - k - 1, by omega⟩
  rw [shift, wave, wave, Nat.add_sub_cancel_left, show k + (d + 1) - (k + 1) = d by omega,
    ← List.cons_append, ← List.replicate_succ, List.replicate_succ' (n := d), ← List.append_assoc,
    List.dropLast_concat]

theorem shift_replicate (hn : 0 < n) : shift t (List.replicate n t) = List.replicate n t := by
  obtain ⟨d, rfl⟩ : ∃ d, n = d + 1 := ⟨n - 1, by omega⟩
  rw [shift, ← List.replicate_succ, List.replicate_succ' (n := d + 1), List.dropLast_concat]

theorem last_replicate (hn : 0 < n) : (List.replicate n t).getLastD false = t := by
  obtain ⟨d, rfl⟩ : ∃ d, n = d + 1 := ⟨n - 1, by omega⟩
  rw [List.replicate_succ', List.getLastD_concat]

theorem last_wave (hk : k < n) : (wave t k n).getLastD false = !t := by
  obtain ⟨d, rfl⟩ : ∃ d, n = k + (d + 1) := ⟨n - k - 1, by omega⟩
  rw [wave, Nat.add_sub_cancel_left, List.replicate_succ', ← List.append_assoc,
    List.getLastD_concat]

theorem flipFlops_sample (b : Bool) (din : Bool) (l : List Bool) :
    flipFlops n (if b then din :: l else l)
      = if b then shift din (flipFlops n l) else flipFlops n l := by
  cases b <;> rfl

end Wave

/-! ## One instant -/

/-- A word has gone through `i` of the flip-flops towards the output. -/
structure Going (f b i : ℕ) (s : ClockCrosser α) : Prop where
  le : i ≤ f
  forward : flipFlops f s.in_to_out_synchronizer = wave s.in_data_toggle i f
  flopped : s.out_data_toggle_flopped = !s.in_data_toggle
  backward : flipFlops b s.out_to_in_synchronizer = List.replicate b (!s.in_data_toggle)
  data : 2 ≤ i → s.out_data_buffer = s.in_data_buffer

/-- The acknowledge of the last word has gone through `k` of the flip-flops back. -/
structure Coming (f b k : ℕ) (s : ClockCrosser α) : Prop where
  le : k ≤ b
  forward : flipFlops f s.in_to_out_synchronizer = List.replicate f s.in_data_toggle
  flopped : s.out_data_toggle_flopped = s.in_data_toggle
  backward : flipFlops b s.out_to_in_synchronizer = wave s.in_data_toggle k b

/-- Words taken and not yet handed over. -/
def held (s : ClockCrosser α) : List α :=
  if s.out_data_toggle_flopped = s.in_data_toggle then [] else [s.in_data_buffer]

theorem length_held_le (s : ClockCrosser α) : s.held.length ≤ 1 := by
  unfold held
  split
  · exact Nat.zero_le 1
  · exact Nat.le_refl 1

/-- Where the last word is: on its way, at the output, or handed over and its acknowledge
on the way back. -/
inductive Phase where
  | going
  | waiting
  | coming

/-- The edge that is waited for. -/
def Phase.edge (c : Instant α) : Phase → Bool
  | .going => c.out_clk
  | .waiting => c.out_clk && c.out_ready
  | .coming => c.in_clk

/-- In its phase the crosser waits for `r` edges until it is ready for the next word. -/
def Due (f b r : ℕ) (phase : Phase) (s : ClockCrosser α) : Prop :=
  match phase with
  | .going => ∃ i, i < f ∧ Going f b i s ∧ r = f - i + b + 1
  | .waiting => Going f b f s ∧ r = b + 1
  | .coming => ∃ k, Coming f b k s ∧ r = b - k

section Step

variable {y : Synchronizers} {f b i k : ℕ} {s : ClockCrosser α} (hf : 2 ≤ f) (hb : 0 < b)
  (hfwd : Delays f y.in_to_out) (hbwd : Delays b y.out_to_in) (c : Instant α)

theorem Going.held (h : Going f b i s) : s.held = [s.in_data_buffer] := by
  refine if_neg ?_
  rw [h.flopped]
  simp

theorem Coming.held (h : Coming f b k s) : s.held = [] := if_pos h.flopped

include hb hbwd in
theorem Going.inReady (h : Going f b i s) : s.inReady y = false := by
  rw [ClockCrosser.inReady, inDataToggleReturned, hbwd.eq_chain hb, h.backward, last_replicate hb]
  simp

include hb hbwd in
theorem Coming.inReady (h : Coming f b k s) : s.inReady y = decide (k = b) := by
  rw [ClockCrosser.inReady, inDataToggleReturned, hbwd.eq_chain hb, h.backward]
  rcases Nat.lt_or_eq_of_le h.le with hlt | rfl
  · rw [last_wave hlt, decide_eq_false (Nat.ne_of_lt hlt)]
    simp
  · rw [wave_all, last_replicate hb, decide_eq_true rfl]
    simp

include hf hfwd in
theorem Going.outValid (h : Going f b i s) : s.outValid y = decide (i = f) := by
  rw [ClockCrosser.outValid, outDataToggle, hfwd.eq_chain (by omega), h.forward, h.flopped]
  rcases Nat.lt_or_eq_of_le h.le with hlt | rfl
  · rw [last_wave hlt, decide_eq_false (Nat.ne_of_lt hlt)]
    simp
  · rw [wave_all, last_replicate (by omega), decide_eq_true rfl]
    simp

include hf hfwd in
theorem Coming.outValid (h : Coming f b k s) : s.outValid y = false := by
  rw [ClockCrosser.outValid, outDataToggle, hfwd.eq_chain (by omega), h.forward, h.flopped,
    last_replicate (by omega)]
  simp

include hf hb hfwd hbwd

/-- On its way to the output. -/
theorem Going.step_lt (h : Going f b i s) (hi : i < f) :
    s.taken y c = [] ∧ s.delivered y c = [] ∧ (step y c s).in_data_buffer = s.in_data_buffer
      ∧ Going f b (if c.out_clk then i + 1 else i) (step y c s) := by
  have htake : s.takeInData y c = false := by rw [takeInData, h.inReady hb hbwd, Bool.and_false]
  have htaken : s.outDataTaken y c = false := by
    rw [outDataTaken, h.outValid hf hfwd, decide_eq_false (Nat.ne_of_lt hi), Bool.and_false]
  obtain ⟨-, hforward, hflopped, hbackward, hdata⟩ := h
  refine ⟨by simp [taken, htake], by simp [delivered, htaken], by simp [step, htake], ?_⟩
  have htoggle : s.toggle y c = s.in_data_toggle := by simp [toggle, htake]
  have hflop : s.flopped y c = s.out_data_toggle_flopped := by simp [ClockCrosser.flopped, htaken]
  constructor
  case le => split <;> omega
  case forward =>
    simp only [step, flipFlops_sample, htoggle, ite_self, hforward]
    cases c.out_clk
    · rfl
    · exact shift_wave hi
  case flopped => simp only [step, htoggle, hflop, hflopped]
  case backward =>
    simp only [step, flipFlops_sample, htoggle, hflop, hflopped, ite_self, hbackward,
      shift_replicate hb]
  case data =>
    simp only [step, htake, Bool.and_false, Bool.false_eq_true, if_false]
    cases c.out_clk
    · exact hdata
    · exact fun _ => rfl

/-- At the output. -/
theorem Going.step_eq (h : Going f b f s) :
    s.taken y c = [] ∧ (step y c s).in_data_buffer = s.in_data_buffer
      ∧ if c.out_clk && c.out_ready then s.delivered y c = [s.in_data_buffer]
          ∧ ∃ k ≤ 1, Coming f b k (step y c s)
        else s.delivered y c = [] ∧ Going f b f (step y c s) := by
  have htake : s.takeInData y c = false := by rw [takeInData, h.inReady hb hbwd, Bool.and_false]
  have htaken : s.outDataTaken y c = c.out_ready := by
    rw [outDataTaken, h.outValid hf hfwd, decide_eq_true rfl, Bool.and_true]
  obtain ⟨-, hforward, hflopped, hbackward, hdata⟩ := h
  rw [wave_all] at hforward
  have htoggle : s.toggle y c = s.in_data_toggle := by simp [toggle, htake]
  have hout : s.outDataToggle y = s.in_data_toggle := by
    rw [outDataToggle, hfwd.eq_chain (by omega), hforward, last_replicate (by omega)]
  have hflop : s.flopped y c = if c.out_clk && c.out_ready then s.in_data_toggle
      else !s.in_data_toggle := by
    rw [ClockCrosser.flopped, htaken, hout, hflopped]
  have hforward' : flipFlops f (step y c s).in_to_out_synchronizer
      = List.replicate f s.in_data_toggle := by
    simp only [step, flipFlops_sample, htoggle, ite_self, hforward,
      shift_replicate (by omega : 0 < f)]
  refine ⟨by simp [taken, htake], by simp [step, htake], ?_⟩
  cases hready : c.out_clk && c.out_ready with
  | true =>
      rw [hready, if_pos rfl] at hflop
      refine ⟨by simp [delivered, htaken, hready, hdata hf], ?_⟩
      have hbackward' : flipFlops b (step y c s).out_to_in_synchronizer
          = wave s.in_data_toggle (if c.in_clk && c.backward_sees then 1 else 0) b := by
        simp only [step, flipFlops_sample, hflop, hflopped, hbackward, ← wave_none]
        cases c.in_clk <;> cases c.backward_sees
        · rfl
        · rfl
        · rw [wave_none]
          exact shift_replicate hb
        · exact shift_wave hb
      refine ⟨if c.in_clk && c.backward_sees then 1 else 0, by split <;> omega,
        by split <;> omega, ?_, ?_, ?_⟩
      · rw [hforward']
        exact congrArg _ htoggle.symm
      · exact hflop.trans htoggle.symm
      · rw [hbackward']
        exact congrArg (wave · _ b) htoggle.symm
  | false =>
      rw [hready, if_neg (by decide)] at hflop
      refine ⟨by simp [delivered, htaken, hready], Nat.le_refl f, ?_, ?_, ?_, ?_⟩
      · rw [hforward', wave_all]
        exact congrArg _ htoggle.symm
      · exact hflop.trans (congrArg _ htoggle.symm)
      · simp only [step, flipFlops_sample, htoggle, hflop, hflopped, ite_self, hbackward,
          shift_replicate hb]
      · simp only [step, htake, Bool.and_false, Bool.false_eq_true, if_false]
        exact fun h2 => by split <;> simp [hdata h2]

/-- On the way back. -/
theorem Coming.step_lt (h : Coming f b k s) (hk : k < b) :
    s.taken y c = [] ∧ s.delivered y c = []
      ∧ Coming f b (if c.in_clk then k + 1 else k) (step y c s) := by
  have htake : s.takeInData y c = false := by
    rw [takeInData, h.inReady hb hbwd, decide_eq_false (Nat.ne_of_lt hk), Bool.and_false]
  have htaken : s.outDataTaken y c = false := by
    rw [outDataTaken, h.outValid hf hfwd, Bool.and_false]
  obtain ⟨-, hforward, hflopped, hbackward⟩ := h
  have htoggle : s.toggle y c = s.in_data_toggle := by simp [toggle, htake]
  have hflop : s.flopped y c = s.in_data_toggle := by simp [ClockCrosser.flopped, htaken, hflopped]
  refine ⟨by simp [taken, htake], by simp [delivered, htaken], by split <;> omega, ?_, ?_, ?_⟩
  · simp only [step, flipFlops_sample, htoggle, ite_self, hforward,
      shift_replicate (by omega : 0 < f)]
  · simp only [step, htoggle, hflop]
  · simp only [step, flipFlops_sample, htoggle, hflop, hflopped, ite_self, hbackward]
    cases c.in_clk
    · rfl
    · exact shift_wave hk

/-- Ready for a word. -/
theorem Coming.step_eq (h : Coming f b b s) :
    s.delivered y c = [] ∧ if c.in_clk && c.in_valid then s.taken y c = [c.in_data]
        ∧ (step y c s).in_data_buffer = c.in_data ∧ ∃ i ≤ 1, Going f b i (step y c s)
      else s.taken y c = [] ∧ Coming f b b (step y c s) := by
  have htake : s.takeInData y c = c.in_valid := by
    rw [takeInData, h.inReady hb hbwd, decide_eq_true rfl, Bool.and_true]
  have htaken : s.outDataTaken y c = false := by
    rw [outDataTaken, h.outValid hf hfwd, Bool.and_false]
  obtain ⟨-, hforward, hflopped, hbackward⟩ := h
  rw [wave_all] at hbackward
  have hflop : s.flopped y c = s.in_data_toggle := by simp [ClockCrosser.flopped, htaken, hflopped]
  have hbackward' : flipFlops b (step y c s).out_to_in_synchronizer
      = List.replicate b s.in_data_toggle := by
    simp only [step, flipFlops_sample, hflop, hflopped, ite_self, hbackward, shift_replicate hb]
  refine ⟨by simp [delivered, htaken], ?_⟩
  cases hvalid : c.in_clk && c.in_valid with
  | true =>
      have htoggle : s.toggle y c = !s.in_data_toggle := by simp [toggle, htake, hvalid]
      have hforward' : flipFlops f (step y c s).in_to_out_synchronizer
          = wave (!s.in_data_toggle) (if c.out_clk && c.forward_sees then 1 else 0) f := by
        have hnone : List.replicate f s.in_data_toggle = wave (!s.in_data_toggle) 0 f := by
          rw [wave_none, Bool.not_not]
        simp only [step, flipFlops_sample, htoggle, hforward]
        cases c.out_clk <;> cases c.forward_sees
        · exact hnone
        · exact hnone
        · exact (shift_replicate (by omega)).trans hnone
        · rw [hnone]
          exact shift_wave (by omega)
      refine ⟨by simp [taken, htake, hvalid], by simp [step, htake, hvalid],
        if c.out_clk && c.forward_sees then 1 else 0, by split <;> omega, by split <;> omega,
        ?_, ?_, ?_, fun h2 => absurd h2 (by split <;> omega)⟩
      · rw [hforward']
        exact congrArg (wave · _ f) htoggle.symm
      · refine hflop.trans ?_
        rw [show (step y c s).in_data_toggle = _ from htoggle, Bool.not_not]
      · rw [hbackward', show (step y c s).in_data_toggle = _ from htoggle, Bool.not_not]
  | false =>
      have htoggle : s.toggle y c = s.in_data_toggle := by simp [toggle, htake, hvalid]
      refine ⟨by simp [taken, htake, hvalid], Nat.le_refl b, ?_, ?_, ?_⟩
      · simp only [step, flipFlops_sample, htoggle, ite_self, hforward,
          shift_replicate (by omega : 0 < f)]
      · exact hflop.trans htoggle.symm
      · rw [hbackward', wave_all]
        exact congrArg _ htoggle.symm

/-- At the output a word stays until it is taken. -/
theorem outValid_step (h : (∃ i, Going f b i s) ∨ ∃ k, Coming f b k s) (hv : s.outValid y = true)
    (hno : (c.out_clk && c.out_ready) = false) : (step y c s).outValid y = true := by
  rcases h with ⟨i, hi⟩ | ⟨k, hk⟩
  · rw [hi.outValid hf hfwd, decide_eq_true_iff] at hv
    subst hv
    obtain ⟨-, -, hnext⟩ := hi.step_eq hf hb hfwd hbwd c
    rw [hno, if_neg Bool.false_ne_true] at hnext
    rw [hnext.2.outValid hf hfwd, decide_eq_true rfl]
  · rw [hk.outValid hf hfwd] at hv
    exact absurd hv Bool.false_ne_true

/-- The edge that is waited for brings the next word nearer, any other changes nothing. -/
theorem Due.step {r : ℕ} {phase : Phase} (h : Due f b (r + 1) phase s) :
    (¬phase.edge c = true ∧ Due f b (r + 1) phase (step y c s))
      ∨ ∃ r' ≤ r, ∃ phase', Due f b r' phase' (step y c s) := by
  cases phase with
  | going =>
      obtain ⟨i, hlt, hi, hr⟩ := h
      obtain ⟨-, -, -, hnext⟩ := hi.step_lt hf hb hfwd hbwd c hlt
      cases hclk : c.out_clk with
      | false =>
          rw [hclk, if_neg Bool.false_ne_true] at hnext
          exact Or.inl ⟨by simp [Phase.edge, hclk], i, hlt, hnext, hr⟩
      | true =>
          rw [hclk, if_pos rfl] at hnext
          rcases Nat.lt_or_eq_of_le hnext.le with hlt' | rfl
          · exact Or.inr ⟨f - (i + 1) + b + 1, by omega, .going, i + 1, hlt', hnext, rfl⟩
          · exact Or.inr ⟨b + 1, by omega, .waiting, hnext, rfl⟩
  | waiting =>
      obtain ⟨hi, hr⟩ := h
      obtain ⟨-, -, hnext⟩ := hi.step_eq hf hb hfwd hbwd c
      split at hnext
      · obtain ⟨-, k, -, hnext⟩ := hnext
        exact Or.inr ⟨b - k, by omega, .coming, k, hnext, rfl⟩
      · next hno => exact Or.inl ⟨hno, hnext.2, hr⟩
  | coming =>
      obtain ⟨k, hk, hr⟩ := h
      obtain ⟨-, -, hnext⟩ := hk.step_lt hf hb hfwd hbwd c (by omega)
      cases hclk : c.in_clk with
      | false =>
          rw [hclk, if_neg Bool.false_ne_true] at hnext
          exact Or.inl ⟨by simp [Phase.edge, hclk], k, hnext, hr⟩
      | true =>
          rw [hclk, if_pos rfl] at hnext
          exact Or.inr ⟨b - (k + 1), by omega, .coming, k + 1, hnext, rfl⟩

omit hf hfwd in
/-- Nothing is left to wait for. -/
theorem Due.ready {phase : Phase} (h : Due f b 0 phase s) : s.inReady y = true ∧ s.held = [] := by
  cases phase with
  | going =>
      obtain ⟨i, -, -, hr⟩ := h
      exact absurd hr (by omega)
  | waiting => exact absurd h.2 (by omega)
  | coming =>
      obtain ⟨k, hk, hr⟩ := h
      have hkb : k = b := Nat.le_antisymm hk.le (by omega)
      exact ⟨by rw [hk.inReady hb hbwd, decide_eq_true hkb], hk.held⟩

end Step

/-! ## Runs -/

section Run

variable {y : Synchronizers} {f b : ℕ} (hf : 2 ≤ f) (hb : 0 < b)
  (hfwd : Delays f y.in_to_out) (hbwd : Delays b y.out_to_in) (zero : α) (cs : ℕ → Instant α)
include hf hb hfwd hbwd

/-- One instant keeps the books. -/
theorem phase_step {s : ClockCrosser α} (h : (∃ i, Going f b i s) ∨ ∃ k, Coming f b k s)
    (c : Instant α) : ((∃ i, Going f b i (step y c s)) ∨ ∃ k, Coming f b k (step y c s))
      ∧ s.held ++ s.taken y c = s.delivered y c ++ (step y c s).held := by
  rcases h with ⟨i, hi⟩ | ⟨k, hk⟩
  · rcases Nat.lt_or_eq_of_le hi.le with hlt | rfl
    · obtain ⟨htaken, hdelivered, hbuffer, hnext⟩ := hi.step_lt hf hb hfwd hbwd c hlt
      exact ⟨Or.inl ⟨_, hnext⟩, by rw [htaken, hdelivered, hi.held, hnext.held, hbuffer]; rfl⟩
    · obtain ⟨htaken, hbuffer, hnext⟩ := hi.step_eq hf hb hfwd hbwd c
      split at hnext
      · obtain ⟨hdelivered, k, -, hnext⟩ := hnext
        exact ⟨Or.inr ⟨k, hnext⟩, by rw [htaken, hdelivered, hi.held, hnext.held]⟩
      · obtain ⟨hdelivered, hnext⟩ := hnext
        exact ⟨Or.inl ⟨_, hnext⟩, by rw [htaken, hdelivered, hi.held, hnext.held, hbuffer]; rfl⟩
  · rcases Nat.lt_or_eq_of_le hk.le with hlt | rfl
    · obtain ⟨htaken, hdelivered, hnext⟩ := hk.step_lt hf hb hfwd hbwd c hlt
      exact ⟨Or.inr ⟨_, hnext⟩, by rw [htaken, hdelivered, hk.held, hnext.held]⟩
    · obtain ⟨hdelivered, hnext⟩ := hk.step_eq hf hb hfwd hbwd c
      split at hnext
      · obtain ⟨htaken, hbuffer, i, -, hnext⟩ := hnext
        exact ⟨Or.inl ⟨i, hnext⟩, by rw [htaken, hdelivered, hk.held, hnext.held, hbuffer]⟩
      · obtain ⟨htaken, hnext⟩ := hnext
        exact ⟨Or.inr ⟨_, hnext⟩, by rw [htaken, hdelivered, hk.held, hnext.held]⟩

theorem phase_run (n : ℕ) : (∃ i, Going f b i ((reset zero).run y cs n))
    ∨ ∃ k, Coming f b k ((reset zero).run y cs n) := by
  induction n with
  | zero => exact Or.inr ⟨b, Nat.le_refl b, rfl, rfl, wave_all.symm⟩
  | succ n ih => exact (phase_step hf hb hfwd hbwd ih (cs n)).1

theorem history_taken (n : ℕ) :
    history (fun m => ((reset zero).run y cs m).taken y (cs m)) n
      = history (fun m => ((reset zero).run y cs m).delivered y (cs m)) n
        ++ ((reset zero).run y cs n).held :=
  history_conserved (fun m => ((reset zero).run y cs m).held)
    (fun m => (phase_step hf hb hfwd hbwd (phase_run hf hb hfwd hbwd zero cs m) (cs m)).2) n

/-- **Nothing is lost between the clocks**: whatever they do, the words handed over are
the words taken, in order, except for at most one that is still inside. -/
theorem crosses (n : ℕ) :
    history (fun m => ((reset zero).run y cs m).taken y (cs m)) n
        = history (fun m => ((reset zero).run y cs m).delivered y (cs m)) n
          ++ ((reset zero).run y cs n).held
      ∧ ((reset zero).run y cs n).held.length ≤ 1 :=
  ⟨history_taken hf hb hfwd hbwd zero cs n, length_held_le _⟩

omit hf hb hfwd hbwd in
theorem crosses_beats :
    history (fun m => ((reset 0).run chains beats m).taken chains (beats m)) 20
        = history (fun m => ((reset 0).run chains beats m).delivered chains (beats m)) 20
          ++ ((reset 0).run chains beats 20).held
      ∧ history (fun m => ((reset 0).run chains beats m).delivered chains (beats m)) 20
        = [0, 8, 16] :=
  ⟨(crosses (Nat.le_refl 2) Nat.two_pos (delays_chain Nat.two_pos) (delays_chain Nat.two_pos) 0
    beats 20).1, by decide⟩

/-- A word at the output is one of those taken in. -/
theorem exists_taken {n : ℕ} (hv : ((reset zero).run y cs n).outValid y = true) :
    ∃ m < n, (cs m).in_valid = true
      ∧ ((reset zero).run y cs n).out_data_buffer = (cs m).in_data := by
  have hheld : ((reset zero).run y cs n).held = [((reset zero).run y cs n).out_data_buffer] := by
    rcases phase_run hf hb hfwd hbwd zero cs n with ⟨i, hi⟩ | ⟨k, hk⟩
    · rw [hi.outValid hf hfwd, decide_eq_true_iff] at hv
      subst hv
      rw [hi.held, hi.data hf]
    · rw [hk.outValid hf hfwd] at hv
      exact absurd hv Bool.false_ne_true
  have hmem : ((reset zero).run y cs n).out_data_buffer
      ∈ history (fun m => ((reset zero).run y cs m).taken y (cs m)) n := by
    rw [history_taken hf hb hfwd hbwd zero cs n, hheld]
    exact List.mem_append_right _ (List.mem_singleton_self _)
  obtain ⟨m, hm, htaken⟩ := mem_history _ hmem
  rw [taken] at htaken
  split at htaken
  · next htake =>
      rw [Bool.and_eq_true, takeInData, Bool.and_eq_true] at htake
      exact ⟨m, hm, htake.2.1, List.mem_singleton.mp htaken⟩
  · exact absurd htaken List.not_mem_nil

/-- Where no word is left standing at the output for ever, the crosser is ready again and
again, and has handed over everything then. -/
theorem exists_ready (hin : ∀ n, ∃ m, n ≤ m ∧ (cs m).in_clk = true)
    (hclk : ∀ n, ∃ m, n ≤ m ∧ (cs m).out_clk = true)
    (hout : ∀ n, (∀ m, n ≤ m → ((reset zero).run y cs m).outValid y = true) →
      ∃ m, n ≤ m ∧ ((cs m).out_clk && (cs m).out_ready) = true) (n : ℕ) :
    ∃ m, n ≤ m ∧ ((reset zero).run y cs m).inReady y = true
      ∧ ((reset zero).run y cs m).held = [] := by
  have hfair : ∀ r (phase : Phase) n,
      (∀ m, n ≤ m → Due f b (r + 1) phase ((reset zero).run y cs m)) →
        ∃ m, n ≤ m ∧ phase.edge (cs m) = true := by
    intro r phase n hdue
    cases phase with
    | going => exact hclk n
    | waiting =>
        refine hout n fun m hm => ?_
        rw [(hdue m hm).1.outValid hf hfwd, decide_eq_true rfl]
    | coming => exact hin n
  have hstart : ∃ r phase, Due f b r phase ((reset zero).run y cs n) := by
    rcases phase_run hf hb hfwd hbwd zero cs n with ⟨i, hi⟩ | ⟨k, hk⟩
    · rcases Nat.lt_or_eq_of_le hi.le with hlt | rfl
      · exact ⟨_, .going, i, hlt, hi, rfl⟩
      · exact ⟨_, .waiting, hi, rfl⟩
    · exact ⟨_, .coming, k, hk, rfl⟩
  obtain ⟨r, phase, hdue⟩ := hstart
  obtain ⟨m, hm, phase, hdone⟩ :=
    Clocked.exists_of_fair (fun r phase m => Due f b r phase ((reset zero).run y cs m)) hfair
      (fun _ _ m h => h.step hf hb hfwd hbwd (cs m)) hdue
  exact ⟨m, hm, hdone.ready hb hbwd⟩

/-- **It does not get stuck**: while the clocks go on and the other side takes words, the
crosser is ready again and again, and has handed over everything then. -/
theorem crosses_all (hin : ∀ n, ∃ m, n ≤ m ∧ (cs m).in_clk = true)
    (hout : ∀ n, ∃ m, n ≤ m ∧ (cs m).out_clk = true ∧ (cs m).out_ready = true) (n : ℕ) :
    ∃ m, n ≤ m ∧ ((reset zero).run y cs m).inReady y = true
      ∧ history (fun k => ((reset zero).run y cs k).delivered y (cs k)) m
        = history (fun k => ((reset zero).run y cs k).taken y (cs k)) m := by
  have hclk : ∀ n, ∃ m, n ≤ m ∧ (cs m).out_clk = true := fun n => by
    obtain ⟨m, hm, hclk, -⟩ := hout n
    exact ⟨m, hm, hclk⟩
  obtain ⟨m, hm, hready, hheld⟩ := exists_ready hf hb hfwd hbwd zero cs hin hclk
    (fun n _ => by
      obtain ⟨m, hm, hclk, hready⟩ := hout n
      exact ⟨m, hm, by rw [hclk, hready]; rfl⟩) n
  have hall := history_taken hf hb hfwd hbwd zero cs m
  rw [hheld, List.append_nil] at hall
  exact ⟨m, hm, hready, hall.symm⟩

omit hf hb hfwd hbwd in
theorem crosses_all_beats : ∃ m, 20 ≤ m ∧ ((reset 0).run chains beats m).inReady chains = true
    ∧ history (fun k => ((reset 0).run chains beats k).delivered chains (beats k)) m
      = history (fun k => ((reset 0).run chains beats k).taken chains (beats k)) m :=
  crosses_all (y := chains) (Nat.le_refl 2) Nat.two_pos (delays_chain Nat.two_pos)
    (delays_chain Nat.two_pos) 0 beats
    (fun n => ⟨2 * n, by omega, decide_eq_true (Nat.mul_mod_right 2 n)⟩)
    (fun n => ⟨n, Nat.le_refl n, rfl, rfl⟩) 20

end Run

end ClockCrosser

end Ece385
