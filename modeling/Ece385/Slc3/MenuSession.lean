import Ece385.Slc3.MenuProgram

/-!
# A session at the menu

What the menu is for: `Order.Does` is what an order of the user does to the data
words, `Order.Shows` what the user sees meanwhile. Each round of the menu carries out
the order that the switches give (`menu_session`), so that in the end the user is
shown the words entered before, sorted if that was asked for (`session_shows`).
-/

namespace Ece385

namespace Isa

open Clocked Machine SLC3_2 SortProgram

namespace MenuProgram

/-! ## Orders -/

inductive Order
  | again
  | enter (v : ℕ → BitVec 16)
  | sort
  | display

/-- The order of a round that starts now. Entry `k` is read nine instructions and `k`
passes of the entry loop later. -/
def order (ins : ℕ → Input) : Order :=
  if (ins 1).S = 1 then .enter fun k => (ins (9 + 8 * k)).S
  else if (ins 1).S = 2 then .sort
  else if (ins 1).S = 3 then .display
  else .again

/-- No difference overflows. -/
def Close (l : List (BitVec 16)) : Prop := ∀ x ∈ l, ∀ y ∈ l, x.toInt - y.toInt ≤ 32767

def Ascending (l : List (BitVec 16)) : Prop := l.Pairwise fun x y => x.toInt ≤ y.toInt

/-- What becomes of the data words. -/
def Order.Does (l l' : List (BitVec 16)) : Order → Prop
  | .again | .display => l' = l
  | .enter v => l' = (List.range 16).map v
  | .sort => l'.Perm l ∧ (Close l → Ascending l')

/-- The words on the hex display, at the sixteen checkpoints of a round that starts
now. -/
def shown (m : Machine) (ins : ℕ → Input) : List (BitVec 16) :=
  (List.range 16).map fun k => (m.run ins (21 + 9 * k)).hex_data

/-- What the user sees in a round that starts now. -/
def Order.Shows (m : Machine) (ins : ℕ → Input) : Order → Prop
  | .again | .sort => True
  | .enter _ => ∀ k, k < 16 → (m.run ins (8 + 8 * k)).PC = 111#16
      ∧ (m.run ins (8 + 8 * k)).hex_data = BitVec.ofNat 16 k
  | .display => shown m ins = words m.mem
      ∧ ∀ k, k < 16 → (m.run ins (21 + 9 * k)).PC = 148#16
        ∧ (0 < k → (m.run ins (21 + 9 * k)).mem 148#8 = checkpoint k)

/-! ## Rounds -/

structure AtMenu (m : Machine) : Prop extends Ready m where
  PC : m.PC = 94#16
  flags : ∃ v, m.CC = Isa.nzp v

/-- From the start of the program. -/
theorem AtMenu.of_start {m : Machine} (ins : ℕ → Input) (hPC : m.PC = 90#16)
    (hprog : Resident 90 155 m.mem) : AtMenu (m.run ins 4) := by
  let m₁ := m.setReg R0 0
  let m₂ : Machine := { m₁ with PC := 92#16, R := Function.update m₁.R R7 92#16 }
  let m₃ := m₂.setReg R6 (m₂.R R7 + (imm 5 (-16)).signExtend 16)
  let m₄ := m₃.setReg R6 (m₃.R R6 + (imm 5 (-2)).signExtend 16)
  have h₁ : m₁.PC = 91#16 := by simp [m₁, hPC]
  have h₂ : m₂.PC = 92#16 := rfl
  have h₃ : m₃.PC = 93#16 := rfl
  have s₀ : m.next (ins 0) = m₁ := next_opCLR (hprog.fetch hPC rfl)
  have s₁ : m₁.next (ins 1) = m₂ := by
    rw [next_opJSR (Resident.fetch (m := m₁) hprog h₁ rfl), h₁]
    rfl
  have s₂ : m₂.next (ins 2) = m₃ := next_opADDi (Resident.fetch (m := m₂) hprog h₂ rfl)
  have s₃ : m₃.next (ins 3) = m₄ := next_opADDi (Resident.fetch (m := m₃) hprog h₃ rfl)
  have hrun : m.run ins 4 = m₄ :=
    (Goes.of_walk (.cons hPC s₀ (.cons h₁ s₁ (.cons h₂ s₂ (.cons h₃ s₃ .nil))))).run_eq
  have hR₂ : ∀ r, m₂.R r = if r = R7 then 92#16 else m₁.R r := fun r => Function.update_apply ..
  rw [hrun]
  refine ⟨⟨?_, ?_, fun k hlo hhi => hprog k hlo (by omega), fun k hlo hhi => hprog k (by omega) hhi,
    ?_⟩, rfl, _, rfl⟩
  · simp +decide [m₄, m₃, hR₂, m₁]
  · simp +decide [m₄, m₃, hR₂]
  · show Instr.opcode (m.mem (BitVec.ofNat 8 148)) = op_PSE
    rw [hprog 148 (by decide) (by decide)]
    decide

/-- A round of the menu. -/
theorem AtMenu.round {m : Machine} {ins : ℕ → Input} (h : AtMenu m)
    (hload : ∀ n, (ins n).load_sets_CC = true) :
    ∃ n, NextVisit (fun m : Machine => m.PC = 94#16) (m.run ins) n ∧ AtMenu (m.run ins n)
      ∧ (order ins).Does (words m.mem) (words (m.run ins n).mem) ∧ (order ins).Shows m ins := by
  obtain ⟨hready, hPC, hflags⟩ := h
  have s₀ : m.next (ins 0) = m.goto 95#16 := by
    rw [next_opPSE (hready.code.menu.fetch hPC rfl), hPC]
    rfl
  have hone : m.run ins 1 = m.goto 95#16 := s₀
  have hlater : ∀ n, m.run ins (1 + n) = (m.goto 95#16).run (later 1 ins) n := fun n => by
    rw [← hone]
    exact run_add 1 n
  -- Behind the function, the round is over.
  have hdone : ∀ {n m'}, Goes (m.goto 95#16) (later 1 ins) n m' → m'.PC = 94#16 → Ready m' →
      ∃ N, NextVisit (fun m : Machine => m.PC = 94#16) (m.run ins) N ∧ AtMenu (m.run ins N)
        ∧ m.run ins N = m' := by
    intro n m' g hback hready'
    obtain ⟨hvisit, hrun⟩ := Goes.round hPC s₀ g hback
    refine ⟨n + 1, hvisit, ?_, hrun⟩
    have hflags' := flags_run ins hflags (n + 1)
    rw [hrun] at hflags' ⊢
    exact ⟨hready', hback, hflags'⟩
  have hcalled : ∀ {n m'}, Goes (m.goto 95#16) (later 1 ins) n m' → ∃ v, m'.CC = Isa.nzp v := by
    intro n m' g
    rw [← g.run_eq]
    exact flags_run (m := m.goto 95#16) _ hflags n
  obtain ⟨hv, m₁, g₁, c⟩ | ⟨hv, m₁, g₁, c⟩ | ⟨hv, m₁, g₁, c⟩ | ⟨h1, h2, h3, n, m₁, k, g₁, a⟩ :=
    dispatch hready (later 1 ins) (hload 1) rfl
  · obtain ⟨m₂, g₂, hback, hready₂, hwords, hshows⟩ := entry hready.code
      (later 5 (later 1 ins)) c hready.R0_zero hready.R6_data (hcalled g₁)
    obtain ⟨N, hvisit, hmenu, hrun⟩ := hdone (g₁.append g₂) hback hready₂
    have horder : order ins = .enter fun k => (ins (9 + 8 * k)).S := if_pos hv
    refine ⟨N, hvisit, hmenu, ?_, ?_⟩
    · rw [horder, hrun]
      refine hwords.trans (List.map_congr_left fun k _ => ?_)
      rw [later_apply, later_apply, show 1 + (5 + (3 + 8 * k)) = 9 + 8 * k by omega]
    · rw [horder]
      intro k hk
      have hmoment : m.run ins (8 + 8 * k) = m₁.run (later 5 (later 1 ins)) (2 + 8 * k) := by
        rw [show 8 + 8 * k = 1 + (5 + (2 + 8 * k)) by omega, hlater, ← g₁.run_eq]
        exact run_add 5 (2 + 8 * k)
      rw [hmoment]
      exact hshows k hk
  · obtain ⟨n, m₂, g₂, hback, hready₂, hsorts⟩ := sort hready.code (later 7 (later 1 ins)) c
      hready.R0_zero hready.R6_data (hcalled g₁)
    obtain ⟨N, hvisit, hmenu, hrun⟩ := hdone (g₁.append g₂) hback hready₂
    have hv' : (ins 1).S = 2 := hv
    have horder : order ins = .sort := by simp [order, hv']
    refine ⟨N, hvisit, hmenu, ?_, by rw [horder]; trivial⟩
    rw [horder, hrun, ← c.mem]
    exact ⟨hsorts.perm, hsorts.sorted⟩
  · obtain ⟨m₂, g₂, hback, hready₂, hwords, hshows⟩ := display hready.code
      (later 9 (later 1 ins)) c hready.R0_zero hready.R6_data (hcalled g₁)
    obtain ⟨N, hvisit, hmenu, hrun⟩ := hdone (g₁.append g₂) hback hready₂
    have hv' : (ins 1).S = 3 := hv
    have horder : order ins = .display := by simp [order, hv']
    have hmoment : ∀ k, m.run ins (21 + 9 * k) = m₁.run (later 9 (later 1 ins)) (11 + 9 * k) := by
      intro k
      rw [show 21 + 9 * k = 1 + (9 + (11 + 9 * k)) by omega, hlater, ← g₁.run_eq]
      exact run_add 9 (11 + 9 * k)
    refine ⟨N, hvisit, hmenu, by rw [horder, hrun]; exact hwords, ?_⟩
    rw [horder]
    refine ⟨List.map_congr_left fun k hk => ?_, fun k hk => ?_⟩
    · rw [hmoment]
      exact (hshows k (List.mem_range.mp hk)).2.1
    · rw [hmoment]
      exact ⟨(hshows k hk).1, (hshows k hk).2.2⟩
  · obtain ⟨hPC₁, -, hregs, hmem⟩ := a
    have hready₁ : Ready m₁ :=
      ⟨(hregs R0 (by decide)).trans hready.R0_zero, (hregs R6 (by decide)).trans hready.R6_data,
        by rw [hmem]; exact hready.code⟩
    obtain ⟨N, hvisit, hmenu, hrun⟩ := hdone g₁ hPC₁ hready₁
    have horder : order ins = .again := by
      have h1' : (ins 1).S ≠ 1 := h1
      have h2' : (ins 1).S ≠ 2 := h2
      have h3' : (ins 1).S ≠ 3 := h3
      rw [order, if_neg h1', if_neg h2', if_neg h3']
    refine ⟨N, hvisit, hmenu, ?_, by rw [horder]; trivial⟩
    rw [horder, hrun, hmem]
    rfl

/-! ## Sessions -/

theorem Close.perm {l l' : List (BitVec 16)} (h : Close l) (hp : l'.Perm l) : Close l' :=
  fun x hx y hy => h x (hp.mem_iff.mp hx) y (hp.mem_iff.mp hy)

/-- Between an entry and the next one the words are those entered, and they are in order
behind a sort. -/
theorem Order.words_since {o : ℕ → Order} {l : ℕ → List (BitVec 16)}
    (h : ∀ n, (o n).Does (l n) (l (n + 1))) {i j : ℕ} {v : ℕ → BitVec 16} (hi : o i = .enter v)
    (hij : i < j) (hbetween : ∀ k, i < k → k < j → ∀ w, o k ≠ .enter w) :
    (l j).Perm ((List.range 16).map v)
      ∧ ((∃ k, i < k ∧ k < j ∧ o k = .sort) → Close ((List.range 16).map v) → Ascending (l j)) := by
  induction j with
  | zero => exact absurd hij (Nat.not_lt_zero i)
  | succ j ih =>
      have hj := h j
      rcases Nat.lt_or_eq_of_le (Nat.le_of_lt_succ hij) with hlt | rfl
      · obtain ⟨hperm, hsorted⟩ := ih hlt fun k hik hkj => hbetween k hik (Nat.lt_succ_of_lt hkj)
        have hsame : o j ≠ .sort → l (j + 1) = l j → (l (j + 1)).Perm ((List.range 16).map v)
            ∧ ((∃ k, i < k ∧ k < j + 1 ∧ o k = .sort) → Close ((List.range 16).map v) →
              Ascending (l (j + 1))) := by
          intro hne heq
          rw [heq]
          refine ⟨hperm, fun ⟨k, hik, hkj, hk⟩ => hsorted ⟨k, hik, ?_, hk⟩⟩
          exact Nat.lt_of_le_of_ne (Nat.le_of_lt_succ hkj) fun hkj' => hne (hkj' ▸ hk)
        cases ho : o j with
        | enter w => exact absurd ho (hbetween j hlt (Nat.lt_succ_self j) w)
        | sort =>
            rw [ho] at hj
            exact ⟨hj.1.trans hperm, fun _ hclose => hj.2 (hclose.perm hperm)⟩
        | again | display =>
            rw [ho] at hj
            exact hsame (by rw [ho]; exact Order.noConfusion) hj
      · rw [hi] at hj
        have hj' : l (i + 1) = (List.range 16).map v := hj
        rw [hj']
        exact ⟨List.Perm.refl _, fun ⟨k, hik, hki, _⟩ => absurd hik (by omega)⟩

/-- The program selected at word 2, in the memory as shipped. -/
def selected : Machine where
  PC := 90#16
  R _ := 90#16
  mem := TestMemory.initial
  hex_data := 0#16
  CC := 0#3

/-- `T n` is the beginning of round `n` of a run from word 90. -/
structure Rounds (m : Machine) (ins : ℕ → Input) (T : ℕ → ℕ) : Prop where
  zero : T 0 = 4
  first : (m.run ins 4).PC = 94#16
  succ : ∀ n, NextVisit (fun m : Machine => m.PC = 94#16) (fun k => m.run ins (T n + k))
    (T (n + 1) - T n)

section Session

variable {m : Machine} {ins : ℕ → Input} {T : ℕ → ℕ} (hPC : m.PC = 90#16)
  (hprog : Resident 90 155 m.mem) (hload : ∀ n, (ins n).load_sets_CC = true)
include hload

theorem round_at {t : ℕ} (ht : AtMenu (m.run ins t)) :
    ∃ n, NextVisit (fun m : Machine => m.PC = 94#16) (fun k => m.run ins (t + k)) n
      ∧ AtMenu (m.run ins (t + n))
      ∧ (order (later t ins)).Does (words (m.run ins t).mem) (words (m.run ins (t + n)).mem)
      ∧ (order (later t ins)).Shows (m.run ins t) (later t ins) := by
  have hlater : ∀ k, (m.run ins t).run (later t ins) k = m.run ins (t + k) := fun k =>
    (run_add t k).symm
  obtain ⟨n, hvisit, hmenu, hdoes, hshows⟩ :=
    ht.round (show ∀ k, (later t ins k).load_sets_CC = true from fun k => hload (t + k))
  rw [hlater] at hmenu hdoes
  exact ⟨n, hvisit.congr fun k _ => hlater k, hmenu, hdoes, hshows⟩

include hPC hprog

theorem exists_menu_rounds : ∃ T, Rounds m ins T := by
  have hmenu := AtMenu.of_start ins hPC hprog
  obtain ⟨T, hT, -⟩ := Visits.of_good (P := fun m : Machine => m.PC = 94#16)
    (t := fun k => m.run ins (4 + k)) (fun t => AtMenu (m.run ins (4 + t))) hmenu
    fun t ht => by
      obtain ⟨n, hvisit, hmenu', -⟩ := round_at hload ht
      refine ⟨n, hvisit.congr fun k _ => by rw [Nat.add_assoc], ?_⟩
      rwa [← Nat.add_assoc]
  refine ⟨fun n => 4 + T n, by rw [(hT 0).zero], hmenu.PC, fun n => ?_⟩
  rw [Nat.add_sub_add_left]
  exact ((hT (n + 1)).succ n (Nat.lt_succ_self n)).congr fun k _ => by rw [Nat.add_assoc]

theorem Rounds.at_menu (hT : Rounds m ins T) (n : ℕ) : AtMenu (m.run ins (T n)) := by
  induction n with
  | zero =>
      rw [hT.zero]
      exact AtMenu.of_start ins hPC hprog
  | succ n ih =>
      obtain ⟨k, hvisit, hmenu, -⟩ := round_at hload ih
      have hk := (hT.succ n).unique hvisit
      have hpos := hvisit.1
      rwa [← hk, show T n + (T (n + 1) - T n) = T (n + 1) by omega] at hmenu

theorem Rounds.carried_out (hT : Rounds m ins T) (n : ℕ) :
    (order (later (T n) ins)).Does (words (m.run ins (T n)).mem) (words (m.run ins (T (n + 1))).mem)
      ∧ (order (later (T n) ins)).Shows (m.run ins (T n)) (later (T n) ins) := by
  obtain ⟨k, hvisit, -, hdoes, hshows⟩ := round_at hload (hT.at_menu hPC hprog hload n)
  have hk := (hT.succ n).unique hvisit
  have hpos := hvisit.1
  rw [← hk, show T n + (T (n + 1) - T n) = T (n + 1) by omega] at hdoes
  exact ⟨hdoes, hshows⟩

/-- **What the menu does**: it always comes back, and in each round it carries out the
order of the switches. -/
theorem menu_session : ∃ T, Rounds m ins T ∧ ∀ n,
    (order (later (T n) ins)).Does (words (m.run ins (T n)).mem) (words (m.run ins (T (n + 1))).mem)
      ∧ (order (later (T n) ins)).Shows (m.run ins (T n)) (later (T n) ins) := by
  obtain ⟨T, hT⟩ := exists_menu_rounds hPC hprog hload
  exact ⟨T, hT, hT.carried_out hPC hprog hload⟩

omit hPC hprog hload in
theorem menu_session_shipped : ∃ T, Rounds selected (fun _ => ⟨3#16, true⟩) T
    ∧ shown (selected.run (fun _ => ⟨3#16, true⟩) 4) (fun _ => ⟨3#16, true⟩)
      = words TestMemory.initial := by
  obtain ⟨T, hT, hrounds⟩ := @menu_session selected (fun _ => ⟨3#16, true⟩) rfl
    (fun _ _ _ => rfl) fun _ => rfl
  refine ⟨T, hT, ?_⟩
  have hshows := (hrounds 0).2
  rw [hT.zero] at hshows
  exact hshows.1

/-- **What the user gets**: a display behind an entry shows the words of the entry, and
shows them in order if they were sorted in between. -/
theorem session_shows : ∃ T, Rounds m ins T ∧ ∀ (i j : ℕ) (v : ℕ → BitVec 16), i < j →
    order (later (T i) ins) = .enter v → order (later (T j) ins) = .display →
    (∀ k, i < k → k < j → ∀ w, order (later (T k) ins) ≠ .enter w) →
      (shown (m.run ins (T j)) (later (T j) ins)).Perm ((List.range 16).map v)
        ∧ ((∃ k, i < k ∧ k < j ∧ order (later (T k) ins) = .sort) →
          Close ((List.range 16).map v) →
            Ascending (shown (m.run ins (T j)) (later (T j) ins))) := by
  obtain ⟨T, hT⟩ := exists_menu_rounds hPC hprog hload
  have hrounds := hT.carried_out hPC hprog hload
  refine ⟨T, hT, fun i j v hij hi hj hbetween => ?_⟩
  have hshows := (hrounds j).2
  rw [hj] at hshows
  rw [hshows.1]
  exact Order.words_since (o := fun n => order (later (T n) ins))
    (l := fun n => words (m.run ins (T n)).mem) (fun n => (hrounds n).1) hi hij hbetween

omit hPC hprog hload in
/-- An entry of threes, and then a display. -/
theorem session_shows_shipped :
    let ins : ℕ → Input := fun n => ⟨if n = 5 then 1 else 3, true⟩
    ∃ T, Rounds selected ins T
      ∧ (shown (selected.run ins (T 1)) (later (T 1) ins)).Perm (List.replicate 16 3#16) := by
  intro ins
  obtain ⟨T, hT, hshows⟩ := @session_shows selected ins rfl (fun _ _ _ => rfl) fun _ => rfl
  have hpos : 0 < T 1 - T 0 := (hT.succ 0).1
  have hzero := hT.zero
  have hafter : ∀ n, n ≠ 5 → (ins n).S = 3 := fun n hn => if_neg hn
  have henter : order (later (T 0) ins) = .enter fun _ => 3 := by
    rw [hzero, order, if_pos (show (later 4 ins 1).S = 1 from rfl)]
    exact congrArg Order.enter (funext fun k => hafter (4 + (9 + 8 * k)) (by omega))
  have hdisplay : order (later (T 1) ins) = .display := by
    rw [order, show (later (T 1) ins 1).S = 3 from hafter (T 1 + 1) (by omega)]
    rfl
  exact ⟨T, hT, (hshows 0 1 _ Nat.one_pos henter hdisplay fun k hlo hhi => by omega).1⟩

end Session

end MenuProgram

end Isa

end Ece385
