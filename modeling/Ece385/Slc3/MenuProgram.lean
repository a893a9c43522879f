import Ece385.Slc3.SortProgram
import Ece385.Sync.Visits

/-!
# The menu

Words 90 to 155 of `test_memory`, on the documented machine: a menu that fills the
sixteen data words from the switches, sorts them and shows them. The menu decides on
a value behind a load, so these programs need loads that set the flags
(`load_sets_CC`), and the board has none.

The display function writes the `PAUSE` it executes, word 148: each checkpoint shows
its number. The word is left behind with the last number plus one, so that nothing
more than its opcode is known when the function is called again (`Code`).

A session is a list of orders, one a round of the menu (`menu_session`). What is
shown are the words entered last, in some order, and in ascending order behind a sort
(`session_shows`).
-/

namespace Ece385

namespace Isa

open Clocked Machine SLC3_2 SortProgram

namespace MenuProgram

/-! ## Ways through the program -/

/-- `n` instructions lead from `m` to `m'`, none of them word 94. -/
def Goes (m : Machine) (ins : ℕ → Input) (n : ℕ) (m' : Machine) : Prop :=
  ∃ pcs, Walk (fun m : Machine => m.PC) (fun i m => m.next i) m ins pcs m'
    ∧ pcs.length = n ∧ 94#16 ∉ pcs

section Goes

variable {m m₁ m' : Machine} {ins : ℕ → Input} {n n' : ℕ} {pcs : List (BitVec 16)}

theorem Goes.of_walk
    (h : Walk (fun m : Machine => m.PC) (fun i m => m.next i) m ins pcs m')
    (hpcs : 94#16 ∉ pcs := by decide) : Goes m ins pcs.length m' := ⟨pcs, h, rfl, hpcs⟩

theorem Goes.refl : Goes m ins 0 m := ⟨[], Walk.nil, rfl, List.not_mem_nil⟩

theorem Goes.run_eq (h : Goes m ins n m') : m.run ins n = m' := by
  obtain ⟨pcs, hwalk, rfl, -⟩ := h
  exact hwalk.1

theorem Goes.append (h : Goes m ins n m₁) (h' : Goes m₁ (later n ins) n' m') :
    Goes m ins (n + n') m' := by
  obtain ⟨pcs, hwalk, rfl, hpcs⟩ := h
  obtain ⟨pcs', hwalk', rfl, hpcs'⟩ := h'
  exact ⟨pcs ++ pcs', hwalk.append hwalk', List.length_append, fun h =>
    (List.mem_append.mp h).elim hpcs hpcs'⟩

/-- A round, from the `PAUSE` of the menu back to it. -/
theorem Goes.round (hPC : m.PC = 94#16) (h1 : m.next (ins 0) = m₁)
    (h : Goes m₁ (later 1 ins) n m') (hback : m'.PC = 94#16) :
    NextVisit (fun m : Machine => m.PC = 94#16) (m.run ins) (n + 1)
      ∧ m.run ins (n + 1) = m' := by
  obtain ⟨pcs, hwalk, rfl, hpcs⟩ := h
  have hround : Walk (fun m : Machine => m.PC) (fun i m => m.next i) m ins (94#16 :: pcs) m' :=
    .cons hPC h1 hwalk
  exact ⟨hround.nextVisit hpcs hback, hround.1⟩

end Goes

/-! ## The program in memory -/

/-- Word 148 is some `PAUSE`. -/
structure Code (mem : TestMemory.Words) : Prop where
  menu : Resident 90 147 mem
  rest : Resident 149 155 mem
  pause : Instr.opcode (mem 148#8) = op_PSE

theorem Code.of_others {mem mem' : TestMemory.Words} (h : Code mem)
    (ho : ∀ a : BitVec 8, a.toNat < 74 ∨ 89 < a.toNat → mem' a = mem a) : Code mem' := by
  have hword : ∀ k, 90 ≤ k → k ≤ 155 → mem' (BitVec.ofNat 8 k) = mem (BitVec.ofNat 8 k) := by
    intro k hlo hhi
    refine ho _ (Or.inr ?_)
    rw [BitVec.toNat_ofNat]
    omega
  refine ⟨fun k hlo hhi => ?_, fun k hlo hhi => ?_, ?_⟩
  · rw [hword k hlo (by omega), h.menu k hlo hhi]
  · rw [hword k (by omega) hhi, h.rest k hlo hhi]
  · rw [ho 148#8 (by decide), h.pause]

theorem Code.sort {mem : TestMemory.Words} (h : Code mem) : Resident 119 136 mem :=
  fun k hlo hhi => h.menu k (by omega) (by omega)

/-- What the menu relies on. -/
structure Ready (m : Machine) : Prop where
  R0_zero : m.R R0 = 0
  R6_data : m.R R6 = 74
  code : Code m.mem

theorem flags_next {m : Machine} {i : Input} (h : ∃ v, m.CC = Isa.nzp v) :
    ∃ v, (m.next i).CC = Isa.nzp v := by
  unfold Machine.next
  dsimp only
  split
  · exact ⟨_, rfl⟩
  · exact h

theorem flags_run {m : Machine} (ins : ℕ → Input) (h : ∃ v, m.CC = Isa.nzp v) (n : ℕ) :
    ∃ v, (m.run ins n).CC = Isa.nzp v := by
  induction n with
  | zero => exact h
  | succ n ih => exact flags_next ih

theorem taken_np (v : BitVec 16) : taken np (Isa.nzp v) ↔ v ≠ 0 := by
  have hzero := eq_zero_iff v
  rcases nzp_cases v with ⟨hv, h⟩ | ⟨hv, h⟩ | ⟨hv, h⟩ <;> rw [h]
  · exact iff_of_true (by decide) fun h0 => absurd (hzero.mp h0) (Int.ne_of_lt hv)
  · exact iff_of_false (by decide) fun hne => hne (hzero.mpr hv)
  · exact iff_of_true (by decide) fun h0 => absurd (hzero.mp h0) (Int.ne_of_gt hv)

/-! ## The selection -/

/-- While the menu compares, `R1` is the selection less the numbers tried. -/
structure Asks (m₀ : Machine) (v : BitVec 16) (tried : BitVec 16) (pc : BitVec 16)
    (m : Machine) : Prop where
  PC : m.PC = pc
  R1_eq : m.R R1 = v - tried
  regs : ∀ r, r ≠ R1 → m.R r = m₀.R r
  mem : m.mem = m₀.mem

/-- A function is called. -/
structure Calls (m₀ : Machine) (pc link : BitVec 16) (m : Machine) : Prop where
  PC : m.PC = pc
  R7_link : m.R R7 = link
  regs : ∀ r, r ≠ R1 → r ≠ R7 → m.R r = m₀.R r
  mem : m.mem = m₀.mem

section Menu

variable {m₀ m : Machine} {v k : BitVec 16} (hready : Ready m₀) (ins : ℕ → Input)

/-- A decrement and a branch: is it the next number? -/
theorem Asks.test {pc q : BitVec 16} {off : ℤ} (h : Asks m₀ v k pc m)
    (f₀ : m.fetch (ins 0) = opDEC R1)
    (f₁ : (m.setReg R1 (v - (k + 1))).fetch (ins 1) = opBR np off)
    (hq : pc + 2 + (imm 9 off).signExtend 16 = q) (hpcs : 94#16 ∉ [pc, pc + 1]) :
    ∃ m', Goes m ins 2 m' ∧ Asks m₀ v (k + 1) (if v = k + 1 then pc + 2 else q) m' := by
  obtain ⟨hPC, hR1, hregs, hmem⟩ := h
  have htwo : pc + 1 + 1 = pc + 2 := BitVec.add_assoc pc 1 1
  have hminus : v - k + (imm 5 (-1)).signExtend 16 = v - (k + 1) := by
    rw [show (imm 5 (-1)).signExtend 16 = -1#16 by decide, ← BitVec.sub_eq_add_neg]
    exact BitVec.sub_sub v k 1
  have s₀ : m.next (ins 0) = m.setReg R1 (v - (k + 1)) := by
    rw [next_opADDi (k := -1) f₀, hR1, hminus]
  have h₁ : (m.setReg R1 (v - (k + 1))).PC = pc + 1 := by rw [setReg_PC, hPC]
  have hgoes : ∀ q, (m.setReg R1 (v - (k + 1))).next (ins 1)
        = (m.setReg R1 (v - (k + 1))).goto q →
      Goes m ins 2 ((m.setReg R1 (v - (k + 1))).goto q)
        ∧ Asks m₀ v (k + 1) q ((m.setReg R1 (v - (k + 1))).goto q) := by
    intro q s₁
    refine ⟨.of_walk (.cons hPC s₀ (.cons h₁ s₁ .nil)) hpcs, rfl, by simp, fun r hr => ?_, hmem⟩
    simp [hr, hregs r hr]
  have hzero : v - (k + 1) = 0 ↔ v = k + 1 := by
    refine ⟨fun h => ?_, fun h => ?_⟩
    · rw [← BitVec.sub_add_cancel v (k + 1), h]
      exact BitVec.zero_add _
    · rw [h]
      exact BitVec.sub_self _
  by_cases hv : v = k + 1
  · rw [if_pos hv]
    refine ⟨_, hgoes (pc + 2) ?_⟩
    rw [next_opBR_of_not f₁, h₁, htwo]
    rw [setReg_CC, taken_np]
    exact fun hne => hne (hzero.mpr hv)
  · rw [if_neg hv]
    refine ⟨_, hgoes q (next_opBR f₁ ?_ (by rw [h₁, htwo, hq]))⟩
    rw [setReg_CC, taken_np]
    exact fun h => hv (hzero.mp h)

theorem Asks.call {pc q link : BitVec 16} {off : ℤ} (h : Asks m₀ v k pc m)
    (f₀ : m.fetch (ins 0) = opJSR off) (hq : pc + 1 + (imm 11 off).signExtend 16 = q)
    (hlink : pc + 1 = link) (hpc : 94#16 ∉ [pc]) :
    ∃ m', Goes m ins 1 m' ∧ Calls m₀ q link m' := by
  obtain ⟨hPC, hR1, hregs, hmem⟩ := h
  refine ⟨_, .of_walk (.cons hPC (next_opJSR f₀) .nil) hpc, ?_, ?_, fun r h1 h7 => ?_, hmem⟩
  · show m.PC + 1 + _ = q
    rw [hPC, hq]
  · show Function.update m.R R7 (m.PC + 1) R7 = link
    rw [Function.update_self, hPC, hlink]
  · show Function.update m.R R7 (m.PC + 1) r = m₀.R r
    rw [Function.update_of_ne h7, hregs r h1]

include hready

theorem Asks.code {pc : BitVec 16} (h : Asks m₀ v k pc m) : Code m.mem := by
  rw [h.mem]
  exact hready.code

/-- 95 and 96: a selection of 0 is none. -/
theorem select (hload : (ins 0).load_sets_CC = true) (hv : (ins 0).S = v) :
    ∃ m', Goes (m₀.goto 95#16) ins 2 m' ∧ Asks m₀ v 0 (if v = 0 then 94#16 else 97#16) m' := by
  subst hv
  have hm := hready.code.menu
  let m := m₀.goto 95#16
  let m₁ := m.loadReg (ins 0) R1 (ins 0).S
  have h₀ : m.PC = 95#16 := rfl
  have h₁ : m₁.PC = 96#16 := rfl
  have hin : m₀.R R0 + (imm 6 inSW).signExtend 16 = 0xFFFF#16 := by
    rw [hready.R0_zero]
    decide
  have s₀ : m.next (ins 0) = m₁ := by
    rw [next_opLDR (Resident.fetch (m := m) hm h₀ rfl), goto_R, hin]
    rfl
  have hCC : m₁.CC = Isa.nzp (ins 0).S := if_pos hload
  have f₁ : m₁.fetch (ins 1) = opBR z (-3) := Resident.fetch (m := m₁) hm h₁ rfl
  have hgoes : ∀ q, m₁.next (ins 1) = m₁.goto q →
      Goes m ins 2 (m₁.goto q) ∧ Asks m₀ (ins 0).S 0 q (m₁.goto q) := by
    intro q s₁
    refine ⟨.of_walk (.cons h₀ s₀ (.cons h₁ s₁ .nil)), rfl, ?_, fun r hr => ?_, rfl⟩
    · simp [m₁]
    · simp [m₁, m, hr]
  by_cases hzero : (ins 0).S = 0
  · rw [if_pos hzero]
    refine ⟨_, hgoes _ (next_opBR f₁ ?_ (by rw [h₁]; decide))⟩
    rw [hCC]
    exact (taken_z _).mpr hzero
  · rw [if_neg hzero]
    refine ⟨_, hgoes _ ((next_opBR_of_not f₁ ?_).trans (by rw [h₁]; rfl))⟩
    rw [hCC]
    exact fun h => hzero ((taken_z _).mp h)

/-- 95 to 107: the call the selection asks for, or the way back. -/
theorem dispatch (hload : (ins 0).load_sets_CC = true) (hv : (ins 0).S = v) :
    (v = 1 ∧ ∃ m', Goes (m₀.goto 95#16) ins 5 m' ∧ Calls m₀ 109#16 100#16 m')
      ∨ (v = 2 ∧ ∃ m', Goes (m₀.goto 95#16) ins 7 m' ∧ Calls m₀ 119#16 104#16 m')
      ∨ (v = 3 ∧ ∃ m', Goes (m₀.goto 95#16) ins 9 m' ∧ Calls m₀ 137#16 108#16 m')
      ∨ (v ≠ 1 ∧ v ≠ 2 ∧ v ≠ 3
        ∧ ∃ n m' k, Goes (m₀.goto 95#16) ins n m' ∧ Asks m₀ v k 94#16 m') := by
  obtain ⟨m₁, g₁, a₁⟩ := select hready ins hload hv
  by_cases h0 : v = 0
  · rw [if_pos h0] at a₁
    exact Or.inr (Or.inr (Or.inr ⟨by rw [h0]; decide, by rw [h0]; decide, by rw [h0]; decide,
      2, m₁, 0, g₁, a₁⟩))
  rw [if_neg h0] at a₁
  obtain ⟨m₂, g₂, a₂⟩ := a₁.test (later 2 ins) ((a₁.code hready).menu.fetch a₁.PC rfl)
    (Resident.fetch (m := m₁.setReg R1 (v - (0 + 1))) (a₁.code hready).menu
      (by rw [setReg_PC, a₁.PC]; rfl) rfl) (by decide : _ = 101#16) (by decide)
  have g := g₁.append g₂
  by_cases h1 : v = 0 + 1
  · rw [if_pos h1] at a₂
    obtain ⟨m', g', c⟩ := a₂.call (later 4 ins) ((a₂.code hready).menu.fetch a₂.PC rfl)
      (by decide : _ = 109#16) (by decide : _ = 100#16) (by decide)
    exact Or.inl ⟨h1, m', g.append g', c⟩
  rw [if_neg h1] at a₂
  obtain ⟨m₃, g₃, a₃⟩ := a₂.test (later 4 ins) ((a₂.code hready).menu.fetch a₂.PC rfl)
    (Resident.fetch (m := m₂.setReg R1 (v - (0 + 1 + 1))) (a₂.code hready).menu
      (by rw [setReg_PC, a₂.PC]; rfl) rfl) (by decide : _ = 105#16) (by decide)
  replace g := g.append g₃
  by_cases h2 : v = 0 + 1 + 1
  · rw [if_pos h2] at a₃
    obtain ⟨m', g', c⟩ := a₃.call (later 6 ins) ((a₃.code hready).menu.fetch a₃.PC rfl)
      (by decide : _ = 119#16) (by decide : _ = 104#16) (by decide)
    exact Or.inr (Or.inl ⟨h2, m', g.append g', c⟩)
  rw [if_neg h2] at a₃
  obtain ⟨m₄, g₄, a₄⟩ := a₃.test (later 6 ins) ((a₃.code hready).menu.fetch a₃.PC rfl)
    (Resident.fetch (m := m₃.setReg R1 (v - (0 + 1 + 1 + 1))) (a₃.code hready).menu
      (by rw [setReg_PC, a₃.PC]; rfl) rfl) (by decide : _ = 94#16) (by decide)
  replace g := g.append g₄
  by_cases h3 : v = 0 + 1 + 1 + 1
  · rw [if_pos h3] at a₄
    obtain ⟨m', g', c⟩ := a₄.call (later 8 ins) ((a₄.code hready).menu.fetch a₄.PC rfl)
      (by decide : _ = 137#16) (by decide : _ = 108#16) (by decide)
    exact Or.inr (Or.inr (Or.inl ⟨h3, m', g.append g', c⟩))
  rw [if_neg h3] at a₄
  exact Or.inr (Or.inr (Or.inr ⟨h1, h2, h3, 8, m₄, _, g, a₄⟩))

end Menu

/-- A function returns, and the menu starts over. -/
theorem back {m : Machine} {ins : ℕ → Input} {ret link : BitVec 16} {off : ℤ} (hPC : m.PC = ret)
    (f₀ : m.fetch (ins 0) = opRET) (hlink : m.R R7 = link)
    (f₁ : (m.goto link).fetch (ins 1) = opBR SLC3_2.nzp off)
    (hq : link + 1 + (imm 9 off).signExtend 16 = 94#16) (hflags : ∃ v, m.CC = Isa.nzp v)
    (hpcs : 94#16 ∉ [ret, link]) : Goes m ins 2 (m.goto 94#16) := by
  have s₀ : m.next (ins 0) = m.goto link := by rw [next_opRET f₀, hlink]
  have h₁ : (m.goto link).PC = link := rfl
  have s₁ : (m.goto link).next (ins 1) = m.goto 94#16 := by
    obtain ⟨v, hv⟩ := hflags
    exact next_opBR f₁ (by rw [goto_CC, hv]; exact taken_nzp v) (by rw [h₁, hq])
  exact .of_walk (.cons hPC s₀ (.cons h₁ s₁ .nil)) hpcs

/-! ## The entry function -/

/-- Before entry `k`. -/
structure Entering (m₀ : Machine) (link : BitVec 16) (v : ℕ → BitVec 16) (k : ℕ) (m : Machine) :
    Prop where
  PC : m.PC = if k < 16 then 110#16 else 118#16
  R0_zero : m.R R0 = 0
  R1_count : m.R R1 = BitVec.ofNat 16 k
  R6_data : m.R R6 = 74
  R7_link : m.R R7 = link
  entered : ∀ j, j < k → m.mem (cell j) = v j
  others : ∀ a : BitVec 8, a.toNat < 74 ∨ 89 < a.toNat → m.mem a = m₀.mem a

/-- The pointer, the store and the test of an entry. -/
theorem entry_counters : ∀ k < 16, 74 + BitVec.ofNat 16 k = BitVec.ofNat 16 (74 + k)
    ∧ BitVec.ofNat 16 (74 + k) + (imm 6 0).signExtend 16 = BitVec.ofNat 16 (74 + k)
    ∧ ((BitVec.ofNat 16 (k + 1) + (imm 5 (-16)).signExtend 16).toInt < 0 ↔ k + 1 < 16) := by
  decide

section Entry

variable {m₀ m : Machine} {link : BitVec 16} {v : ℕ → BitVec 16} {k : ℕ} (hcode : Code m₀.mem)
  (ins : ℕ → Input)
include hcode

/-- 110 to 117: the number is shown, and a word comes from the switches. -/
theorem Entering.next (h : Entering m₀ link v k m) (hk : k < 16) (hv : v k = (ins 2).S) :
    ∃ m₁ m', Goes m ins 1 m₁ ∧ m₁.PC = 111#16 ∧ m₁.hex_data = BitVec.ofNat 16 k
      ∧ Goes m ins 8 m' ∧ Entering m₀ link v (k + 1) m' := by
  obtain ⟨hPC, h0, h1, h6, h7, hentered, hothers⟩ := h
  rw [if_pos hk] at hPC
  obtain ⟨hptr, hoff, htest⟩ := entry_counters k hk
  have hm := (hcode.of_others hothers).menu
  let m₁ := m.store 0xFFFF#16 (m.R R1)
  let m₂ := m₁.goto 112#16
  let m₃ := m₂.loadReg (ins 2) R2 (ins 2).S
  let m₄ := m₃.setReg R5 (m₃.R R6 + m₃.R R1)
  let m₅ := m₄.store (BitVec.ofNat 16 (74 + k)) (ins 2).S
  let m₆ := m₅.setReg R1 (m₅.R R1 + 1)
  let m₇ := m₆.setReg R3 (m₆.R R1 + (imm 5 (-16)).signExtend 16)
  have hsmall : m₁.mem = m.mem := (store_hex m (m.R R1)).1
  have hm₁ : Resident 90 147 m₁.mem := by rwa [hsmall]
  have h₁ : m₁.PC = 111#16 := by simp [m₁, hPC]
  have h₂ : m₂.PC = 112#16 := rfl
  have h₃ : m₃.PC = 113#16 := rfl
  have h₄ : m₄.PC = 114#16 := rfl
  have h₅ : m₅.PC = 115#16 := by simp [m₅, h₄]
  have h₆ : m₆.PC = 116#16 := by simp [m₆, h₅]
  have h₇ : m₇.PC = 117#16 := by simp [m₇, h₆]
  have hin : (0 : BitVec 16) + (imm 6 inSW).signExtend 16 = 0xFFFF#16 := by decide
  have hR5 : m₄.R R5 = BitVec.ofNat 16 (74 + k) := by
    simp +decide [m₄, m₃, m₂, m₁, h6, h1, ← hptr]
  have hR2 : m₄.R R2 = (ins 2).S := by simp +decide [m₄, m₃]
  have hmem : m₅.mem = Function.update m.mem (cell k) (ins 2).S := by
    have hstore := (store_mem m₄ (ins 2).S _ (addr_small hk)).1
    rw [addr_cell] at hstore
    exact hstore.trans (by rw [← hsmall]; rfl)
  have hothers' : ∀ a : BitVec 8, a.toNat < 74 ∨ 89 < a.toNat → m₅.mem a = m₀.mem a := by
    intro a ha
    have hne : a ≠ cell k := by
      rintro rfl
      rw [cell_toNat hk] at ha
      omega
    rw [hmem, Function.update_of_ne hne, hothers a ha]
  have hm₅ := (hcode.of_others hothers').menu
  have s₀ : m.next (ins 0) = m₁ := by
    rw [next_opSTR (hm.fetch hPC rfl), h0]
    exact congrArg (fun a => m.store a (m.R R1)) hin
  have s₁ : m₁.next (ins 1) = m₂ := by
    rw [next_opPSE (Resident.fetch (m := m₁) hm₁ h₁ rfl), h₁]
    rfl
  have s₂ : m₂.next (ins 2) = m₃ := by
    have hbase : m₂.R R0 = 0 := by simp [m₂, m₁, h0]
    rw [next_opLDR (Resident.fetch (m := m₂) hm₁ h₂ rfl), hbase, hin]
    rfl
  have s₃ : m₃.next (ins 3) = m₄ := next_opADD (Resident.fetch (m := m₃) hm₁ h₃ rfl)
  have s₄ : m₄.next (ins 4) = m₅ := by
    rw [next_opSTR (Resident.fetch (m := m₄) hm₁ h₄ rfl), hR5, hoff, hR2]
  have s₅ : m₅.next (ins 5) = m₆ := next_opINC (Resident.fetch (m := m₅) hm₅ h₅ rfl)
  have s₆ : m₆.next (ins 6) = m₇ := next_opADDi (Resident.fetch (m := m₆) hm₅ h₆ rfl)
  have f₇ : m₇.fetch (ins 7) = opBR n (-8) := Resident.fetch (m := m₇) hm₅ h₇ rfl
  have hR1 : m₆.R R1 = BitVec.ofNat 16 (k + 1) := by
    have hold : m₅.R R1 = BitVec.ofNat 16 k := by simp +decide [m₅, m₄, m₃, m₂, m₁, h1]
    simp only [m₆, setReg_R, if_true, hold]
    exact (BitVec.ofNat_add k 1).symm
  have hCC : m₇.CC = Isa.nzp (BitVec.ofNat 16 (k + 1) + (imm 5 (-16)).signExtend 16) := by
    rw [← hR1]
    rfl
  have hshow : Goes m ins 1 m₁ := .of_walk (.cons hPC s₀ .nil)
  have hhex : m₁.hex_data = BitVec.ofNat 16 k := (store_hex m (m.R R1)).2.trans h1
  have hgoes : ∀ q, m₇.next (ins 7) = m₇.goto q → Goes m ins 8 (m₇.goto q) := fun q s₇ =>
    .of_walk (.cons hPC s₀ (.cons h₁ s₁ (.cons h₂ s₂ (.cons h₃ s₃ (.cons h₄ s₄ (.cons h₅ s₅
      (.cons h₆ s₆ (.cons h₇ s₇ .nil))))))))
  have hinside : ∀ q, q = (if k + 1 < 16 then 110#16 else 118#16) →
      Entering m₀ link v (k + 1) (m₇.goto q) := by
    intro q hq
    refine ⟨hq, ?_, ?_, ?_, ?_, fun j hj => ?_, hothers'⟩
    · simp +decide [m₇, m₆, m₅, m₄, m₃, m₂, m₁, h0]
    · rw [← hR1]
      simp +decide [m₇]
    · simp +decide [m₇, m₆, m₅, m₄, m₃, m₂, m₁, h6]
    · simp +decide [m₇, m₆, m₅, m₄, m₃, m₂, m₁, h7]
    · show m₅.mem (cell j) = v j
      rw [hmem]
      rcases Nat.lt_or_eq_of_le (Nat.le_of_lt_succ hj) with hlt | rfl
      · have hne : cell j ≠ cell k := fun he => absurd (cell_inj (by omega) hk he) (by omega)
        rw [Function.update_of_ne hne, hentered j hlt]
      · rw [Function.update_self, hv]
  by_cases hlast : k + 1 < 16
  · refine ⟨m₁, _, hshow, h₁, hhex, hgoes 110#16 (next_opBR f₇ ?_ (by rw [h₇]; decide)),
      hinside _ (if_pos hlast).symm⟩
    rw [hCC, taken_n, htest]
    exact hlast
  · refine ⟨m₁, _, hshow, h₁, hhex, hgoes 118#16 ((next_opBR_of_not f₇ ?_).trans (by rw [h₇]; rfl)),
      hinside _ (if_neg hlast).symm⟩
    rw [hCC, taken_n, htest]
    exact hlast

theorem Entering.loop (h : Entering m₀ link v 0 m) (hv : ∀ k, k < 16 → v k = (ins (2 + 8 * k)).S)
    (hk : k ≤ 16) : ∃ m', Goes m ins (8 * k) m' ∧ Entering m₀ link v k m' := by
  induction k with
  | zero => exact ⟨m, .refl, h⟩
  | succ k ih =>
      obtain ⟨m₁, g₁, h₁⟩ := ih (Nat.le_of_succ_le hk)
      have hsw : v k = (later (8 * k) ins 2).S := by
        rw [hv k hk, later_apply, Nat.add_comm]
      obtain ⟨-, m₂, -, -, -, g₂, h₂⟩ := h₁.next hcode (later (8 * k) ins) hk hsw
      exact ⟨m₂, g₁.append g₂, h₂⟩

/-- The function and the way back: 16 words from the switches. -/
theorem entry (h : Calls m₀ 109#16 100#16 m) (h0 : m₀.R R0 = 0) (h6 : m₀.R R6 = 74)
    (hflags : ∃ v, m.CC = Isa.nzp v) :
    ∃ m', Goes m ins 131 m' ∧ m'.PC = 94#16 ∧ Ready m'
      ∧ words m'.mem = (List.range 16).map (fun k => (ins (3 + 8 * k)).S)
      ∧ ∀ k, k < 16 → (m.run ins (2 + 8 * k)).PC = 111#16
        ∧ (m.run ins (2 + 8 * k)).hex_data = BitVec.ofNat 16 k := by
  obtain ⟨hPC, hlink, hregs, hmem⟩ := h
  have hm : Resident 90 147 m.mem := by rw [hmem]; exact hcode.menu
  let m₁ := m.setReg R1 0
  have s₀ : m.next (ins 0) = m₁ := next_opCLR (hm.fetch hPC rfl)
  have g₁ : Goes m ins 1 m₁ := .of_walk (.cons hPC s₀ .nil)
  have hfirst : Entering m₀ 100#16 (fun k => (ins (3 + 8 * k)).S) 0 m₁ := by
    refine ⟨by simp [m₁, hPC], ?_, by simp [m₁], ?_, ?_, fun j hj => absurd hj (Nat.not_lt_zero j),
      fun a _ => congrFun hmem a⟩
    · rw [← h0, ← hregs R0 (by decide) (by decide)]
      simp +decide [m₁]
    · rw [← h6, ← hregs R6 (by decide) (by decide)]
      simp +decide [m₁]
    · rw [← hlink]
      simp +decide [m₁]
  have hsw : ∀ j k, 1 + (8 * k + j) = j + 1 + 8 * k := fun j k => by omega
  have hloop := fun k => hfirst.loop hcode (later 1 ins) (k := k) fun j _ => by
    rw [later_apply, Nat.add_comm 2, hsw]
  have hshows : ∀ k, k < 16 → (m.run ins (2 + 8 * k)).PC = 111#16
      ∧ (m.run ins (2 + 8 * k)).hex_data = BitVec.ofNat 16 k := by
    intro k hk
    obtain ⟨m₂, g₂, h₂⟩ := hloop k (Nat.le_of_lt hk)
    obtain ⟨m₃, -, g₃, hPC₃, hhex₃, -⟩ := h₂.next hcode (later (8 * k) (later 1 ins)) hk (by
      rw [later_apply, later_apply, hsw])
    have hrun := (g₁.append (g₂.append g₃)).run_eq
    rw [hsw] at hrun
    rw [hrun]
    exact ⟨hPC₃, hhex₃⟩
  obtain ⟨m₂, g₂, h₂⟩ := hloop 16 (Nat.le_refl 16)
  have hPC₂ : m₂.PC = 118#16 := h₂.PC
  have g := g₁.append g₂
  have hcode₂ := hcode.of_others h₂.others
  have hflags₂ : ∃ v, m₂.CC = Isa.nzp v := by
    have hrun := flags_run ins hflags (1 + 8 * 16)
    rwa [g.run_eq] at hrun
  have gback : Goes m₂ (later 129 ins) 2 (m₂.goto 94#16) :=
    back hPC₂ (hcode₂.menu.fetch hPC₂ rfl) h₂.R7_link
      (Resident.fetch (m := m₂.goto 100#16) hcode₂.menu rfl rfl) (by decide) hflags₂ (by decide)
  exact ⟨m₂.goto 94#16, g.append gback, rfl, ⟨h₂.R0_zero, h₂.R6_data, hcode₂⟩,
    List.map_congr_left fun k hk => h₂.entered k (List.mem_range.mp hk), hshows⟩

end Entry

/-! ## The sort function -/

theorem sort {m₀ m : Machine} (hcode : Code m₀.mem) (ins : ℕ → Input)
    (h : Calls m₀ 119#16 104#16 m) (h0 : m₀.R R0 = 0) (h6 : m₀.R R6 = 74)
    (hflags : ∃ v, m.CC = Isa.nzp v) :
    ∃ n m', Goes m ins n m' ∧ m'.PC = 94#16 ∧ Ready m' ∧ Sorts m m' := by
  obtain ⟨hPC, hlink, hregs, hmem⟩ := h
  have hprog : Resident 119 136 m.mem := by
    rw [hmem]
    exact hcode.sort
  have hR0 : m.R R0 = 0 := (hregs R0 (by decide) (by decide)).trans h0
  have hR6 : m.R R6 = 74 := (hregs R6 (by decide) (by decide)).trans h6
  obtain ⟨pcs, m₁, ⟨hwalk, hpcs⟩, hlast⟩ := SortProgram.body hprog ins hPC hR0 hR6
  have hPC₁ : m₁.PC = 136#16 := hlast.PC
  have hsorts : Sorts m m₁ := hlast.sorts hR0 hR6 rfl rfl
  have g₁ : Goes m ins pcs.length m₁ :=
    .of_walk hwalk fun h94 => absurd (hpcs 94#16 h94) (by decide)
  have hcode₁ : Code m₁.mem := hcode.of_others fun a ha => by rw [hsorts.others a ha, hmem]
  have hflags₁ : ∃ v, m₁.CC = Isa.nzp v := by
    have hrun := flags_run ins hflags pcs.length
    rwa [g₁.run_eq] at hrun
  have gback : Goes m₁ (later pcs.length ins) 2 (m₁.goto 94#16) :=
    back hPC₁ (hcode₁.menu.fetch hPC₁ rfl) (hlast.inside.R7_link.trans hlink)
      (Resident.fetch (m := m₁.goto 104#16) hcode₁.menu rfl rfl) (by decide) hflags₁ (by decide)
  exact ⟨_, m₁.goto 94#16, g₁.append gback, rfl,
    ⟨hlast.inside.R0_zero, hlast.inside.R6_data, hcode₁⟩, hlast.sorts hR0 hR6 rfl rfl⟩

/-! ## The display function -/

/-- The checkpoint of word `k`. -/
def checkpoint (k : ℕ) : BitVec 16 := opPSE (0x802 + BitVec.ofNat 12 (16 * k))

/-- Before word `k` is shown. -/
structure Showing (m₀ : Machine) (link : BitVec 16) (k : ℕ) (m : Machine) : Prop where
  PC : m.PC = if k < 16 then 145#16 else 154#16
  R0_zero : m.R R0 = 0
  R1_count : m.R R1 = BitVec.ofNat 16 k
  R2_step : m.R R2 = 16
  R3_next : m.R R3 = checkpoint k
  R5_base : m.R R5 = 140
  R6_data : m.R R6 = 74
  R7_link : m.R R7 = link
  pause : Instr.opcode (m.mem 148#8) = op_PSE
  modified : 0 < k → m.mem 148#8 = checkpoint k
  others : ∀ a : BitVec 8, a ≠ 148#8 → m.mem a = m₀.mem a

theorem checkpoint_next : ∀ k < 16, checkpoint k + 16 = checkpoint (k + 1) := by decide

theorem checkpoint_pause (k : ℕ) : Instr.opcode (checkpoint k) = op_PSE :=
  BitVec.extractLsb'_append_eq_left

section Display

variable {m₀ m : Machine} {link : BitVec 16} {k : ℕ} (hcode : Code m₀.mem) (ins : ℕ → Input)
include hcode

theorem Code.of_pause {mem : TestMemory.Words} (hpause : Instr.opcode (mem 148#8) = op_PSE)
    (hothers : ∀ a : BitVec 8, a ≠ 148#8 → mem a = m₀.mem a) : Code mem := by
  have hword : ∀ k, k ≤ 155 → k ≠ 148 → mem (BitVec.ofNat 8 k) = m₀.mem (BitVec.ofNat 8 k) := by
    intro k hhi hne
    refine hothers _ fun h => hne ?_
    have hnat := congrArg BitVec.toNat h
    rw [BitVec.toNat_ofNat] at hnat
    have h148 : (148#8).toNat = 148 := rfl
    omega
  refine ⟨fun k hlo hhi => ?_, fun k hlo hhi => ?_, hpause⟩
  · rw [hword k (by omega) (by omega), hcode.menu k hlo hhi]
  · rw [hword k hhi (by omega), hcode.rest k hlo hhi]

/-- 145 to 153: a word is shown at its checkpoint, and the next checkpoint is written. -/
theorem Showing.next (h : Showing m₀ link k m) (hk : k < 16) :
    ∃ m₁ m', Goes m ins 3 m₁ ∧ m₁.PC = 148#16 ∧ m₁.hex_data = m₀.mem (cell k) ∧ m₁.mem = m.mem
      ∧ Goes m ins 9 m' ∧ Showing m₀ link (k + 1) m' := by
  obtain ⟨hPC, h0, h1, h2, h3, h5, h6, h7, hpause, -, hothers⟩ := h
  rw [if_pos hk] at hPC
  obtain ⟨hptr, hoff, htest⟩ := entry_counters k hk
  obtain ⟨hm, hrest, -⟩ := Code.of_pause hcode hpause hothers
  have hcell : m.mem (cell k) = m₀.mem (cell k) := by
    refine hothers _ fun h => ?_
    have hnat := cell_toNat hk
    rw [h] at hnat
    have h148 : (148#8).toNat = 148 := rfl
    omega
  let m₁ := m.setReg R4 (m.R R6 + m.R R1)
  let m₂ := m₁.loadReg (ins 1) R4 (m₀.mem (cell k))
  let m₃ := m₂.store 0xFFFF#16 (m₀.mem (cell k))
  let m₄ := m₃.goto 149#16
  let m₅ := m₄.setReg R3 (m₄.R R3 + m₄.R R2)
  let m₆ := m₅.store 148#16 (checkpoint (k + 1))
  let m₇ := m₆.setReg R1 (m₆.R R1 + 1)
  let m₈ := m₇.setReg R4 (m₇.R R1 + (imm 5 (-16)).signExtend 16)
  have hsame : m₃.mem = m.mem := (store_hex m₂ (m₀.mem (cell k))).1
  have hhex : m₃.hex_data = m₀.mem (cell k) := (store_hex m₂ (m₀.mem (cell k))).2
  have hm₃ : Resident 90 147 m₃.mem := by rwa [hsame]
  have hrest₃ : Resident 149 155 m₃.mem := by rwa [hsame]
  have h₁ : m₁.PC = 146#16 := by simp [m₁, hPC]
  have h₂ : m₂.PC = 147#16 := by simp [m₂, h₁]
  have h₃ : m₃.PC = 148#16 := by simp [m₃, h₂]
  have h₄ : m₄.PC = 149#16 := rfl
  have h₅ : m₅.PC = 150#16 := rfl
  have h₆ : m₆.PC = 151#16 := by simp [m₆, h₅]
  have h₇ : m₇.PC = 152#16 := by simp [m₇, h₆]
  have h₈ : m₈.PC = 153#16 := by simp [m₈, h₇]
  have hR4 : m₁.R R4 = BitVec.ofNat 16 (74 + k) := by
    rw [← hptr, ← h6, ← h1]
    simp [m₁]
  have hmem : m₆.mem = Function.update m.mem 148#8 (checkpoint (k + 1)) := by
    rw [← hsame]
    exact (store_mem m₅ (checkpoint (k + 1)) 148#16 (by decide)).1
  have hword : m₆.mem 148#8 = checkpoint (k + 1) := by rw [hmem, Function.update_self]
  have hothers' : ∀ a : BitVec 8, a ≠ 148#8 → m₆.mem a = m₀.mem a := fun a ha => by
    rw [hmem, Function.update_of_ne ha, hothers a ha]
  have hpause' : Instr.opcode (m₆.mem 148#8) = op_PSE := by rw [hword, checkpoint_pause]
  have hrest₆ := (Code.of_pause hcode hpause' hothers').rest
  have s₀ : m.next (ins 0) = m₁ := next_opADD (hm.fetch hPC rfl)
  have s₁ : m₁.next (ins 1) = m₂ := by
    rw [next_opLDR (Resident.fetch (m := m₁) hm h₁ rfl), hR4, hoff, rd_cell m₁ _ hk]
    exact congrArg (m₁.loadReg (ins 1) R4) hcell
  have s₂ : m₂.next (ins 2) = m₃ := by
    have hbase : m₂.R R0 = 0 := by simp +decide [m₂, m₁, h0]
    have hout : (0 : BitVec 16) + (imm 6 outHEX).signExtend 16 = 0xFFFF#16 := by decide
    have hval : m₂.R R4 = m₀.mem (cell k) := by simp [m₂]
    rw [next_opSTR (Resident.fetch (m := m₂) hm h₂ rfl), hbase, hval, hout]
  have s₃ : m₃.next (ins 3) = m₄ := by
    have hfetch : m₃.fetch (ins 3) = m.mem 148#8 := by
      rw [Machine.fetch, Arch.rd, h₃, if_neg (by decide), hsame]
      rfl
    rw [next_PSE hfetch hpause, h₃]
    rfl
  have s₄ : m₄.next (ins 4) = m₅ := next_opADD (Resident.fetch (m := m₄) hrest₃ h₄ rfl)
  have s₅ : m₅.next (ins 5) = m₆ := by
    have hbase : m₅.R R5 = 140 := by simp +decide [m₅, m₄, m₃, m₂, m₁, h5]
    have hval : m₅.R R3 = checkpoint (k + 1) := by
      rw [← checkpoint_next k hk, ← h3, ← h2]
      simp +decide [m₅, m₄, m₃, m₂, m₁]
    have haddr : (140 : BitVec 16) + (imm 6 8).signExtend 16 = 148#16 := by decide
    rw [next_opSTR (Resident.fetch (m := m₅) hrest₃ h₅ rfl), hbase, hval, haddr]
  have s₆ : m₆.next (ins 6) = m₇ := next_opINC (Resident.fetch (m := m₆) hrest₆ h₆ rfl)
  have s₇ : m₇.next (ins 7) = m₈ := next_opADDi (Resident.fetch (m := m₇) hrest₆ h₇ rfl)
  have f₈ : m₈.fetch (ins 8) = opBR n (-9) := Resident.fetch (m := m₈) hrest₆ h₈ rfl
  have hR1 : m₇.R R1 = BitVec.ofNat 16 (k + 1) := by
    have hold : m₆.R R1 = BitVec.ofNat 16 k := by simp +decide [m₆, m₅, m₄, m₃, m₂, m₁, h1]
    simp only [m₇, setReg_R, if_true, hold]
    exact (BitVec.ofNat_add k 1).symm
  have hCC : m₈.CC = Isa.nzp (BitVec.ofNat 16 (k + 1) + (imm 5 (-16)).signExtend 16) := by
    rw [← hR1]
    rfl
  have hgoes : ∀ q, m₈.next (ins 8) = m₈.goto q → Goes m ins 9 (m₈.goto q) := fun q s₈ =>
    .of_walk (.cons hPC s₀ (.cons h₁ s₁ (.cons h₂ s₂ (.cons h₃ s₃ (.cons h₄ s₄ (.cons h₅ s₅
      (.cons h₆ s₆ (.cons h₇ s₇ (.cons h₈ s₈ .nil)))))))))
  have hinside : ∀ q, q = (if k + 1 < 16 then 145#16 else 154#16) →
      Showing m₀ link (k + 1) (m₈.goto q) := by
    intro q hq
    refine ⟨hq, ?_, ?_, ?_, ?_, ?_, ?_, ?_, hpause', fun _ => hword, hothers'⟩
    · simp +decide [m₈, m₇, m₆, m₅, m₄, m₃, m₂, m₁, h0]
    · rw [← hR1]
      simp +decide [m₈]
    · simp +decide [m₈, m₇, m₆, m₅, m₄, m₃, m₂, m₁, h2]
    · rw [← checkpoint_next k hk, ← h3, ← h2]
      simp +decide [m₈, m₇, m₆, m₅, m₄, m₃, m₂, m₁]
    · simp +decide [m₈, m₇, m₆, m₅, m₄, m₃, m₂, m₁, h5]
    · simp +decide [m₈, m₇, m₆, m₅, m₄, m₃, m₂, m₁, h6]
    · simp +decide [m₈, m₇, m₆, m₅, m₄, m₃, m₂, m₁, h7]
  have hshow : Goes m ins 3 m₃ := .of_walk (.cons hPC s₀ (.cons h₁ s₁ (.cons h₂ s₂ .nil)))
  by_cases hlast : k + 1 < 16
  · refine ⟨m₃, _, hshow, h₃, hhex, hsame, hgoes 145#16 (next_opBR f₈ ?_ (by rw [h₈]; decide)),
      hinside _ (if_pos hlast).symm⟩
    rw [hCC, taken_n, htest]
    exact hlast
  · refine ⟨m₃, _, hshow, h₃, hhex, hsame, hgoes 154#16 ((next_opBR_of_not f₈ ?_).trans
      (by rw [h₈]; rfl)), hinside _ (if_neg hlast).symm⟩
    rw [hCC, taken_n, htest]
    exact hlast

theorem Showing.loop (h : Showing m₀ link 0 m) (hk : k ≤ 16) :
    ∃ m', Goes m ins (9 * k) m' ∧ Showing m₀ link k m' := by
  induction k with
  | zero => exact ⟨m, .refl, h⟩
  | succ k ih =>
      obtain ⟨m₁, g₁, h₁⟩ := ih (Nat.le_of_succ_le hk)
      obtain ⟨-, m₂, -, -, -, -, g₂, h₂⟩ := h₁.next hcode (later (9 * k) ins) hk
      exact ⟨m₂, g₁.append g₂, h₂⟩

/-- 137 to 144: `R5` is the place of the code, by way of a call of the next word. -/
theorem enter_display (h : Calls m₀ 137#16 link m) (h0 : m₀.R R0 = 0) (h6 : m₀.R R6 = 74) :
    ∃ m', Goes m ins 8 m' ∧ Showing m₀ link 0 m' := by
  obtain ⟨hPC, hlink, hregs, hmem⟩ := h
  obtain ⟨hm, hrest, hpause⟩ := hcode
  rw [← hmem] at hm hrest hpause
  have hR0 : m.R R0 = 0 := (hregs R0 (by decide) (by decide)).trans h0
  have hR6 : m.R R6 = 74 := (hregs R6 (by decide) (by decide)).trans h6
  let m₁ := m.setReg R1 0
  let m₂ := m₁.setReg R4 (m₁.R R7 + m₁.R R0)
  let m₃ : Machine := { m₂ with PC := 140#16, R := Function.update m₂.R R7 140#16 }
  let m₄ := m₃.setReg R5 (m₃.R R7 + m₃.R R0)
  let m₅ := m₄.setReg R7 (m₄.R R4 + m₄.R R0)
  let m₆ := m₅.loadReg (ins 5) R3 (checkpoint 0)
  let m₇ := m₆.setReg R2 (m₆.R R0 + (imm 5 8).signExtend 16)
  let m₈ := m₇.setReg R2 (m₇.R R2 + m₇.R R2)
  have hR₃ : ∀ r, m₃.R r = if r = R7 then 140#16 else m₂.R r := fun r =>
    Function.update_apply ..
  have h₁ : m₁.PC = 138#16 := by simp [m₁, hPC]
  have h₂ : m₂.PC = 139#16 := by simp [m₂, h₁]
  have h₃ : m₃.PC = 140#16 := rfl
  have h₄ : m₄.PC = 141#16 := rfl
  have h₅ : m₅.PC = 142#16 := rfl
  have h₆ : m₆.PC = 143#16 := rfl
  have h₇ : m₇.PC = 144#16 := rfl
  have s₀ : m.next (ins 0) = m₁ := next_opCLR (hm.fetch hPC rfl)
  have s₁ : m₁.next (ins 1) = m₂ := next_opADD (Resident.fetch (m := m₁) hm h₁ rfl)
  have s₂ : m₂.next (ins 2) = m₃ := by
    rw [next_opJSR (Resident.fetch (m := m₂) hm h₂ rfl), h₂]
    rfl
  have s₃ : m₃.next (ins 3) = m₄ := next_opADD (Resident.fetch (m := m₃) hm h₃ rfl)
  have s₄ : m₄.next (ins 4) = m₅ := next_opADD (Resident.fetch (m := m₄) hm h₄ rfl)
  have s₅ : m₅.next (ins 5) = m₆ := by
    have hbase : m₅.R R5 = 140#16 := by simp +decide [m₅, m₄, hR₃, m₂, m₁, hR0]
    have haddr : (140#16 : BitVec 16) + (imm 6 15).signExtend 16 = 155#16 := by decide
    rw [next_opLDR (Resident.fetch (m := m₅) hm h₅ rfl), hbase, haddr]
    exact congrArg (m₅.loadReg (ins 5) R3) (hrest 155 (by decide) (by decide))
  have s₆ : m₆.next (ins 6) = m₇ := next_opADDi (Resident.fetch (m := m₆) hm h₆ rfl)
  have s₇ : m₇.next (ins 7) = m₈ := next_opADD (Resident.fetch (m := m₇) hm h₇ rfl)
  refine ⟨m₈, .of_walk (.cons hPC s₀ (.cons h₁ s₁ (.cons h₂ s₂ (.cons h₃ s₃ (.cons h₄ s₄
    (.cons h₅ s₅ (.cons h₆ s₆ (.cons h₇ s₇ .nil)))))))), rfl, ?_, ?_, ?_, ?_, ?_, ?_, ?_, hpause,
    fun h => absurd h (Nat.lt_irrefl 0), fun a _ => congrFun hmem a⟩
  · simp +decide [m₈, m₇, m₆, m₅, m₄, hR₃, m₂, m₁, hR0]
  · simp +decide [m₈, m₇, m₆, m₅, m₄, hR₃, m₂, m₁]
  · simp +decide [m₈, m₇, m₆, m₅, m₄, hR₃, m₂, m₁, hR0]
  · simp +decide [m₈, m₇, m₆]
  · simp +decide [m₈, m₇, m₆, m₅, m₄, hR₃, m₂, m₁, hR0]
  · simp +decide [m₈, m₇, m₆, m₅, m₄, hR₃, m₂, m₁, hR6]
  · simp +decide [m₈, m₇, m₆, m₅, m₄, hR₃, m₂, m₁, hR0, hlink]

theorem display (h : Calls m₀ 137#16 108#16 m) (h0 : m₀.R R0 = 0) (h6 : m₀.R R6 = 74)
    (hflags : ∃ v, m.CC = Isa.nzp v) :
    ∃ m', Goes m ins 154 m' ∧ m'.PC = 94#16 ∧ Ready m' ∧ words m'.mem = words m₀.mem
      ∧ ∀ k, k < 16 → (m.run ins (11 + 9 * k)).PC = 148#16
        ∧ (m.run ins (11 + 9 * k)).hex_data = m₀.mem (cell k)
        ∧ (0 < k → (m.run ins (11 + 9 * k)).mem 148#8 = checkpoint k) := by
  obtain ⟨m₁, g₁, hfirst⟩ := enter_display hcode ins h h0 h6
  have hloop := fun k => hfirst.loop hcode (later 8 ins) (k := k)
  have hshows : ∀ k, k < 16 → (m.run ins (11 + 9 * k)).PC = 148#16
      ∧ (m.run ins (11 + 9 * k)).hex_data = m₀.mem (cell k)
      ∧ (0 < k → (m.run ins (11 + 9 * k)).mem 148#8 = checkpoint k) := by
    intro k hk
    obtain ⟨m₂, g₂, h₂⟩ := hloop k (Nat.le_of_lt hk)
    obtain ⟨m₃, -, g₃, hPC₃, hhex₃, hmem₃, -⟩ := h₂.next hcode (later (9 * k) (later 8 ins)) hk
    have hrun := (g₁.append (g₂.append g₃)).run_eq
    rw [show 8 + (9 * k + 3) = 11 + 9 * k by omega] at hrun
    rw [hrun, hmem₃]
    exact ⟨hPC₃, hhex₃, h₂.modified⟩
  obtain ⟨m₂, g₂, h₂⟩ := hloop 16 (Nat.le_refl 16)
  have hPC₂ : m₂.PC = 154#16 := h₂.PC
  have g := g₁.append g₂
  have hcode₂ := Code.of_pause hcode h₂.pause h₂.others
  have hflags₂ : ∃ v, m₂.CC = Isa.nzp v := by
    have hrun := flags_run ins hflags (8 + 9 * 16)
    rwa [g.run_eq] at hrun
  have gback : Goes m₂ (later 152 ins) 2 (m₂.goto 94#16) :=
    back hPC₂ (hcode₂.rest.fetch hPC₂ rfl) h₂.R7_link
      (Resident.fetch (m := m₂.goto 108#16) hcode₂.menu rfl rfl) (by decide) hflags₂ (by decide)
  refine ⟨m₂.goto 94#16, g.append gback, rfl, ⟨h₂.R0_zero, h₂.R6_data, hcode₂⟩,
    List.map_congr_left fun k hk => h₂.others _ fun h => ?_, hshows⟩
  have hnat := cell_toNat (List.mem_range.mp hk)
  rw [h] at hnat
  have hk := List.mem_range.mp hk
  have h148 : (148#8).toNat = 148 := rfl
  omega

end Display

end MenuProgram

end Isa

end Ece385
