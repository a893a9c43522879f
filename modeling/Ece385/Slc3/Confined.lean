import Ece385.Slc3.Hardware

/-!
# Programs that go nowhere on the board

A look at the words of a program is enough to see where the board can get with
it: `successors` lists where an instruction may lead once the flag `n` is set,
which is for good after the first ALU instruction (`bit_n_next`). If a list of
addresses is `Closed` under that and holds no store, a program in it stays in it
and changes neither the memory nor the display, whatever is on the switches and
however `Run` and `Continue` are pressed (`confined`); the reset button is the
one way out, and is left alone here.

Two of the shipped programs end like this, because a branch on `n` among other
flags always jumps on the board: the multiplication never leaves its loop for
the store of the result (`multiplication_never_shown`), and the menu of the sort
program jumps over every call (`menu_never_calls`).
-/

namespace Ece385

open Clocked

namespace Core

open Isa (Resident)

/-- Where the instruction `w` at `PC` can lead with the flag `n` set; `none` for a
store, and for a jump to a register. -/
def successors (w PC : BitVec 16) : Option (List (BitVec 16)) :=
  match Isdu.decode (Instr.opcode w) with
  | .S_07 => none
  | .S_12 => none
  | .S_00 =>
      if w.getLsbD 11 then some [PC + 1 + Instr.off9 w]
      else some [PC + 1, PC + 1 + Instr.off9 w]
  | .S_04 => some [PC + 1 + Instr.off11 w]
  | _ => some [PC + 1]

def Stays (K : List (BitVec 16)) : Option (List (BitVec 16)) → Prop
  | some l => ∀ pc ∈ l, pc ∈ K
  | none => False

instance (K : List (BitVec 16)) : DecidablePred (Stays K)
  | some l => List.decidableBAll (· ∈ K) l
  | none => inferInstanceAs (Decidable False)

/-- No way out of `K`. -/
def Closed (K : List (BitVec 16)) (mem : TestMemory.Words) : Prop :=
  ∀ pc ∈ K, pc ≠ 0xFFFF#16 ∧ Stays K (successors (mem (pc.extractLsb' 0 8)) pc)

instance (K : List (BitVec 16)) (mem : TestMemory.Words) : Decidable (Closed K mem) :=
  List.decidableBAll _ K

/-- Between two words of the low memory. -/
def Within (K : List (BitVec 16)) (lo hi : ℕ) : Prop := ∀ pc ∈ K, lo ≤ pc.toNat ∧ pc.toNat ≤ hi

instance (K : List (BitVec 16)) (lo hi : ℕ) : Decidable (Within K lo hi) :=
  List.decidableBAll _ K

section Step

variable {a : Core TestMemory.Words} {i : Samples} {w : BitVec 16}

theorem bit_n_next (i : Samples) (h : a.CC.getLsbD 2 = true) :
    (a.next testMemory i).CC.getLsbD 2 = true := by
  unfold next effect exec
  split
  · exact ccOf_bit_n _
  · exact ccOf_bit_n _
  · exact ccOf_bit_n _
  all_goals exact h

theorem benOf_bit_n {w : BitVec 16} {CC : BitVec 3} (hw : w.getLsbD 11 = true)
    (h : CC.getLsbD 2 = true) : Datapath.benOf w CC = true := by
  simp only [Datapath.benOf, ← BitVec.getLsbD_eq_getElem, hw, h]
  rfl

theorem next_of_successors {l : List (BitVec 16)} (hn : a.CC.getLsbD 2 = true)
    (hw : a.fetch i = w) (hl : successors w a.PC = some l) :
    (a.next testMemory i).PC ∈ l ∧ (a.next testMemory i).mem = a.mem
      ∧ (a.next testMemory i).hex_data = a.hex_data := by
  rw [next_eq hw]
  unfold successors at hl
  unfold exec
  cases hd : Isdu.decode (Instr.opcode w) <;> rw [hd] at hl <;> simp only at hl
  case S_07 => exact absurd hl (by simp)
  case S_12 => exact absurd hl (by simp)
  case S_00 =>
    cases hbit : w.getLsbD 11 <;> rw [hbit] at hl <;> obtain rfl := Option.some.inj hl
    · cases Datapath.benOf w a.CC <;> simp
    · simp [benOf_bit_n hbit hn]
  all_goals
    obtain rfl := Option.some.inj hl
    exact ⟨List.mem_singleton.mpr rfl, rfl, rfl⟩

theorem decode_of_successors (h : successors w a.PC ≠ none) :
    Isdu.decode (Instr.opcode w) ≠ .S_07 := by
  intro hd
  rw [successors, hd] at h
  exact h rfl

end Step

section Run

variable {a : Core TestMemory.Words} {K : List (BitVec 16)}

/-- A word of a closed program, fetched from the memory: no store. -/
theorem fetch_of_closed (hK : Closed K a.mem) (hPC : a.PC ∈ K) (i : Samples) :
    a.fetch i = a.mem (a.PC.extractLsb' 0 8)
      ∧ Isdu.decode (Instr.opcode (a.fetch i)) ≠ .S_07 := by
  obtain ⟨hne, hstays⟩ := hK a.PC hPC
  have hfetch : a.fetch i = a.mem (a.PC.extractLsb' 0 8) :=
    (load_testMemory a.arch i.fetch a.PC).trans (if_neg hne)
  refine ⟨hfetch, decode_of_successors (a := a) fun hnone => ?_⟩
  rw [← hfetch, hnone] at hstays
  exact hstays

theorem next_of_closed (hK : Closed K a.mem) (hPC : a.PC ∈ K) (hn : a.CC.getLsbD 2 = true)
    (i : Samples) :
    (a.next testMemory i).PC ∈ K ∧ (a.next testMemory i).mem = a.mem
      ∧ (a.next testMemory i).hex_data = a.hex_data := by
  obtain ⟨-, hstays⟩ := hK a.PC hPC
  have hfetch := (fetch_of_closed hK hPC i).1
  cases hl : successors (a.mem (a.PC.extractLsb' 0 8)) a.PC with
  | none =>
      rw [hl] at hstays
      exact hstays.elim
  | some l =>
      rw [hl] at hstays
      obtain ⟨hmem, hrest⟩ := next_of_successors hn hfetch hl
      exact ⟨hstays _ hmem, hrest⟩

/-- A program that is confined stays so. -/
theorem confined (hK : Closed K a.mem) (hPC : a.PC ∈ K) (hn : a.CC.getLsbD 2 = true)
    (is : ℕ → Samples) (k : ℕ) :
    (a.run testMemory is k).PC ∈ K ∧ (a.run testMemory is k).mem = a.mem
      ∧ (a.run testMemory is k).hex_data = a.hex_data := by
  suffices h : ((a.run testMemory is k).PC ∈ K ∧ (a.run testMemory is k).mem = a.mem
      ∧ (a.run testMemory is k).hex_data = a.hex_data)
      ∧ (a.run testMemory is k).CC.getLsbD 2 = true from h.1
  induction k with
  | zero => exact ⟨⟨hPC, rfl, rfl⟩, hn⟩
  | succ k ih =>
      obtain ⟨⟨hPCk, hmem, hhex⟩, hnk⟩ := ih
      obtain ⟨hPC', hmem', hhex'⟩ := next_of_closed (by rw [hmem]; exact hK) hPCk hnk (is k)
      exact ⟨⟨hPC', hmem'.trans hmem, hhex'.trans hhex⟩, bit_n_next (is k) hnk⟩

end Run

/-- Only the words at the addresses matter. -/
theorem Closed.of_resident {K : List (BitVec 16)} {lo hi : ℕ} {mem : TestMemory.Words}
    (hK : Closed K TestMemory.initial) (hprog : Resident lo hi mem) (hin : Within K lo hi) :
    Closed K mem := by
  intro pc hpc
  obtain ⟨hne, hstays⟩ := hK pc hpc
  obtain ⟨hlo, hhi⟩ := hin pc hpc
  have haddr : pc.extractLsb' 0 8 = BitVec.ofNat 8 pc.toNat := by
    refine BitVec.eq_of_toNat_eq ?_
    rw [BitVec.extractLsb'_toNat, BitVec.toNat_ofNat, Nat.shiftRight_zero]
  rw [haddr] at hstays ⊢
  rw [hprog pc.toNat hlo hhi]
  exact ⟨hne, hstays⟩

end Core

namespace System

open Isa (Resident)

variable {s : TopLevelForTestMemory} {cs : ℕ → Cycle}

/-- Words 50 to 69. -/
def multiplierLoop : List (BitVec 16) := (List.range' 50 20).map (BitVec.ofNat 16)

/-- Words 91 to 98, and the other branches of the menu. -/
def menuLoop : List (BitVec 16) :=
  (List.range' 91 8).map (BitVec.ofNat 16) ++ [101, 102, 105, 106]

section Confined

variable {K : List (BitVec 16)} {lo hi : ℕ} (h : At18 s) (hr : s.Reset_s = true)
  (hcs : NoReset cs) (hprog : Resident lo hi s.mem) (hPC : s.PC = BitVec.ofNat 16 lo)
  (hlo : lo ≤ hi) (hhi : hi < 256)
  (hclr : TestMemory.initial (BitVec.ofNat 8 lo) = SLC3_2.opCLR SLC3_2.R0)
  (hK : Core.Closed K TestMemory.initial) (hin : Core.Within K lo hi)
  (hfirst : BitVec.ofNat 16 lo + 1 ∈ K)
include h hr hcs hprog hPC hlo hhi hclr hK hin hfirst

/-- At the visits of a program that begins with `opCLR(R0)` and is confined behind that. -/
theorem confined_at_visit {T : ℕ → ℕ} {N : ℕ} (hT : Visits At18 (s.run testMemory cs) T N) :
    ((s.run testMemory cs (T N)).PC = s.PC ∨ (s.run testMemory cs (T N)).PC ∈ K)
      ∧ (s.run testMemory cs (T N)).mem = s.mem
      ∧ (s.run testMemory cs (T N)).hex_data = s.hex_data
      ∧ ∀ i, Isdu.decode (Instr.opcode ((s.run testMemory cs (T N)).core.fetch i)) ≠ .S_07 := by
  have hfetch : ∀ i, s.core.fetch i = SLC3_2.opCLR SLC3_2.R0 := fun i =>
    Core.fetch_low (a := s.core) (i := i) hprog hPC hclr (Nat.le_refl lo) hlo (by omega)
  cases N with
  | zero =>
      rw [hT.zero]
      refine ⟨Or.inl rfl, rfl, rfl, fun i => ?_⟩
      rw [show (s.run testMemory cs 0).core.fetch i = _ from hfetch i]
      decide
  | succ n =>
      let a := s.core.put SLC3_2.R0 0
      have hcore : (s.run testMemory cs (T (n + 1))).core
          = a.run testMemory (later 1 (samples cs T)) n := by
        rw [core_run h hr hcs hT (Nat.le_refl _), Core.run, run_succ',
          Core.next_opCLR (hfetch _)]
        rfl
      have hstart : a.PC ∈ K := by
        rw [Core.put_PC, show s.core.PC = _ from hPC]
        exact hfirst
      have hclosed : Core.Closed K a.mem := hK.of_resident hprog hin
      have hconf := Core.confined hclosed hstart (Core.ccOf_bit_n 0) (later 1 (samples cs T)) n
      rw [← hcore] at hconf
      obtain ⟨hPCn, hmem, hhex⟩ := hconf
      exact ⟨Or.inr hPCn, hmem, hhex, fun i =>
        (Core.fetch_of_closed (by rw [hmem]; exact hclosed) hPCn i).2⟩

/-- And in every cycle: at a fetch it is in its place, and nothing is ever written. -/
theorem confined_of_clr (k : ℕ) :
    (At18 (s.run testMemory cs k) →
        (s.run testMemory cs k).PC = s.PC ∨ (s.run testMemory cs k).PC ∈ K)
      ∧ (s.run testMemory cs k).mem = s.mem
      ∧ (s.run testMemory cs k).hex_data = s.hex_data := by
  obtain ⟨T, N, hT, hle, hlast⟩ := Visits.exists_upto At18 (s.run testMemory cs) k
  obtain ⟨hPCN, hmem, hhex, hstore⟩ :=
    confined_at_visit h hr hcs hprog hPC hlo hhi hclr hK hin hfirst hT
  obtain ⟨d, rfl⟩ := Nat.exists_eq_add_of_le hle
  have hkept := kept_until_visit (M := testMemory) (h.run_visit hT (Nat.le_refl N))
    (run_Reset_s hr (hcs.before _)) (hcs.later (T N)) (k := d)
    (hstore ⟨(later (T N) cs 3).S, (later (T N) cs 9).S⟩) fun j hpos hj => by
      rw [← run_later]
      exact hlast (T N + j) (by omega) (by omega)
  rw [← run_later] at hkept
  refine ⟨fun h18 => ?_, hkept.1.trans hmem, hkept.2.trans hhex⟩
  obtain rfl : d = 0 := by
    by_contra hd
    exact hlast (T N + d) (by omega) (Nat.le_refl _) h18
  exact hPCN

end Confined

theorem closed_loops : Core.Closed multiplierLoop TestMemory.initial
    ∧ Core.Closed menuLoop TestMemory.initial := by
  decide

/-- **The stored multiplication never shows a result on the board.** The branch
on `n` at word 69 jumps back for ever; the store is word 70. -/
theorem multiplication_never_shown (h : At18 s) (hr : s.Reset_s = true) (hcs : NoReset cs)
    (hPC : s.PC = 49#16) (hprog : Resident 49 73 s.mem) (k : ℕ) :
    (At18 (s.run testMemory cs k) → 49 ≤ (s.run testMemory cs k).PC.toNat
        ∧ (s.run testMemory cs k).PC.toNat < 70)
      ∧ (s.run testMemory cs k).mem = s.mem
      ∧ (s.run testMemory cs k).hex_data = s.hex_data := by
  obtain ⟨hin, hsame⟩ := confined_of_clr h hr hcs hprog hPC (by decide) (by decide) rfl
    closed_loops.1 (by decide) (by decide) k
  refine ⟨fun h18 => ?_, hsame⟩
  rcases hin h18 with hin | hin
  · rw [hin, hPC]
    decide
  · have hall : Core.Within multiplierLoop 50 69 := by decide
    obtain ⟨hlo, hhi⟩ := hall _ hin
    omega

/-- The shipped words, after a million cycles with 3 on the switches. -/
theorem multiplication_never_shown_shipped :
    let s : TopLevelForTestMemory := { cleared TestMemory.initial with State := .S_18, PC := 49 }
    (s.run testMemory (Cycle.blinking 3) 1000000).hex_data = 0 := by
  intro s
  exact (multiplication_never_shown (show At18 s from rfl) rfl (fun _ => rfl : NoReset _) rfl
    (fun _ _ _ => rfl) 1000000).2.2

/-- **The menu of the sort program never calls anything on the board.** -/
theorem menu_never_calls (h : At18 s) (hr : s.Reset_s = true) (hcs : NoReset cs)
    (hPC : s.PC = 90#16) (hprog : Resident 90 106 s.mem) (k : ℕ) :
    (At18 (s.run testMemory cs k) →
        (s.run testMemory cs k).PC = 90#16 ∨ (s.run testMemory cs k).PC ∈ menuLoop)
      ∧ (s.run testMemory cs k).mem = s.mem
      ∧ (s.run testMemory cs k).hex_data = s.hex_data := by
  rw [← hPC]
  exact confined_of_clr h hr hcs hprog hPC (by decide) (by decide) rfl closed_loops.2
    (by decide) (by decide) k

/-- With 2, "sort", on the switches. -/
theorem menu_never_calls_sort :
    let s : TopLevelForTestMemory := { cleared TestMemory.initial with State := .S_18, PC := 90 }
    (s.run testMemory (Cycle.blinking 2) 1000000).mem = TestMemory.initial := by
  intro s
  exact (menu_never_calls (show At18 s from rfl) rfl (fun _ => rfl : NoReset _) rfl
    (fun _ _ _ => rfl) 1000000).2.1

end System

end Ece385
