import Mathlib.Logic.Function.Basic
import Ece385.Sync.Run
import Ece385.Sync.Stream

/-!
# A memory behind a command bus

Two ways to look at a memory. `serve` and `answers` are what a memory is for: a
list of requests is served one after another, and each read is answered with the
word as the writes before it left it. A synchronous dynamic RAM takes commands
instead: a row has to be opened before it is read or written, closed before another
one of its bank is opened, rows have to be refreshed, the chip has to be set up after
power-up, and every command needs its time. `Monitor` is what follows from the
commands given so far, and `Legal` says which of them may be given next.

What is inside a chip is open. A `Device` is any machine on the pins, and `Conforms`
is what a chip promises to whoever keeps the protocol (`Kept`): the word of a read is
on the data bus three cycles behind its command, as the writes before it left it.

`Monitor.memory` connects the two: commands that mean some requests fetch what these
requests ask for. `model` is a device that conforms.
-/

namespace Ece385

namespace Sdr

/-! ## Requests -/

section Requests

variable {A W : Type*}

/-- Of a masked write, what it makes of the word. -/
inductive Request (A W : Type*) where
  | read (a : A)
  | write (a : A) (upd : W → W)

variable [DecidableEq A]

/-- The memory behind some requests. -/
def serve (mem : A → W) : List (Request A W) → A → W
  | [] => mem
  | .read _ :: l => serve mem l
  | .write a upd :: l => serve (Function.update mem a (upd (mem a))) l

/-- The words they read. -/
def answers (mem : A → W) : List (Request A W) → List W
  | [] => []
  | .read a :: l => mem a :: answers mem l
  | .write a upd :: l => answers (Function.update mem a (upd (mem a))) l

theorem serve_append (mem : A → W) (l l' : List (Request A W)) :
    serve mem (l ++ l') = serve (serve mem l) l' := by
  induction l generalizing mem with
  | nil => rfl
  | cons r l ih =>
      cases r with
      | read a => exact ih mem
      | write a upd => exact ih _

theorem answers_append (mem : A → W) (l l' : List (Request A W)) :
    answers mem (l ++ l') = answers mem l ++ answers (serve mem l) l' := by
  induction l generalizing mem with
  | nil => rfl
  | cons r l ih =>
      cases r with
      | read a => exact congrArg (mem a :: ·) (ih mem)
      | write a upd => exact ih _

theorem answers_isPrefix {mem : A → W} {l l' : List (Request A W)} (h : l <+: l') :
    answers mem l <+: answers mem l' := by
  obtain ⟨t, rfl⟩ := h
  rw [answers_append]
  exact List.prefix_append _ _

end Requests

/-! ## Commands -/

/-- `precharge` closes all banks. A precharge of one bank, a burst stop and an access
with auto-precharge are `other`. -/
inductive Command (B R C W : Type*) where
  | nop
  | activate (b : B) (r : R)
  | read (b : B) (c : C)
  | write (b : B) (c : C) (upd : W → W)
  | precharge
  | refresh
  | mode
  | other

namespace Command

variable {B R C W : Type*}

def isAccess : Command B R C W → Bool
  | .read _ _ | .write _ _ _ => true
  | _ => false

def isRead : Command B R C W → Bool
  | .read _ _ => true
  | _ => false

theorem isRead_eq_false {c : Command B R C W} (h : c.isAccess = false) : c.isRead = false := by
  cases c with
  | read | write => exact absurd h (by simp [isAccess])
  | nop | activate | precharge | refresh | mode | other => rfl

end Command

/-- For how many cycles a command keeps the next one waiting. `dpl` is what a write
asks of a precharge, `ras` what an activation asks of it. -/
structure Timing where
  rcd : ℕ
  rp : ℕ
  rc : ℕ
  mrd : ℕ
  dpl : ℕ
  ras : ℕ

/-- `T` asks for no more than `T'`. -/
structure Timing.Le (T T' : Timing) : Prop where
  rcd : T.rcd ≤ T'.rcd
  rp : T.rp ≤ T'.rp
  rc : T.rc ≤ T'.rc
  mrd : T.mrd ≤ T'.mrd
  dpl : T.dpl ≤ T'.dpl
  ras : T.ras ≤ T'.ras

/-! ## The protocol -/

/-- What follows from the commands given so far. -/
structure Monitor (B R : Type*) where
  row : B → Option R
  /-- Cycles until the next command. -/
  busy : ℕ
  /-- Cycles until a precharge. -/
  recovery : ℕ
  refreshes : ℕ
  programmed : Bool
  /-- Whether there was a read one, two and three cycles ago; the word of the third is
  on the bus. -/
  q1 : Bool
  q2 : Bool
  q3 : Bool

namespace Monitor

variable {B R C W : Type*}

/-- Whether the command may be given. A write needs the bus. -/
def Legal (d : Monitor B R) : Command B R C W → Prop
  | .nop => True
  | .activate b _ => d.busy = 0 ∧ d.programmed = true ∧ d.row b = none
  | .read b _ => d.busy = 0 ∧ (d.row b).isSome
  | .write b _ _ => d.busy = 0 ∧ (d.row b).isSome ∧ d.q3 = false
  | .precharge => d.busy = 0 ∧ d.recovery = 0
  | .refresh => d.busy = 0 ∧ ∀ b, d.row b = none
  | .mode => d.busy = 0 ∧ (∀ b, d.row b = none) ∧ 2 ≤ d.refreshes
  | .other => False

/-- A cycle passes. -/
def tick (d : Monitor B R) : Monitor B R :=
  { d with
    busy := d.busy - 1
    recovery := d.recovery - 1
    q1 := false
    q2 := d.q1
    q3 := d.q2 }

/-! ## How long it takes -/

/-- For how many cycles there are words on their way to the bus. -/
def reads (d : Monitor B R) : ℕ := if d.q1 then 3 else if d.q2 then 2 else if d.q3 then 1 else 0

structure Within (d : Monitor B R) (busy recovery reads : ℕ) : Prop where
  busy : d.busy ≤ busy
  recovery : d.recovery ≤ recovery
  reads : d.reads ≤ reads

section Bounds

variable {d : Monitor B R} {x y z x' y' z' : ℕ}

theorem Within.mono (h : d.Within x y z) (hx : x ≤ x') (hy : y ≤ y') (hz : z ≤ z') :
    d.Within x' y' z' :=
  ⟨h.busy.trans hx, h.recovery.trans hy, h.reads.trans hz⟩

theorem Within.q3 (h : d.Within x y 0) : d.q3 = false := by
  have hreads := h.reads
  unfold Monitor.reads at hreads
  revert hreads
  cases d.q1 <;> cases d.q2 <;> cases d.q3 <;> simp

theorem Within.q1 (h : d.Within x y z) (hz : z < 3) : d.q1 = false := by
  have hreads := h.reads
  refine (Bool.not_eq_true _).mp fun h1 => ?_
  rw [Monitor.reads, if_pos h1] at hreads
  omega

theorem reads_tick (d : Monitor B R) : d.tick.reads ≤ d.reads - 1 := by
  unfold Monitor.reads tick
  cases d.q1 <;> cases d.q2 <;> cases d.q3 <;> simp

theorem Within.tick (h : d.Within x y z) : d.tick.Within (x - 1) (y - 1) (z - 1) :=
  ⟨Nat.sub_le_sub_right h.busy 1, Nat.sub_le_sub_right h.recovery 1,
    d.reads_tick.trans (Nat.sub_le_sub_right h.reads 1)⟩

end Bounds

/-- `d` is `d'`, but for waits that are no longer. -/
structure Le (d d' : Monitor B R) : Prop where
  busy : d.busy ≤ d'.busy
  recovery : d.recovery ≤ d'.recovery
  rest : d = { d' with busy := d.busy, recovery := d.recovery }

theorem Le.refl (d : Monitor B R) : d.Le d := ⟨Nat.le_refl _, Nat.le_refl _, rfl⟩

theorem Le.row {d d' : Monitor B R} (h : d.Le d') : d.row = d'.row := by
  rw [h.rest]

theorem Le.legal {d d' : Monitor B R} (h : d.Le d') {c : Command B R C W} (hc : d'.Legal c) :
    d.Legal c := by
  obtain ⟨hbusy, hrecovery, hrest⟩ := h
  rw [hrest]
  cases c with
  | nop => exact trivial
  | precharge =>
      obtain ⟨hc, hc'⟩ := hc
      exact ⟨Nat.le_zero.mp (hc ▸ hbusy), Nat.le_zero.mp (hc' ▸ hrecovery)⟩
  | other => exact hc.elim
  | activate | read | write | refresh | mode =>
      obtain ⟨hc, hc'⟩ := hc
      exact ⟨Nat.le_zero.mp (hc ▸ hbusy), hc'⟩

/-! ## Commands follow each other -/

variable [DecidableEq B]

def exec (T : Timing) (d : Monitor B R) : Command B R C W → Monitor B R
  | .activate b r =>
      { d.tick with
        row := Function.update d.row b (some r)
        busy := T.rcd
        recovery := max (d.recovery - 1) T.ras }
  | .read _ _ => { d.tick with q1 := true }
  | .write _ _ _ => { d.tick with recovery := max (d.recovery - 1) T.dpl }
  | .precharge => { d.tick with row := fun _ => none, busy := T.rp }
  | .refresh => { d.tick with busy := T.rc, refreshes := d.refreshes + 1 }
  | .mode => { d.tick with busy := T.mrd, programmed := true }
  | .nop | .other => d.tick

/-- Behind the commands before cycle `n`. -/
def run (T : Timing) (d : Monitor B R) (c : ℕ → Command B R C W) : ℕ → Monitor B R :=
  Clocked.run (fun c d => d.exec T c) d c

theorem exec_q1 (d : Monitor B R) (T : Timing) (c : Command B R C W) :
    (d.exec T c).q1 = c.isRead := by
  cases c <;> rfl

theorem exec_q2_q3 (d : Monitor B R) (T : Timing) (c : Command B R C W) :
    (d.exec T c).q2 = d.q1 ∧ (d.exec T c).q3 = d.q2 := by
  cases c <;> exact ⟨rfl, rfl⟩

theorem exec_programmed {d : Monitor B R} (h : d.programmed = true) (T : Timing)
    (c : Command B R C W) : (d.exec T c).programmed = true := by
  cases c with
  | mode => rfl
  | nop | activate | read | write | precharge | refresh | other => exact h

/-- The word of a read is on the bus three cycles later. -/
theorem run_q3 (T : Timing) (d : Monitor B R) (c : ℕ → Command B R C W) (n : ℕ) :
    (d.run T c (n + 3)).q3 = (c n).isRead :=
  calc (d.run T c (n + 3)).q3
      = (d.run T c (n + 2)).q2 := (exec_q2_q3 _ T _).2
    _ = (d.run T c (n + 1)).q1 := (exec_q2_q3 _ T _).1
    _ = (c n).isRead := exec_q1 _ T _

section Within

variable {d : Monitor B R} {T : Timing} {x y z : ℕ} (h : d.Within x y z)
include h

theorem Within.nop : (d.exec T (.nop : Command B R C W)).Within (x - 1) (y - 1) (z - 1) := h.tick

theorem Within.activate (b : B) (r : R) : (d.exec T (.activate b r : Command B R C W)).Within
    T.rcd (max (y - 1) T.ras) (z - 1) :=
  ⟨Nat.le_refl _, max_le_max_right _ h.tick.recovery, h.tick.reads⟩

theorem Within.precharge :
    (d.exec T (.precharge : Command B R C W)).Within T.rp (y - 1) (z - 1) :=
  ⟨Nat.le_refl _, h.tick.recovery, h.tick.reads⟩

theorem Within.refresh :
    (d.exec T (.refresh : Command B R C W)).Within T.rc (y - 1) (z - 1) :=
  ⟨Nat.le_refl _, h.tick.recovery, h.tick.reads⟩

theorem Within.mode : (d.exec T (.mode : Command B R C W)).Within T.mrd (y - 1) (z - 1) :=
  ⟨Nat.le_refl _, h.tick.recovery, h.tick.reads⟩

theorem Within.read (b : B) (c : C) :
    (d.exec T (.read b c : Command B R C W)).Within (x - 1) (y - 1) 3 := by
  refine ⟨h.tick.busy, h.tick.recovery, ?_⟩
  unfold Monitor.reads
  split
  · exact Nat.le_refl 3
  · split
    · exact Nat.le_succ 2
    · split <;> omega

theorem Within.write (b : B) (c : C) (upd : W → W) :
    (d.exec T (.write b c upd : Command B R C W)).Within (x - 1) (max (y - 1) T.dpl) (z - 1) :=
  ⟨h.tick.busy, max_le_max_right _ h.tick.recovery, h.tick.reads⟩

end Within

section Le

variable {d d' : Monitor B R} {T T' : Timing} {c : Command B R C W}

theorem Le.exec (h : d.Le d') (hT : T.Le T') : (d.exec T c).Le (d'.exec T' c) := by
  obtain ⟨hbusy, hrecovery, hrest⟩ := h
  have hbusy' := Nat.sub_le_sub_right hbusy 1
  have hrecovery' := Nat.sub_le_sub_right hrecovery 1
  rw [hrest]
  cases c with
  | activate => exact ⟨hT.rcd, max_le_max hrecovery' hT.ras, rfl⟩
  | write => exact ⟨hbusy', max_le_max hrecovery' hT.dpl, rfl⟩
  | precharge => exact ⟨hT.rp, hrecovery', rfl⟩
  | refresh => exact ⟨hT.rc, hrecovery', rfl⟩
  | mode => exact ⟨hT.mrd, hrecovery', rfl⟩
  | nop | read | other => exact ⟨hbusy', hrecovery', rfl⟩

/-- Who keeps the longer waits keeps the shorter ones. -/
theorem Le.run (hT : T.Le T') (d : Monitor B R) (c : ℕ → Command B R C W) (n : ℕ) :
    (d.run T c n).Le (d.run T' c n) :=
  Clocked.run_rel (R := fun _ (e e' : Monitor B R) => e.Le e') n (.refl d) fun _ _ h => h.exec hT

end Le

/-! ## What the commands mean -/

/-- The word a command asks for. -/
def fetch (d : Monitor B R) (cell : B × R × C → W) : Command B R C W → Option W
  | .read b c => (d.row b).map fun r => cell (b, r, c)
  | _ => none

omit [DecidableEq B] in
theorem fetch_eq_none {c : Command B R C W} (h : c.isRead = false) (d : Monitor B R)
    (cell : B × R × C → W) : d.fetch cell c = none := by
  cases c with
  | read => exact absurd h (by simp [Command.isRead])
  | nop | activate | write | precharge | refresh | mode | other => rfl

section Memory

variable [DecidableEq R] [DecidableEq C]

/-- What it leaves in the cells. -/
def store (d : Monitor B R) (cell : B × R × C → W) : Command B R C W → B × R × C → W
  | .write b c upd =>
      match d.row b with
      | some r => Function.update cell (b, r, c) (upd (cell (b, r, c)))
      | none => cell
  | _ => cell

/-- What the commands before cycle `n` leave. -/
def cells (T : Timing) (d : Monitor B R) (cell : B × R × C → W) (c : ℕ → Command B R C W) :
    ℕ → B × R × C → W
  | 0 => cell
  | n + 1 => (d.run T c n).store (d.cells T cell c n) (c n)

/-- What is asked for in cycle `n`. -/
def fetched (T : Timing) (d : Monitor B R) (cell : B × R × C → W) (c : ℕ → Command B R C W)
    (n : ℕ) : Option W :=
  (d.run T c n).fetch (d.cells T cell c n) (c n)

variable {A : Type*} [DecidableEq A] (loc : A → B × R × C)

omit [DecidableEq B] [DecidableEq R] [DecidableEq C] [DecidableEq A] in
/-- What a command asks of the memory: an access of the row that is open. -/
def Means (d : Monitor B R) : Command B R C W → List (Request A W) → Prop
  | .read b c, l => ∃ a r, d.row b = some r ∧ loc a = (b, r, c) ∧ l = [.read a]
  | .write b c upd, l => ∃ a r, d.row b = some r ∧ loc a = (b, r, c) ∧ l = [.write a upd]
  | _, l => l = []

variable {loc}

omit [DecidableEq B] [DecidableEq R] [DecidableEq C] [DecidableEq A] in
theorem means_nil {d : Monitor B R} {c : Command B R C W} (hc : c.isAccess = false) :
    d.Means loc c [] := by
  cases c with
  | read | write => exact absurd hc (by simp [Command.isAccess])
  | nop | activate | precharge | refresh | mode | other => rfl

omit [DecidableEq B] [DecidableEq R] [DecidableEq C] [DecidableEq A] in
theorem Le.means {d d' : Monitor B R} (h : d.Le d') {c : Command B R C W}
    {l : List (Request A W)} (hc : d'.Means loc c l) : d.Means loc c l := by
  cases c with
  | read | write =>
      obtain ⟨a, r, hr, hrest⟩ := hc
      exact ⟨a, r, by rw [h.row, hr], hrest⟩
  | nop | activate | precharge | refresh | mode | other => exact hc

omit [DecidableEq B] [DecidableEq R] [DecidableEq C] [DecidableEq A] in
/-- Who reads gets a word. -/
theorem Means.fetch_isSome {d : Monitor B R} {c : Command B R C W} {l : List (Request A W)}
    (h : d.Means loc c l) (cell : B × R × C → W) : (d.fetch cell c).isSome = c.isRead := by
  cases c with
  | read b c =>
      obtain ⟨a, r, hr, -⟩ := h
      simp [fetch, hr, Command.isRead]
  | nop | activate | write | precharge | refresh | mode | other => rfl

variable (hloc : Function.Injective loc)
include hloc

/-- One command. -/
theorem serves_step {d : Monitor B R} {c : Command B R C W} {l : List (Request A W)}
    (hc : d.Means loc c l) (cell : B × R × C → W) :
    d.store cell c ∘ loc = serve (cell ∘ loc) l
      ∧ (d.fetch cell c).toList = answers (cell ∘ loc) l := by
  cases c with
  | read b c =>
      obtain ⟨a, r, hr, ha, rfl⟩ := hc
      exact ⟨rfl, by simp [fetch, answers, hr, ha]⟩
  | write b c upd =>
      obtain ⟨a, r, hr, ha, rfl⟩ := hc
      refine ⟨?_, rfl⟩
      simp only [store, hr, serve]
      rw [← ha]
      exact Function.update_comp_eq_of_injective cell hloc a _
  | nop | activate | precharge | refresh | mode | other =>
      obtain rfl : l = [] := hc
      exact ⟨rfl, rfl⟩

/-- Commands that mean some requests leave and fetch what these requests do. -/
theorem memory {T : Timing} {d : Monitor B R} {c : ℕ → Command B R C W}
    {req : ℕ → List (Request A W)} (hc : ∀ n, (d.run T c n).Means loc (c n) (req n))
    (cell : B × R × C → W) (n : ℕ) :
    d.cells T cell c n ∘ loc = serve (cell ∘ loc) (Clocked.history req n)
      ∧ Clocked.history (fun k => (d.fetched T cell c k).toList) n
        = answers (cell ∘ loc) (Clocked.history req n) := by
  induction n with
  | zero => exact ⟨rfl, rfl⟩
  | succ n ih =>
      obtain ⟨hcells, hfetched⟩ := ih
      obtain ⟨hstore, hfetch⟩ := serves_step hloc (hc n) (d.cells T cell c n)
      rw [Clocked.history_succ, Clocked.history_succ, serve_append, answers_append, ← hcells,
        hfetched, ← hfetch]
      exact ⟨hstore, rfl⟩

end Memory

/-- What a chip asks of the commands before cycle `n`: each of them legal, the output
enabled behind a read, and from the set-up on a refresh in every `window` cycles. -/
structure Kept (T : Timing) (window : ℕ) (d : Monitor B R) (c : ℕ → Command B R C W)
    (masked : ℕ → Bool) (n : ℕ) : Prop where
  legal : ∀ k < n, (d.run T c k).Legal (c k)
  enabled : ∀ k < n, masked k = true → (d.run T c k).q1 = false
  refreshed : ∀ m, m + window ≤ n → (d.run T c m).programmed = true →
    ∃ k < window, c (m + k) = .refresh

end Monitor

/-! ## Chips -/

/-- A chip on the pins `P`: what a cycle makes of it, and the word it drives. -/
structure Device (P W : Type*) where
  State : Type*
  next : P → State → State
  dq : State → Option W

namespace Device

variable {P B R C W : Type*} [DecidableEq B] [DecidableEq R] [DecidableEq C]

/-- Behind the pins before cycle `n`. -/
def run (δ : Device P W) (σ : δ.State) (p : ℕ → P) : ℕ → δ.State :=
  Clocked.run δ.next σ p

/-- What a chip promises, in the state `σ` and with `cell` in its cells: to drive the word
of a read three cycles behind the command, and nothing else, while the protocol is kept. -/
structure Conforms (δ : Device P W) (σ : δ.State) (command : P → Command B R C W)
    (masked : P → Bool) (T : Timing) (window : ℕ) (d : Monitor B R) (cell : B × R × C → W) :
    Prop where
  silent : ∀ p n, n < 3 →
    d.Kept T window (fun k => command (p k)) (fun k => masked (p k)) n →
      δ.dq (δ.run σ p n) = none
  answers : ∀ p n,
    d.Kept T window (fun k => command (p k)) (fun k => masked (p k)) (n + 3) →
      δ.dq (δ.run σ p (n + 3)) = d.fetched T cell (fun k => command (p k)) n

/-! ## A chip that conforms -/

variable (command : P → Command B R C W) (masked : P → Bool) (T : Timing)

/-- The cells, and the words on their way to the bus. -/
structure Pipe (B R C W : Type*) where
  bus : Monitor B R
  cell : B × R × C → W
  d1 : Option W
  d2 : Option W
  d3 : Option W

/-- Nothing is on its way. -/
def Pipe.start (d : Monitor B R) (cell : B × R × C → W) : Pipe B R C W :=
  ⟨d, cell, none, none, none⟩

def model : Device P W where
  State := Pipe B R C W
  next p s :=
    { bus := s.bus.exec T (command p)
      cell := s.bus.store s.cell (command p)
      d1 := s.bus.fetch s.cell (command p)
      d2 := if masked p then none else s.d1
      d3 := s.d2 }
  dq s := s.d3

theorem model_run (d : Monitor B R) (cell : B × R × C → W) (p : ℕ → P) (n : ℕ) :
    ((model command masked T).run (.start d cell) p n).bus
        = d.run T (fun k => command (p k)) n
      ∧ ((model command masked T).run (.start d cell) p n).cell
        = d.cells T cell (fun k => command (p k)) n := by
  induction n with
  | zero => exact ⟨rfl, rfl⟩
  | succ n ih =>
      obtain ⟨hbus, hcell⟩ := ih
      have hcell' : ((model command masked T).run (.start d cell) p (n + 1)).cell
          = ((model command masked T).run (.start d cell) p n).bus.store
            ((model command masked T).run (.start d cell) p n).cell
            (command (p n)) := rfl
      refine ⟨congrArg (fun e : Monitor B R => e.exec T (command (p n))) hbus, ?_⟩
      rw [hcell', hbus, hcell]
      rfl

theorem model_conforms (window : ℕ) (d : Monitor B R) (cell : B × R × C → W) :
    (model command masked T).Conforms (.start d cell) command masked T window d cell where
  silent := by
    intro p n hn _
    obtain rfl | rfl | rfl : n = 0 ∨ n = 1 ∨ n = 2 := by omega
    · rfl
    · rfl
    · exact ite_self none
  answers := by
    intro p n hkept
    have hd3 : (model command masked T).dq
        ((model command masked T).run (.start d cell) p (n + 3))
        = if masked (p (n + 1)) then none
          else ((model command masked T).run (.start d cell) p n).bus.fetch
            ((model command masked T).run (.start d cell) p n).cell
            (command (p n)) := rfl
    obtain ⟨hbus, hcell⟩ := model_run command masked T d cell p n
    rw [hd3, hbus, hcell]
    split
    · next hmasked =>
      have hq1 := hkept.enabled (n + 1) (by omega) hmasked
      exact (Monitor.fetch_eq_none ((Monitor.exec_q1 _ T _).symm.trans hq1) _ _).symm
    · rfl

end Device

end Sdr

end Ece385
