import Mathlib.Data.List.Basic
import Mathlib.Tactic.Choose
import Ece385.Sync.Run

/-!
# Walks

A program counter labels the states of a machine. `Walk` says that a run goes
through the states with the labels `l`, one after the other, and is in `s'`
behind them. The rules for walks are those of straight-line code (`cons`), of
sequencing (`append`) and of a counted loop (`iterate`): each pass may depend on
the inputs it sees, so the rule asks for a pass under every stream. A loop
without end is `exists_rounds`.
-/

namespace Ece385

namespace Clocked

variable {ι σ κ : Type*} (label : σ → κ) (step : ι → σ → σ)

/-- The labels of the `n` states from `s` on. -/
def labels (s : σ) (ins : ℕ → ι) (n : ℕ) : List κ :=
  (List.range n).map fun k => label (run step s ins k)

def Walk (s : σ) (ins : ℕ → ι) (l : List κ) (s' : σ) : Prop :=
  run step s ins l.length = s' ∧ labels label step s ins l.length = l

section Walk

variable {label step} {s s₁ s' : σ} {ins : ℕ → ι} {l l' : List κ}

theorem labels_add (m n : ℕ) :
    labels label step s ins (m + n)
      = labels label step s ins m ++ labels label step (run step s ins m) (later m ins) n := by
  rw [labels, List.range_add, List.map_append, List.map_map]
  refine congrArg _ (List.map_congr_left fun k _ => ?_)
  rw [Function.comp_apply, run_add]

theorem Walk.nil : Walk label step s ins [] s := ⟨rfl, rfl⟩

theorem Walk.label_eq (h : Walk label step s ins l s') {k : ℕ} (hk : k < l.length) :
    label (run step s ins k) = l[k] := by
  have hget : (labels label step s ins l.length)[k]? = l[k]? := congrArg (·[k]?) h.2
  rw [labels, List.getElem?_map, List.getElem?_range hk, List.getElem?_eq_getElem hk] at hget
  exact Option.some.inj hget

theorem Walk.append (h : Walk label step s ins l s₁)
    (h' : Walk label step s₁ (later l.length ins) l' s') :
    Walk label step s ins (l ++ l') s' := by
  obtain ⟨hrun, hlabels⟩ := h
  obtain ⟨hrun', hlabels'⟩ := h'
  rw [Walk, List.length_append, run_add, labels_add, hrun, hlabels, hlabels']
  exact ⟨hrun', rfl⟩

/-- To look at less. -/
theorem Walk.relabel {κ' : Type*} (f : κ → κ') (h : Walk label step s ins l s') :
    Walk (fun s => f (label s)) step s ins (l.map f) s' := by
  obtain ⟨hrun, hlabels⟩ := h
  have hmap : labels (fun s => f (label s)) step s ins l.length
      = (labels label step s ins l.length).map f := (List.map_map ..).symm
  rw [Walk, List.length_map, hmap, hlabels]
  exact ⟨hrun, rfl⟩

/-- One step in front. -/
theorem Walk.cons {c : κ} (hc : label s = c) (h1 : step (ins 0) s = s₁)
    (h : Walk label step s₁ (later 1 ins) l s') : Walk label step s ins (c :: l) s' := by
  have hone : Walk label step s ins [c] s₁ := ⟨h1, by rw [← hc]; rfl⟩
  exact hone.append h

/-- A label that stands in one place is met there and nowhere else. -/
theorem Walk.only_at {c : κ} (h : Walk label step s ins (l ++ c :: l') s') (hl : c ∉ l)
    (hl' : c ∉ l') :
    label (run step s ins l.length) = c
      ∧ ∀ k, k < (l ++ c :: l').length → label (run step s ins k) = c → k = l.length := by
  refine ⟨?_, fun k hk hlabel => ?_⟩
  · rw [h.label_eq (by rw [List.length_append, List.length_cons]; omega)]
    simp
  · rw [h.label_eq hk] at hlabel
    rcases Nat.lt_trichotomy k l.length with hlt | heq | hgt
    · rw [List.getElem_append_left hlt] at hlabel
      exact absurd (hlabel ▸ List.getElem_mem hlt) hl
    · exact heq
    · obtain ⟨j, rfl⟩ : ∃ j, k = l.length + (j + 1) := ⟨k - l.length - 1, by omega⟩
      rw [List.length_append, List.length_cons] at hk
      have hj : j < l'.length := by omega
      have hget : l'[j] = c := by
        rw [← hlabel]
        simp
      exact absurd (hget ▸ List.getElem_mem hj) hl'

/-- Back at the first label. -/
theorem Walk.nextVisit {c : κ} (h : Walk label step s ins (c :: l) s') (hl : c ∉ l)
    (hc : label s' = c) : NextVisit (fun s => label s = c) (run step s ins) (l.length + 1) := by
  have hrun : run step s ins (l.length + 1) = s' := h.1
  refine ⟨Nat.succ_pos _, by rw [hrun]; exact hc, fun k hpos hk hlabel => ?_⟩
  obtain ⟨k, rfl⟩ : ∃ j, k = j + 1 := ⟨k - 1, by omega⟩
  have hget := h.label_eq (k := k + 1) hk
  rw [List.getElem_cons_succ] at hget
  exact hl (by rw [← hlabel, hget]; exact List.getElem_mem _)

variable (ins) in
/-- A loop of `n` passes. `D` says what the labels of a pass are like. -/
theorem Walk.iterate {n : ℕ} {Inv : ℕ → σ → Prop} {D : List κ → Prop}
    (hpass : ∀ k, k < n → ∀ s ins, Inv k s →
      ∃ l s', Walk label step s ins l s' ∧ D l ∧ Inv (k + 1) s')
    (h0 : Inv 0 s) :
    ∃ (ls : List (List κ)) (s' : σ), Walk label step s ins ls.flatten s' ∧ ls.length = n
      ∧ (∀ l ∈ ls, D l) ∧ Inv n s' := by
  induction n with
  | zero => exact ⟨[], s, Walk.nil, rfl, fun l hl => absurd hl List.not_mem_nil, h0⟩
  | succ n ih =>
      obtain ⟨ls, s₁, hwalk, hlen, hD, hInv⟩ := ih fun k hk => hpass k (Nat.lt_succ_of_lt hk)
      obtain ⟨l, s', hwalk', hD', hInv'⟩ :=
        hpass n (Nat.lt_succ_self n) s₁ (later ls.flatten.length ins) hInv
      refine ⟨ls ++ [l], s', ?_, by rw [List.length_append, hlen]; rfl, ?_, hInv'⟩
      · rw [List.flatten_append, List.flatten_singleton]
        exact hwalk.append hwalk'
      · intro l₁ hl₁
        rcases List.mem_append.mp hl₁ with h | h
        · exact hD l₁ h
        · rw [List.mem_singleton.mp h]
          exact hD'

variable (ins) in
/-- A machine that from every good state comes back to a good state does so
again and again. -/
theorem exists_rounds {Good : σ → Prop} {Q : σ → (ℕ → ι) → ℕ → Prop}
    (hround : ∀ s ins, Good s → ∃ n, Q s ins n ∧ Good (run step s ins n)) (h0 : Good s) :
    ∃ T : ℕ → ℕ, T 0 = 0 ∧ ∀ i, Good (run step s ins (T i))
      ∧ ∃ n, T (i + 1) = T i + n ∧ Q (run step s ins (T i)) (later (T i) ins) n := by
  have hnext : ∀ t : {t // Good (run step s ins t)}, ∃ t' : {t // Good (run step s ins t)}, ∃ n,
      t'.1 = t.1 + n ∧ Q (run step s ins t.1) (later t.1 ins) n := by
    rintro ⟨t, ht⟩
    obtain ⟨n, hQ, hgood⟩ := hround _ (later t ins) ht
    exact ⟨⟨t + n, by rw [run_add]; exact hgood⟩, n, rfl, hQ⟩
  choose next hnext using hnext
  let T : ℕ → {t // Good (run step s ins t)} := fun i => Nat.rec ⟨0, h0⟩ (fun _ t => next t) i
  exact ⟨fun i => (T i).1, rfl, fun i => ⟨(T i).2, hnext (T i)⟩⟩

/-- Every moment belongs to a round. -/
theorem exists_round {T : ℕ → ℕ} (hT : ∀ i, T i < T (i + 1)) {k : ℕ} (hk : T 0 ≤ k) :
    ∃ i, T i ≤ k ∧ k < T (i + 1) := by
  induction k with
  | zero => exact ⟨0, hk, Nat.lt_of_le_of_lt (Nat.zero_le _) (hT 0)⟩
  | succ k ih =>
      rcases Nat.lt_or_eq_of_le hk with hlt | heq
      · obtain ⟨i, hi, hki⟩ := ih (Nat.le_of_lt_succ hlt)
        rcases Nat.lt_or_eq_of_le (show k + 1 ≤ T (i + 1) from hki) with hlt' | heq'
        · exact ⟨i, Nat.le_succ_of_le hi, hlt'⟩
        · exact ⟨i + 1, Nat.le_of_eq heq'.symm, by rw [heq']; exact hT (i + 1)⟩
      · exact ⟨0, Nat.le_of_eq heq, by rw [← heq]; exact hT 0⟩

end Walk

end Clocked

end Ece385
