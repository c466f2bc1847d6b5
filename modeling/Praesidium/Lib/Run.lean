import Mathlib.Data.List.Basic
import Mathlib.Data.List.Induction
import Mathlib.Tactic.Common

/-!
Runs of a labelled step relation.

`Run step s tr t`: the labels of `tr`, in order, lead from `s` to `t`.  A property
of every reachable state is what one step keeps (`Run.inv`); with the history it is
`Run.inv_trace`.  `Run.at_position` gives the step that stands at a position of the history.  A
system whose visible steps another one can follow has the runs of that one (`Run.simulates`).
`drive` computes the run a list of inputs causes (`run_of_drive`, `exists_run`).
-/

inductive Run {σ α : Type} (step : σ → α → σ → Prop) : σ → List α → σ → Prop
  | nil (s : σ) : Run step s [] s
  | snoc {s t u : σ} {tr : List α} {a : α} : Run step s tr t → step t a u → Run step s (tr ++ [a]) u

namespace Run

variable {σ α : Type} {step : σ → α → σ → Prop}

variable {s t u : σ} {tr tr' : List α} {a : α}

/-- **Invariant rule.** -/
theorem inv (I : σ → Prop) (h : Run step s tr t) (h0 : I s)
    (hstep : ∀ u a v, I u → step u a v → I v) : I t := by
  induction h with
  | nil => exact h0
  | snoc _ hs ih => exact hstep _ _ _ ih hs

/-- **Invariant rule with history.** -/
theorem inv_trace (I : List α → σ → Prop) (h : Run step s tr t) (h0 : I [] s)
    (hstep : ∀ tr u a v, I tr u → step u a v → I (tr ++ [a]) v) : I tr t := by
  induction h with
  | nil => exact h0
  | snoc _ hs ih => exact hstep _ _ _ _ ih hs

/-- A run is one of any relation that allows its steps. -/
theorem mono {step' : σ → α → σ → Prop} (h : Run step s tr t)
    (hm : ∀ u a v, a ∈ tr → step u a v → step' u a v) : Run step' s tr t := by
  induction h with
  | nil => exact .nil _
  | snoc _ hs ih =>
    exact .snoc (ih fun u a v ha => hm u a v (List.mem_append_left _ ha))
      (hm _ _ _ (List.mem_append_right _ (List.mem_singleton.mpr rfl)) hs)

theorem cons (hs : step s a t) (h : Run step t tr u) : Run step s (a :: tr) u := by
  induction h with
  | nil => exact .snoc (.nil s) hs
  | snoc _ hs' ih => exact .snoc ih hs'

theorem append (h : Run step s tr t) (h' : Run step t tr' u) : Run step s (tr ++ tr') u := by
  induction h' with
  | nil => rwa [List.append_nil]
  | snoc _ hs ih =>
    rw [← List.append_assoc]
    exact .snoc ih hs

theorem nil_inv (h : Run step s [] t) : t = s := by
  generalize htr : ([] : List α) = l at h
  cases h with
  | nil => rfl
  | snoc => simp at htr

theorem snoc_inv (h : Run step s (tr ++ [a]) u) : ∃ t, Run step s tr t ∧ step t a u := by
  generalize htr : tr ++ [a] = l at h
  cases h with
  | nil => simp at htr
  | snoc h hs =>
    obtain ⟨rfl, hlast⟩ := List.append_inj' htr rfl
    cases hlast
    exact ⟨_, h, hs⟩

theorem split (h : Run step s (tr ++ tr') u) : ∃ t, Run step s tr t ∧ Run step t tr' u := by
  induction tr' using List.reverseRecOn generalizing u with
  | nil =>
    rw [List.append_nil] at h
    exact ⟨u, h, .nil u⟩
  | append_singleton tr' a ih =>
    rw [← List.append_assoc] at h
    obtain ⟨v, hv, hs⟩ := h.snoc_inv
    obtain ⟨t, h1, h2⟩ := ih hv
    exact ⟨t, h1, .snoc h2 hs⟩

/-- A run around one of its labels. -/
theorem split_at (h : Run step s (tr ++ a :: tr') u) :
    ∃ t t', Run step s tr t ∧ step t a t' ∧ Run step t' tr' u := by
  rw [show tr ++ a :: tr' = (tr ++ [a]) ++ tr' by simp] at h
  obtain ⟨t', h1, h2⟩ := h.split
  obtain ⟨t, h3, hs⟩ := h1.snoc_inv
  exact ⟨t, t', h3, hs, h2⟩

theorem cons_inv (h : Run step s (a :: tr) u) : ∃ t, step s a t ∧ Run step t tr u := by
  obtain ⟨t, t', h1, hs, h2⟩ := (show Run step s ([] ++ a :: tr) u from h).split_at
  rw [h1.nil_inv] at hs
  exact ⟨t', hs, h2⟩

/-- **Simulation.**  The abstract system follows the visible steps and sleeps through the
others. -/
theorem simulates {τ : Type} {astep : τ → α → τ → Prop} (R : σ → τ → Prop) (visible : α → Bool)
    (hvis : ∀ s t a s', R s t → step s a s' → visible a = true → ∃ t', astep t a t' ∧ R s' t')
    (hsleep : ∀ s t a s', R s t → step s a s' → visible a = false → R s' t) {s' : σ} {t : τ}
    (h : Run step s tr s') (hR : R s t) : ∃ t', Run astep t (tr.filter visible) t' ∧ R s' t' := by
  induction h with
  | nil => exact ⟨t, .nil t, hR⟩
  | @snoc v w tr a _ hs ih =>
    obtain ⟨t', hrun, hR'⟩ := ih
    rw [List.filter_append]
    cases hv : visible a with
    | true =>
      obtain ⟨t'', hstep, hR''⟩ := hvis v t' a w hR' hs hv
      refine ⟨t'', ?_, hR''⟩
      rw [List.filter_cons_of_pos hv, List.filter_nil]
      exact .snoc hrun hstep
    | false =>
      refine ⟨t', ?_, hsleep v t' a w hR' hs hv⟩
      rw [List.filter_cons_of_neg (by simp [hv]), List.filter_nil, List.append_nil]
      exact hrun

end Run

/-! ## Positions of a history -/

section

variable {α : Type} {tr : List α} {a b : α} {i : Nat}

theorem getElem?_snoc_old (h : tr[i]? = some a) (b : α) : (tr ++ [b])[i]? = some a := by
  obtain ⟨hi, _⟩ := List.getElem?_eq_some_iff.mp h
  rw [List.getElem?_append_left hi]
  exact h

theorem getElem?_snoc_cases (h : (tr ++ [b])[i]? = some a) :
    tr[i]? = some a ∨ (i = tr.length ∧ b = a) := by
  obtain ⟨hi, _⟩ := List.getElem?_eq_some_iff.mp h
  rw [List.length_append, List.length_singleton] at hi
  by_cases hlt : i < tr.length
  · rw [List.getElem?_append_left hlt] at h
    exact .inl h
  · have last : i = tr.length := by omega
    subst last
    rw [List.getElem?_concat_length] at h
    exact .inr ⟨rfl, Option.some.inj h⟩

theorem findIdxs_snoc (p : α → Bool) (tr : List α) (a : α) :
    (tr ++ [a]).findIdxs p = tr.findIdxs p ++ if p a = true then [tr.length] else [] := by
  rw [List.findIdxs_append, List.findIdxs_singleton]
  simp

theorem mem_findIdxs_get {p : α → Bool} (h : i ∈ tr.findIdxs p) :
    ∃ a, tr[i]? = some a ∧ p a = true := by
  obtain ⟨hi, hp⟩ := List.mem_findIdxs_iff_exists_getElem_pos.mp h
  exact ⟨_, List.getElem?_eq_getElem hi, hp⟩

/-- Positions that are marked with a later position keep the marks they had. -/
theorem exists_mark_old {f f' : Nat → Option Nat} {n k : Nat}
    (hold : ∀ i k, f i = some k → f' i = some k)
    (hnew : ∀ i k, f' i = some k → f i = some k ∨ k = n) (hk : k ≠ n) :
    (∃ i, f' i = some k) ↔ ∃ i, f i = some k := by
  constructor
  · rintro ⟨i, hi⟩
    exact ⟨i, (hnew i k hi).resolve_right hk⟩
  · rintro ⟨i, hi⟩
    exact ⟨i, hold i k hi⟩

/-- A run around the label at a position. -/
theorem Run.at_position {σ : Type} {step : σ → α → σ → Prop} {s u : σ} (h : Run step s tr u)
    (hi : tr[i]? = some a) : ∃ t t', Run step s (tr.take i) t ∧ step t a t' := by
  obtain ⟨hlt, rfl⟩ := List.getElem?_eq_some_iff.mp hi
  have parts : tr.take i ++ tr[i] :: tr.drop (i + 1) = tr := by
    rw [← List.drop_eq_getElem_cons hlt, List.take_append_drop]
  rw [← parts] at h
  obtain ⟨t, t', h1, hs, _⟩ := h.split_at
  exact ⟨t, t', h1, hs⟩

end

/-- The labels and the state that a list of inputs leads to under a step function. -/
def drive {σ α ι : Type} (next : σ → ι → Option (α × σ)) : σ → List ι → Option (List α × σ)
  | s, [] => some ([], s)
  | s, i :: is => (next s i).bind fun r => (drive next r.2 is).map fun q => (r.1 :: q.1, q.2)

theorem run_of_drive {σ α ι : Type} {step : σ → α → σ → Prop} {next : σ → ι → Option (α × σ)}
    (hnext : ∀ s i a t, next s i = some (a, t) → step s a t) (s : σ) (is : List ι) (r : List α × σ)
    (h : drive next s is = some r) : Run step s r.1 r.2 := by
  induction is generalizing s r with
  | nil =>
    cases h
    exact .nil _
  | cons i is ih =>
    obtain ⟨p, hp, hrest⟩ := Option.bind_eq_some_iff.mp h
    obtain ⟨q, hq, rfl⟩ := Option.map_eq_some_iff.mp hrest
    exact (ih p.2 q hq).cons (hnext s i p.1 p.2 hp)

/-- A computed run, known by what `f` reads of its labels. -/
theorem exists_run {σ α ι β : Type} {step : σ → α → σ → Prop} {next : σ → ι → Option (α × σ)}
    (hnext : ∀ s i a t, next s i = some (a, t) → step s a t) {s : σ} (is : List ι)
    (f : List α → β) {b : β} (h : (drive next s is).map (fun r => f r.1) = some b) :
    ∃ tr t, Run step s tr t ∧ f tr = b := by
  obtain ⟨⟨tr, t⟩, hr, hb⟩ := Option.map_eq_some_iff.mp h
  exact ⟨tr, t, run_of_drive hnext _ _ _ hr, hb⟩
