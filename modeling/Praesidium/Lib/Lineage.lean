import Mathlib.Tactic.Common

/-!
Lineage of numbered instances.

A log records each derivation as a `Link` from the instance derived from to the new
one.  A strict link starts a lineage at its source; any link carries on one that
reached its source.  `Derived log x y`: `y` is in the lineage that starts at `x`.

A log only grows by links to fresh instances, so it says the same about old
instances ever after (`derived_append_old`), and about a new one what its own link
says (`derived_append_new`).
-/

namespace Lineage

structure Link (α : Type) where
  src : α
  dst : α
  strict : Bool
  deriving DecidableEq, Repr

variable {α : Type}

inductive Derived (log : List (Link α)) : α → α → Prop
  | start {e : Link α} : e ∈ log → e.strict = true → Derived log e.src e.dst
  | next {x : α} {e : Link α} : Derived log x e.src → e ∈ log → Derived log x e.dst

theorem Derived.exists_src {log : List (Link α)} {x y : α} (h : Derived log x y) :
    ∃ e ∈ log, e.src = x := by
  induction h with
  | start he _ => exact ⟨_, he, rfl⟩
  | next _ _ ih => exact ih

/-- New links lead to new instances, so old lineages do not change. -/
theorem derived_append_old (old : α → Prop) (log new : List (Link α))
    (hsrc : ∀ e ∈ log ++ new, old e.src) (hnew : ∀ e ∈ new, ¬ old e.dst) (x y : α) (hy : old y)
    (h : Derived (log ++ new) x y) : Derived log x y := by
  have hlog : ∀ e ∈ log ++ new, old e.dst → e ∈ log := by
    intro e he ho
    rcases List.mem_append.mp he with he | he
    · exact he
    · exact absurd ho (hnew e he)
  induction h with
  | start he hs => exact .start (hlog _ he hy) hs
  | next _ he ih => exact .next (ih (hsrc _ he)) (hlog _ he hy)

/-- A new instance is in the lineages its own link puts it in. -/
theorem derived_append_new (old : α → Prop) (log new : List (Link α))
    (hsrc : ∀ e ∈ log ++ new, old e.src) (hdst : ∀ e ∈ log, old e.dst)
    (hnew : ∀ e ∈ new, ¬ old e.dst) (x y : α) (hy : ¬ old y) (h : Derived (log ++ new) x y) :
    ∃ e ∈ new, e.dst = y ∧ ((e.strict = true ∧ e.src = x) ∨ Derived log x e.src) := by
  have hlast : ∀ e ∈ log ++ new, ¬ old e.dst → e ∈ new := by
    intro e he ho
    rcases List.mem_append.mp he with he | he
    · exact absurd (hdst e he) ho
    · exact he
  cases h with
  | start he hs => exact ⟨_, hlast _ he hy, rfl, Or.inl ⟨hs, rfl⟩⟩
  | next hd he =>
    exact ⟨_, hlast _ he hy, rfl, Or.inr (derived_append_old old log new hsrc hnew x _
      (hsrc _ he) hd)⟩

end Lineage
