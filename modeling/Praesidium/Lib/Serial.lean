import Mathlib.Tactic.Common

/-!
Serial numbers in a table.

A place holds a serial number or nothing.  Serials are dropped, issued and moved between places.
`Distinct group f`: within a group of places no serial occurs twice.  Dropping keeps it, issuing
keeps it for a serial new to its group, and moving within a group keeps it.
-/

namespace Serial

variable {P K G : Type} {group : P → G} {f f' : P → Option K}

def Distinct (group : P → G) (f : P → Option K) : Prop :=
  ∀ p q k, group p = group q → f p = some k → f q = some k → p = q

theorem Distinct.drop (h : Distinct group f) (hf : ∀ p, f' p = f p ∨ f' p = none) :
    Distinct group f' := by
  have old : ∀ {p k}, f' p = some k → f p = some k := by
    intro p k hp
    rcases hf p with hs | hs
    · rw [← hs]
      exact hp
    · rw [hs] at hp
      cases hp
  exact fun p q k hg hp hq => h p q k hg (old hp) (old hq)

variable [DecidableEq P]

theorem Distinct.issue (h : Distinct group f) {p : P} {k : K}
    (hnew : ∀ q, group q = group p → f q ≠ some k) (hf : ∀ q,
    f' q = if q = p then some k else f q) :
    Distinct group f' := by
  intro q r k' hg hq hr
  rw [hf] at hq hr
  split at hq
  · next hqp =>
    cases hq
    split at hr
    · next hrp => rw [hqp, hrp]
    · exact absurd hr (hnew r (by rw [← hg, hqp]))
  · split at hr
    · next hrp =>
      cases hr
      exact absurd hq (hnew q (by rw [hg, hrp]))
    · exact h q r k' hg hq hr

theorem Distinct.move (h : Distinct group f) {p q : P} (hg : group p = group q)
    (hf : ∀ r, f' r = if r = p then none else if r = q then f p else f r) : Distinct group f' := by
  -- where the serial at a place was before
  have old : ∀ {r k}, f' r = some k → ∃ r', f r' = some k ∧ group r' = group r ∧
    (r' = if r = q then p else r) ∧ r ≠ p := by
    intro r k hr
    rw [hf] at hr
    split at hr
    · cases hr
    · next hrp =>
      split at hr
      · next hrq => exact ⟨p, hr, by rw [hg, hrq], (if_pos hrq).symm, hrp⟩
      · next hrq => exact ⟨r, hr, rfl, (if_neg hrq).symm, hrp⟩
  intro r t k hgroup hr ht
  obtain ⟨r', hr', hgr, her, hrp⟩ := old hr
  obtain ⟨t', ht', hgt, het, htp⟩ := old ht
  have same : r' = t' := h r' t' k (by rw [hgr, hgt, hgroup]) hr' ht'
  rw [her, het] at same
  split at same
  · next hrq =>
    split at same
    · next htq => rw [hrq, htq]
    · exact absurd same.symm htp
  · split at same
    · exact absurd same hrp
    · exact same

end Serial
