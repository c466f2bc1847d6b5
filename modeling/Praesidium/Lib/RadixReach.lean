import Praesidium.Lib.Radix

/-!
The tables that walks read.

`Reached F W m roots top n t`: a walk from one of `roots`, which are tables of level `top`,
reads table `t` at level `n`.  Reached tables are what a typing has to know, and all that a
walk depends on:

    roots of level top → a reached table has the level it is reached at          (Reached.level)
    roots of level top → what is not reached may lose its role                   (Typed.prune)
    two memories agree on the reached tables → walks from the roots agree        (Reached.walk_eq)
-/

namespace Radix

variable {α : Type}

inductive Reached (F : Format α) (W : Nat) (m : Mem α) (roots : α → Prop) (top : Nat) : Nat →
    α → Prop
  | root {t : α} : roots t → Reached F W m roots top top t
  | link {n i : Nat} {t : α} : Reached F W m roots top (n + 1) t → i < W →
      F.present (m t i) = true →
      F.isLeaf (n + 1) (m t i) = false → Reached F W m roots top n (F.next (m t i))

variable {F : Format α} {W top : Nat} {m m' : Mem α} {roots : α → Prop}

variable {n : Nat} {t : α}

theorem Reached.of_root (h : Reached F W m roots top n t) :
    ∃ r, roots r ∧ Reached F W m (fun t => t = r) top n t := by
  induction h with
  | @root t ht => exact ⟨t, ht, .root rfl⟩
  | link _ hi hp hl ih =>
    obtain ⟨r, hr, reached⟩ := ih
    exact ⟨r, hr, .link reached hi hp hl⟩

/-- **All that a walk depends on.** -/
theorem Reached.walk_eq {ix : Nat → Nat} (hix : ∀ n, ix n < W)
    (same : ∀ n t, Reached F W m roots top n t → ∀ i, i < W → m' t i = m t i)
    (h : Reached F W m roots top n t) : walk F m' ix n t = walk F m ix n t := by
  induction n generalizing t with
  | zero => rw [walk, walk, same 0 t h _ (hix 0)]
  | succ n ih =>
    refine walk_same_entry (same _ t h _ (hix _)) fun present link => ih ?_
    exact .link h (hix _) present link

section

variable {P L : Nat → α → Prop} {lv : α → Option Nat}

variable {n : Nat} {t : α}

theorem Reached.level (ht : Typed F (Shape.uniform P L) lv W m)
    (hr : ∀ t, roots t → lv t = some top) (h : Reached F W m roots top n t) : lv t = some n := by
  induction h with
  | root h => exact hr _ h
  | link _ hi hp hl ih => exact ((ht _ _ ih _ hi).uniform_link hp hl).2

/-- The typing of the reached tables. -/
noncomputable def prune (F : Format α) (W : Nat) (m : Mem α)
    (roots : α → Prop) (top : Nat) (lv : α → Option Nat) : α → Option Nat := by
  classical exact fun t => if ∃ n, Reached F W m roots top n t then lv t else none

theorem prune_eq_some (h : prune F W m roots top lv t = some n) :
    lv t = some n ∧ ∃ k, Reached F W m roots top k t := by
  unfold prune at h
  split at h
  · next reached => exact ⟨h, reached⟩
  · cases h

theorem prune_of_reached (h : Reached F W m roots top n t) : prune F W m roots top lv t = lv t :=
  if_pos ⟨n, h⟩

theorem prune_of_not (h : ∀ n, ¬ Reached F W m roots top n t) : prune F W m roots top lv t = none :=
  if_neg fun hc => h hc.choose hc.choose_spec

theorem Typed.prune (ht : Typed F (Shape.uniform P L) lv W m) (hr : ∀ t, roots t →
    lv t = some top) : Typed F (Shape.uniform P L) (Radix.prune F W m roots top lv) W m := by
  intro t n hn i hi present
  obtain ⟨level, k, reached⟩ := prune_eq_some hn
  have same : k = n := Option.some.inj ((reached.level ht hr).symm.trans level)
  subst same
  have fits := ht t k level i hi present
  refine ⟨fits.1, fun hl => ⟨(fits.2 hl).1, ?_⟩⟩
  have next := (fits.2 hl).2
  cases k with
  | zero => exact absurd (.inl rfl) hl
  | succ k =>
    have link : F.isLeaf (k + 1) (m t i) = false := eq_false_of_ne_true fun hc => hl (.inr hc)
    rw [prune_of_reached (reached.link hi present link)]
    exact next

end

end Radix
