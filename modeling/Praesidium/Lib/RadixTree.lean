import Praesidium.Lib.Radix

/-!
Radix tables that share subtrees.

Several roots may lead to the same tables.  A place is a path together with the root that
owns the table found there; `Owners` says who owns the table at a path under a root.  With
places as roles, the walk of an address from a root reads the entries on its own path only,
each in the table of the owner there, so

    two memories that agree on those entries have the same walk   (Typed.walk_tree)
-/

namespace Radix

variable {α ω : Type}

structure Place (ω : Type) where
  owner : ω
  path : List Nat

/-- Who owns the table at a path under a root.  A subtree below a table of another owner is
the one that owner has there. -/
structure Owners (ω : Type) where
  own : ω → List Nat → ω
  own_root : ∀ s, own s [] = s
  own_own : ∀ s p i, own (own s p) (p ++ [i]) = own s (p ++ [i])

/-- Roots of one owner share their tables at the same places only, and with no other owner. -/
def Owners.flat (ω : Type) : Owners ω where
  own s _ := s
  own_root _ := rfl
  own_own _ _ _ := rfl

namespace Owners

variable (O : Owners ω)

def place (s : ω) (p : List Nat) : Place ω := ⟨O.own s p, p⟩

/-- Places as roles, for tables of `top + 1` levels. -/
def shape (top : Nat) (leaf link : Place ω → Nat → α → Prop) : Shape α (Place ω) where
  level r := top - r.path.length
  child r i := ⟨O.own r.owner (r.path ++ [i]), r.path ++ [i]⟩
  leaf := leaf
  link := link
  level_child r i h := by rw [List.length_append, List.length_singleton]; omega

variable {O} {top : Nat} {leaf link : Place ω → Nat → α → Prop}

theorem place_root (s : ω) : O.place s [] = ⟨s, []⟩ := by rw [place, O.own_root]

theorem child_place (s : ω) (p : List Nat) (i : Nat) :
    (O.shape top leaf link).child (O.place s p) i = O.place s (p ++ [i]) := by
  show (⟨O.own (O.own s p) (p ++ [i]), p ++ [i]⟩ : Place ω) = _
  rw [O.own_own, place]

end Owners

/-- The indices from level `n` down. -/
def steps (ix : Nat → Nat) : Nat → List Nat
  | 0 => [ix 0]
  | n + 1 => ix (n + 1) :: steps ix n

/-- A walk depends on its indices only. -/
theorem walk_steps (F : Format α) (m : Mem α) {ix ix' : Nat → Nat} {n : Nat}
    (h : steps ix n = steps ix' n) (t : α) : walk F m ix n t = walk F m ix' n t := by
  induction n generalizing t with
  | zero =>
    have here : ix 0 = ix' 0 := List.singleton_inj.mp h
    rw [walk, walk, here]
  | succ n ih =>
    obtain ⟨here, rest⟩ := List.cons.inj h
    rw [walk, walk, here, ih rest]

variable {O : Owners ω} {top : Nat} {leaf link : Place ω → Nat → α → Prop}

theorem Owners.onPath_place {ix : Nat → Nat} {n : Nat} {s : ω} {p : List Nat} {r : Place ω}
    {i : Nat} (h : (O.shape top leaf link).OnPath ix n (O.place s p) r i) :
    ∃ q, r = O.place s (p ++ q) ∧ q ++ [i] <+: steps ix n := by
  induction n generalizing p with
  | zero =>
    obtain ⟨rfl, rfl⟩ := h
    exact ⟨[], by rw [List.append_nil], List.prefix_refl _⟩
  | succ n ih =>
    rcases h with ⟨rfl, rfl⟩ | h
    · exact ⟨[], by rw [List.append_nil], ⟨steps ix n, rfl⟩⟩
    · rw [child_place] at h
      obtain ⟨q, hr, hq⟩ := ih h
      exact ⟨ix
        (n + 1) :: q, by rw [hr, List.append_assoc]; rfl, List.cons_prefix_cons.mpr ⟨rfl, hq⟩⟩

variable {F : Format α} {ty : α → Option (Place ω)} {W : Nat} {m m' : Mem α} {ix : Nat → Nat}
  {s : ω} {t : α}

section

variable (h : Typed F (O.shape top leaf link) ty W m) (hix : ∀ n, ix n < W)
  (hs : ty t = some (O.place s []))

include h hix hs

/-- **A walk reads its own path.** -/
theorem Typed.walk_tree_like

    (same : ∀ t' q i, ty t' = some (O.place s q) → q ++ [i] <+: steps ix top →
    F.Like (top - q.length) (m t' i) (m' t' i)) :
    Radix.walk F m' ix top t = Radix.walk F m ix top t := by
  refine h.walk_like hix hs rfl fun t' r i hr hp => ?_
  obtain ⟨q, rfl, hq⟩ := Owners.onPath_place hp
  exact same t' q i hr hq

theorem Typed.walk_tree
    (same : ∀ t' q i, ty t' = some (O.place s q) → q ++ [i] <+: steps ix top → m' t' i = m t' i) :
    Radix.walk F m' ix top t = Radix.walk F m ix top t :=
  h.walk_tree_like hix hs fun t' q i hr hq => .inl (same t' q i hr hq)

end

end Radix
