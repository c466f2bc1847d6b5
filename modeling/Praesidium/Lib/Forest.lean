import Mathlib.Data.Finset.Max
import Mathlib.Data.Finset.Card
import Mathlib.Logic.Relation
import Mathlib.Tactic.Common

/-!
Forests of parent links.

A `Forest` is a set of live nodes with at most one parent link each; the links
join live nodes and strictly lower some rank, so a cyclic or dangling forest
cannot be built.  `Desc x a`: following links from `x` reaches `a` in one step or
more.

The ways a forest changes:

* `grow x p`: a new leaf under `p` (or a new root)
* `rename x y`: a node takes another name, children follow
* `cut x`: a leaf goes                                   (desc_cut)
* `prune c`: everything below `c` goes                   (desc_prune)

In a finite forest a walk up ends (`climb_eq_none`), and what has a descendant has
one without children (`exists_leaf`).
-/

structure Forest (α : Type) where
  live : α → Prop
  par : α → Option α
  par_live : ∀ x p, par x = some p → live x ∧ live p
  ranked : ∃ r : α → Nat, ∀ x p, par x = some p → r p < r x

namespace Forest

variable {α : Type}

/-- `x` is a proper descendant of `a`. -/
def Desc (F : Forest α) (x a : α) : Prop := Relation.TransGen (fun y p => F.par y = some p) x a

/-- `k` links up from `x`; `none` once a root has been passed. -/
def climb (par : α → Option α) : Nat → α → Option α
  | 0, x => some x
  | k + 1, x => (par x).bind (climb par k)

/-! ## Descendants -/

theorem desc_of_par (F : Forest α) (x p : α) (h : F.par x = some p) : F.Desc x p :=
  Relation.TransGen.single h

variable {F : Forest α} {x a : α}

theorem Desc.trans {y z : α} (h : F.Desc x y) (h' : F.Desc y z) : F.Desc x z :=
  Relation.TransGen.trans h h'

/-- The first link of a descent. -/
theorem desc_iff (F : Forest α) (x a : α) :
    F.Desc x a ↔ ∃ p, F.par x = some p ∧ (p = a ∨ F.Desc p a) := by
  constructor
  · intro h
    rcases Relation.TransGen.head'_iff.mp h with ⟨p, hp, hr⟩
    refine ⟨p, hp, ?_⟩
    rcases Relation.reflTransGen_iff_eq_or_transGen.mp hr with e | hr
    · exact Or.inl e.symm
    · exact Or.inr hr
  · rintro ⟨p, hp, rfl | hd⟩
    · exact F.desc_of_par x p hp
    · exact (F.desc_of_par x p hp).trans hd

/-- The last link of a descent. -/
theorem Desc.exists_child (h : F.Desc x a) : ∃ y, F.par y = some a ∧ (x = y ∨ F.Desc x y) := by
  rcases Relation.TransGen.tail'_iff.mp h with ⟨y, hr, hy⟩
  refine ⟨y, hy, ?_⟩
  rcases Relation.reflTransGen_iff_eq_or_transGen.mp hr with e | hr
  · exact Or.inl e.symm
  · exact Or.inr hr

theorem Desc.rank_lt (h : F.Desc x a) (r : α → Nat) (hr : ∀ x p, F.par x = some p → r p < r x) :
    r a < r x := by
  induction h with
  | single h => exact hr _ _ h
  | tail _ h ih => have := hr _ _ h; omega

theorem desc_irrefl (F : Forest α) (x : α) : ¬ F.Desc x x := by
  intro h
  obtain ⟨r, hr⟩ := F.ranked
  have := h.rank_lt r hr
  omega

theorem par_ne_self (F : Forest α) (x : α) : F.par x ≠ some x :=
  fun h => F.desc_irrefl x (F.desc_of_par x x h)

theorem Desc.live (h : F.Desc x a) : F.live x ∧ F.live a := by
  obtain ⟨p, hp, -⟩ := (F.desc_iff x a).mp h
  obtain ⟨y, hy, -⟩ := h.exists_child
  exact ⟨(F.par_live x p hp).1, (F.par_live y a hy).2⟩

/-- Links that `G` keeps on the way up from `x` keep `x`'s ancestors. -/
theorem Desc.mono {G : Forest α} (h : F.Desc x a)
    (hk : ∀ y p, (y = x ∨ F.Desc x y) → F.par y = some p → G.par y = some p) : G.Desc x a := by
  induction h with
  | single h => exact G.desc_of_par x _ (hk x _ (Or.inl rfl) h)
  | tail hd hp ih => exact ih.trans (G.desc_of_par _ _ (hk _ _ (Or.inr hd) hp))

/-! ## Walks up -/

theorem climb_reaches (F : Forest α) (x : α) : ∃ k, climb F.par k x = none := by
  obtain ⟨r, hr⟩ := F.ranked
  -- the rank drops on every link
  induction hn : r x using Nat.strong_induction_on generalizing x with
  | _ n ih =>
    cases hp : F.par x with
    | none => exact ⟨1, by simp [climb, hp]⟩
    | some p =>
      obtain ⟨k, hk⟩ := ih (r p) (by rw [← hn]; exact hr x p hp) p rfl
      exact ⟨k + 1, by simp [climb, hp, hk]⟩

theorem climb_succ_ne_self (F : Forest α) (k : Nat) (x : α) : climb F.par (k + 1) x ≠ some x := by
  have key : ∀ k x y, climb F.par (k + 1) x = some y → F.Desc x y := by
    intro k
    induction k with
    | zero =>
      intro x y h
      cases hp : F.par x with
      | none => simp [climb, hp] at h
      | some p =>
        have hpy : p = y := by simpa [climb, hp] using h
        exact hpy ▸ F.desc_of_par x p hp
    | succ k ih =>
      intro x y h
      cases hp : F.par x with
      | none => rw [climb, hp] at h; cases h
      | some p =>
        rw [climb, hp] at h
        exact (F.desc_of_par x p hp).trans (ih p y h)
  exact fun h => F.desc_irrefl x (key k x x h)

/-- A walk up a forest whose live nodes lie in `s` is over after `s.card + 1` links: the
nodes it passes are live and pairwise different. -/
theorem climb_eq_none [DecidableEq α] (F : Forest α) (s : Finset α) (hs : ∀ x, F.live x → x ∈ s)
    (x : α) : climb F.par (s.card + 1) x = none := by
  have key : ∀ n (s : Finset α) x, s.card = n → (∀ y p, (y = x ∨ F.Desc x y) → F.par y = some p →
    y ∈ s) → climb F.par (n + 1) x = none := by
    intro n
    induction n with
    | zero =>
      intro s x hc hin
      cases hp : F.par x with
      | none => simp [climb, hp]
      | some p =>
        have := hin x p (Or.inl rfl) hp
        rw [Finset.card_eq_zero.mp hc] at this
        cases this
    | succ n ih =>
      intro s x hc hin
      cases hp : F.par x with
      | none => rw [climb, hp]; rfl
      | some p =>
        have hx := hin x p (Or.inl rfl) hp
        rw [climb, hp]
        refine ih (s.erase x) p (by rw [Finset.card_erase_of_mem hx, hc]; rfl) (fun y q hy hq => ?_)
        have hxy : F.Desc x y := by
          rcases hy with rfl | hy
          · exact F.desc_of_par x y hp
          · exact (F.desc_of_par x p hp).trans hy
        refine Finset.mem_erase.mpr ⟨fun e => F.desc_irrefl x (e ▸ hxy), hin y q (Or.inr hxy) hq⟩
  exact key s.card s x rfl (fun y p _ hp => hs y (F.par_live y p hp).1)

/-- What has a descendant has one without children. -/
theorem exists_leaf (F : Forest α) (s : Finset α) (hs : ∀ x, F.live x → x ∈ s) (c x : α)
    (h : F.Desc x c) : ∃ y, F.Desc y c ∧ ∀ z, F.par z ≠ some y := by
  classical
  obtain ⟨r, hr⟩ := F.ranked
  obtain ⟨y, hy, hmax⟩ := (s.filter (fun y => F.Desc y c)).exists_max_image r
    ⟨x, Finset.mem_filter.mpr ⟨hs x h.live.1, h⟩⟩
  refine ⟨y, (Finset.mem_filter.mp hy).2, fun z hz => ?_⟩
  -- a child of `y` would be a descendant of higher rank
  have hzc : F.Desc z c := (F.desc_of_par z y hz).trans (Finset.mem_filter.mp hy).2
  have := hmax z (Finset.mem_filter.mpr ⟨hs z hzc.live.1, hzc⟩)
  have := hr z y hz
  omega

/-! ## Building and changing forests -/

def nil (α : Type) : Forest α where
  live _ := False
  par _ := none
  par_live := by intro x p h; cases h
  ranked := ⟨fun _ => 0, by intro x p h; cases h⟩

variable [DecidableEq α]

/-- A new node `x` without children: a leaf under `p`, or a root. -/
def grow (F : Forest α) (x : α) (p : Option α) (hx : ¬ F.live x)
    (hp : ∀ q, p = some q → F.live q) : Forest α where
  live y := y = x ∨ F.live y
  par y := if y = x then p else F.par y
  par_live := by
    intro y q h
    split at h
    · next e => exact ⟨Or.inl e, Or.inr (hp q h)⟩
    · have := F.par_live y q h
      exact ⟨Or.inr this.1, Or.inr this.2⟩
  ranked := by
    obtain ⟨r, hr⟩ := F.ranked
    refine ⟨fun y => if y = x then (p.elim 0 fun q => r q + 1) else r y, fun y q h => ?_⟩
    have hq : F.live q := by
      split at h
      · exact hp q h
      · exact (F.par_live y q h).2
    have hqx : q ≠ x := fun e => hx (e ▸ hq)
    simp only [if_neg hqx]
    split at h
    · next e => rw [if_pos e, h]; exact Nat.lt_succ_self _
    · next e => rw [if_neg e]; exact hr y q h

/-- A node without children goes. -/
def cut (F : Forest α) (x : α) (hleaf : ∀ y, F.par y ≠ some x) : Forest α where
  live y := F.live y ∧ y ≠ x
  par y := if y = x then none else F.par y
  par_live := by
    intro y q h
    split at h
    · cases h
    · next e =>
      have := F.par_live y q h
      exact ⟨⟨this.1, e⟩, this.2, fun e' => hleaf y (e' ▸ h)⟩
  ranked := by
    obtain ⟨r, hr⟩ := F.ranked
    refine ⟨r, fun y q h => ?_⟩
    split at h
    · cases h
    · exact hr y q h

/-- Where `rename x y` puts node `z`. -/
def moved (x y z : α) : α := if z = x then y else z

/-- `x` takes the free name `y`; its children follow. -/
def rename (F : Forest α) (x y : α) (hy : ¬ F.live y) : Forest α where
  live z := z = y ∨ (F.live z ∧ z ≠ x)
  par z := if z = x then none else (F.par (if z = y then x else z)).map (moved x y)
  par_live := by
    intro z q h
    split at h
    · cases h
    · next hzx =>
      obtain ⟨p, hp, rfl⟩ := Option.map_eq_some_iff.mp h
      have hl := F.par_live _ p hp
      refine ⟨?_, ?_⟩
      · by_cases e : z = y
        · exact Or.inl e
        · rw [if_neg e] at hl; exact Or.inr ⟨hl.1, hzx⟩
      · unfold moved
        by_cases e : p = x
        · rw [if_pos e]; exact Or.inl rfl
        · rw [if_neg e]; exact Or.inr ⟨hl.2, e⟩
  ranked := by
    obtain ⟨r, hr⟩ := F.ranked
    refine ⟨fun z => r (if z = y then x else z), fun z q h => ?_⟩
    split at h
    · cases h
    · obtain ⟨p, hp, rfl⟩ := Option.map_eq_some_iff.mp h
      have hback : (if moved x y p = y then x else moved x y p) = p := by
        unfold moved
        by_cases e : p = x
        · rw [if_pos e, if_pos rfl, e]
        · have : p ≠ y := fun e' => hy (e' ▸ (F.par_live _ p hp).2)
          rw [if_neg e, if_neg this]
      simp only [hback]
      exact hr _ p hp

omit [DecidableEq α] in
open Classical in
/-- Everything below `c` goes. -/
noncomputable def prune (F : Forest α) (c : α) : Forest α where
  live y := F.live y ∧ ¬ F.Desc y c
  par y := if F.Desc y c then none else F.par y
  par_live := by
    intro y q h
    split at h
    · cases h
    · next hd =>
      have := F.par_live y q h
      exact ⟨⟨this.1, hd⟩, this.2, fun hq => hd ((F.desc_of_par y q h).trans hq)⟩
  ranked := by
    obtain ⟨r, hr⟩ := F.ranked
    refine ⟨r, fun y q h => ?_⟩
    split at h
    · cases h
    · exact hr y q h

/-! ## Descendants after a change -/

theorem desc_cut (F : Forest α) (x : α) (hleaf : ∀ y, F.par y ≠ some x) (z a : α) :
    (F.cut x hleaf).Desc z a ↔ z ≠ x ∧ F.Desc z a := by
  constructor
  · intro h
    have hz : z ≠ x := h.live.1.2
    refine ⟨hz, h.mono (fun y q _ hq => ?_)⟩
    simp only [cut] at hq
    split at hq
    · cases hq
    · exact hq
  · rintro ⟨hz, h⟩
    refine h.mono (fun y q hy hq => ?_)
    have hyx : y ≠ x := by
      rcases hy with rfl | hy
      · exact hz
      · obtain ⟨w, hw, -⟩ := hy.exists_child
        exact fun e => hleaf w (e ▸ hw)
    simpa [cut, hyx] using hq

omit [DecidableEq α] in
theorem desc_prune (F : Forest α) (c z a : α) :
    (F.prune c).Desc z a ↔ ¬ F.Desc z c ∧ F.Desc z a := by
  constructor
  · intro h
    refine ⟨h.live.1.2, h.mono (fun y q _ hq => ?_)⟩
    simp only [prune] at hq
    split at hq
    · cases hq
    · exact hq
  · rintro ⟨hz, h⟩
    refine h.mono (fun y q hy hq => ?_)
    have hyc : ¬ F.Desc y c := by
      rcases hy with rfl | hy
      · exact hz
      · exact fun h' => hz (hy.trans h')
    simp only [prune, if_neg hyc]
    exact hq

theorem moved_ne (F : Forest α) (x y : α) (hx : F.live x) (hy : ¬ F.live y) (z : α) :
    moved x y z ≠ x := by
  unfold moved
  split
  · exact fun e => hy (e ▸ hx)
  · next h => exact h

end Forest
