import Mathlib.Logic.Function.Basic
import Mathlib.Tactic.Common

/-!
Radix tables in memory, and a typing of them.

A table is found by its address and read by an index.  A `Format` says which entries are
present, which present entries are leaves at a level, and where the others lead; `walk`
follows one index per level from a root to a leaf.

A `Shape` gives every table a role: the level of the role, the role of the table an entry
leads to, and what is asked of leaves and links.  Under a typing `ty` of the addresses,
`Typed` says that every entry of every typed table fits its role.  Tables without a role are
free: they can be built in any order and are given a role when they are complete.

    Typed ty m → (an entry that fits) → Typed ty (m.set t i e)                 (Typed.set)
    Typed ty m → (entries that fit) → Typed ty (m.fill t g)                    (Typed.fill)
    Typed ty m → (all entries of f fit r) → Typed (ty with f ↦ r) m            (Typed.adopt)
    Typed ty m → a walk from a table of role r ends in a leaf its role allows  (Typed.walk)
-/

namespace Radix

variable {α ρ : Type}

/-! ## Tables -/

abbrev Mem (α : Type) := α → Nat → α

namespace Mem

variable [DecidableEq α]

/-- Write one entry. -/
def set (m : Mem α) (t : α) (i : Nat) (e : α) : Mem α :=
  fun t' i' => if t' = t ∧ i' = i then e else m t' i'

/-- Write a whole table. -/
def fill (m : Mem α) (t : α) (f : Nat → α) : Mem α := fun t' => if t' = t then f else m t'

variable (m : Mem α) {t t' : α}

@[simp] theorem set_self (i : Nat) (e : α) : m.set t i e t i = e := if_pos ⟨rfl, rfl⟩

theorem set_index_ne {i i' : Nat} (h : i' ≠ i) (e : α) : m.set t i e t' i' = m t' i' :=
  if_neg fun hc => h hc.2

theorem set_table_ne (h : t' ≠ t) (i : Nat) (e : α) : m.set t i e t' = m t' := by
  funext i'
  exact if_neg fun hc => h hc.1

theorem set_table (i : Nat) (e : α) : m.set t i e t = Function.update (m t) i e := by
  funext i'
  by_cases h : i' = i
  · subst h
    rw [set_self, Function.update_self]
  · rw [set_index_ne _ h, Function.update_of_ne h]

/-- An entry written as it is. -/
theorem set_same (t : α) (i : Nat) : m.set t i (m t i) = m := by
  funext t' i'
  by_cases h : t' = t ∧ i' = i
  · rw [h.1, h.2, set_self]
  · exact if_neg h

theorem set_set (t : α) (i : Nat) (e e' : α) : (m.set t i e).set t i e' = m.set t i e' := by
  funext t' i'
  by_cases h : t' = t ∧ i' = i
  · rw [h.1, h.2, set_self, set_self]
  · exact (if_neg h).trans ((if_neg h).trans (if_neg h).symm)

theorem set_comm (h : t' ≠ t) (i i' : Nat) (e e' : α) :
    (m.set t i e).set t' i' e' = (m.set t' i' e').set t i e := by
  funext x j
  by_cases hx : x = t
  · subst hx
    rw [set_table_ne _ h.symm]
    by_cases hj : j = i
    · subst hj
      rw [set_self, set_self]
    · rw [set_index_ne _ hj, set_index_ne _ hj, set_table_ne _ h.symm]
  · rw [set_table_ne _ hx]
    by_cases hx' : x = t' ∧ j = i'
    · rw [hx'.1, hx'.2, set_self, set_self]
    · refine (if_neg hx').trans ?_
      rw [set_table_ne _ hx]
      exact (if_neg hx').symm

@[simp] theorem fill_self (f : Nat → α) : m.fill t f t = f := if_pos rfl

theorem fill_ne (h : t' ≠ t) (f : Nat → α) : m.fill t f t' = m t' := if_neg h

theorem fill_fill (f g : Nat → α) : (m.fill t f).fill t g = m.fill t g := by
  funext t'
  by_cases h : t' = t
  · subst h; rw [fill_self, fill_self]
  · rw [fill_ne _ h, fill_ne _ h, fill_ne _ h]

/-- The entries of a table being rewritten, one more of them done. -/
theorem set_fill (f g : Nat → α) (n : Nat) :
    (m.fill t fun i => if i < n then f i else g i).set t n (f n) = m.fill t fun i =>
      if i < n + 1 then f i else g i := by
  funext t' i
  by_cases ht : t' = t
  · subst ht
    by_cases hi : i = n
    · subst hi
      rw [set_self, fill_self, if_pos (Nat.lt_succ_self i)]
    · rw [set_index_ne _ hi, fill_self, fill_self]
      have : i < n ↔ i < n + 1 := by omega
      simp only [this]
  · rw [set_table_ne _ ht, fill_ne _ ht, fill_ne _ ht]

end Mem

/-! ## Walks -/

structure Format (α : Type) where
  present : α → Bool
  isLeaf : Nat → α → Bool
  next : α → α

/-- The leaf under `ix`, with its level.  At level 0 every present entry is a leaf. -/
def walk (F : Format α) (m : Mem α) (ix : Nat → Nat) : Nat → α → Option (Nat × α)
  | 0, t => if F.present (m t (ix 0)) then some (0, m t (ix 0)) else none
  | n + 1, t =>
    if F.present (m t (ix (n + 1))) then
      if F.isLeaf (n + 1) (m t (ix (n + 1))) then some (n + 1, m t (ix (n + 1)))
      else walk F m ix n (F.next (m t (ix (n + 1))))
    else none

section

variable {F : Format α} {m : Mem α} {ix : Nat → Nat} {n : Nat} {t : α}

theorem walk_absent (h : F.present (m t (ix n)) = false) : walk F m ix n t = none := by
  cases n with
  | zero => rw [walk, h]; rfl
  | succ n => rw [walk, h]; rfl

theorem walk_page (h : F.present (m t (ix 0)) = true) : walk F m ix 0 t = some (0, m t (ix 0)) := by
  rw [walk, if_pos h]

theorem walk_leaf (h : F.present (m t (ix (n + 1))) = true)
    (hl : F.isLeaf (n + 1) (m t (ix (n + 1))) = true) :
    walk F m ix (n + 1) t = some (n + 1, m t (ix (n + 1))) := by
  rw [walk, if_pos h, if_pos hl]

theorem walk_link (h : F.present (m t (ix (n + 1))) = true)
    (hl : F.isLeaf (n + 1) (m t (ix (n + 1))) = false) :
    walk F m ix (n + 1) t = walk F m ix n (F.next (m t (ix (n + 1)))) := by
  rw [walk, if_pos h, hl]
  rfl

/-- Two walks that read the same entry here go on alike. -/
theorem walk_same_entry {m' : Mem α} {t' : α} (he : m' t' (ix (n + 1)) = m t (ix (n + 1)))
    (hnext : F.present (m t (ix (n + 1))) = true → F.isLeaf (n + 1) (m t (ix (n + 1))) = false →
      walk F m' ix n (F.next (m t (ix (n + 1)))) = walk F m ix n (F.next (m t (ix (n + 1))))) :
    walk F m' ix (n + 1) t' = walk F m ix (n + 1) t := by
  by_cases present : F.present (m t (ix (n + 1))) = true
  · by_cases hleaf : F.isLeaf (n + 1) (m t (ix (n + 1))) = true
    · rw [walk_leaf present hleaf, walk_leaf (by rw [he]; exact present) (by rw [he]; exact hleaf),
        he]
    · have link := eq_false_of_ne_true hleaf
      rw [walk_link present link, walk_link (by rw [he]; exact present) (by rw [he]; exact link),
        he]
      exact hnext present link
  · have absent := eq_false_of_ne_true present
    rw [walk_absent absent, walk_absent (by rw [he]; exact absent)]

theorem walk_present {x : Nat × α} (hw : walk F m ix n t = some x) :
    F.present (m t (ix n)) = true := by
  by_contra hc
  rw [walk_absent (eq_false_of_ne_true hc)] at hw
  cases hw

end

/-- A format that takes the entries without `p` for absent. -/
def Format.only (F : Format α) (p : α → Bool) : Format α :=
  { F with present := fun e => F.present e && p e }

variable {ix : Nat → Nat} {n i : Nat} {t e f : α} {r : ρ} {m' : Mem α}

/-- What a walk finds through entries with `p`, it finds. -/
theorem walk_of_only {F : Format α} {p : α → Bool} {m : Mem α} {l : Nat}
    (h : walk (F.only p) m ix n t = some (l, e)) : walk F m ix n t = some (l, e) ∧ p e = true := by
  induction n generalizing t with
  | zero =>
    have both := walk_present h
    rw [walk_page both] at h
    cases h
    rw [Format.only, Bool.and_eq_true] at both
    exact ⟨walk_page both.1, both.2⟩
  | succ n ih =>
    have both := walk_present h
    have here : F.present (m t (ix (n + 1))) = true ∧ p (m t (ix (n + 1))) = true :=
      Bool.and_eq_true_iff.mp both
    by_cases hleaf : F.isLeaf (n + 1) (m t (ix (n + 1))) = true
    · rw [walk_leaf both hleaf] at h
      cases h
      exact ⟨walk_leaf here.1 hleaf, here.2⟩
    · have link := eq_false_of_ne_true hleaf
      rw [walk_link both link] at h
      rw [walk_link here.1 link]
      exact ih h

/-! ## Typings -/

structure Shape (α ρ : Type) where
  level : ρ → Nat
  child : ρ → Nat → ρ
  leaf : ρ → Nat → α → Prop
  link : ρ → Nat → α → Prop
  level_child : ∀ r i, level r ≠ 0 → level (child r i) + 1 = level r

/-- A role is its level, and only the entries are restricted. -/
def Shape.uniform (P L : Nat → α → Prop) : Shape α Nat where
  level n := n
  child n _ := n - 1
  leaf n _ e := P n e
  link n _ e := L n e
  level_child _ _ h := Nat.succ_pred h

variable (F : Format α) (S : Shape α ρ) (ty : α → Option ρ)

def Format.leafAt (n : Nat) (e : α) : Prop := n = 0 ∨ F.isLeaf n e = true

/-- Entry `i` of a table of role `r` may be `e`. -/
def Fits (r : ρ) (i : Nat) (e : α) : Prop :=
  F.present e = true →
    (F.leafAt (S.level r) e → S.leaf r i e) ∧
    (¬ F.leafAt (S.level r) e → S.link r i e ∧ ty (F.next e) = some (S.child r i))

/-- `W` entries per table. -/
def Typed (W : Nat) (m : Mem α) : Prop :=
  ∀ t r, ty t = some r → ∀ i, i < W → Fits F S ty r i (m t i)

/-- `ty'` gives every role that `ty` gives. -/
def Extends (ty ty' : α → Option ρ) : Prop := ∀ t r, ty t = some r → ty' t = some r

variable {F S ty} {ty' : α → Option ρ} {W : Nat} {m : Mem α}

theorem Extends.refl (ty : α → Option ρ) : Extends ty ty := fun _ _ h => h

theorem Fits.absent (h : F.present e = false) : Fits F S ty r i e := fun hp => by
  rw [h] at hp
  cases hp

section

variable (h : Fits F S ty r i e)

include h

theorem Fits.mono (hty : Extends ty ty') : Fits F S ty' r i e := fun hp =>
  ⟨(h hp).1, fun hl => ⟨((h hp).2 hl).1, hty _ _ ((h hp).2 hl).2⟩⟩

/-- An entry that reads like one that fits. -/
theorem Fits.congr {e' : α} (hp : F.present e' = F.present e)
    (hl : F.isLeaf (S.level r) e' = F.isLeaf (S.level r) e) (hleaf : S.leaf r i e → S.leaf r i e')

    (hlink : S.link r i e → ty (F.next e) = some (S.child r i) → S.link r i e' ∧
    ty' (F.next e') = some (S.child r i)) :
    Fits F S ty' r i e' := by
  intro present
  rw [hp] at present
  have same : F.leafAt (S.level r) e' ↔ F.leafAt (S.level r) e := by unfold Format.leafAt; rw [hl]
  constructor
  · intro hc
    exact hleaf ((h present).1 (same.mp hc))
  · intro hc
    have link := (h present).2 fun hc' => hc (same.mpr hc')
    exact hlink link.1 link.2

theorem Fits.leaf (hp : F.present e = true) (hl : F.leafAt (S.level r) e) :
    S.leaf r i e := (h hp).1 hl

theorem Fits.link (hp : F.present e = true) (h0 : S.level r ≠ 0)
    (hl : F.isLeaf (S.level r) e = false) : S.link r i e ∧ ty (F.next e) = some (S.child r i) := by
  refine (h hp).2 fun hc => ?_
  rcases hc with hc | hc
  · exact h0 hc
  · rw [hl] at hc
    cases hc

end

theorem Fits.uniform_link {P L : Nat → α → Prop} {lv : α → Option Nat}
    (h : Fits F (Shape.uniform P L) lv (n + 1) i e) (hp : F.present e = true)
    (hl : F.isLeaf (n + 1) e = false) : L (n + 1) e ∧ lv (F.next e) = some n :=
  h.link hp (Nat.succ_ne_zero n) hl

theorem Fits.of_leaf (hl : F.leafAt (S.level r) e) (h : S.leaf r i e) : Fits F S ty r i e :=
  fun _ => ⟨fun _ => h, fun hn => absurd hl hn⟩

theorem Fits.of_link (h0 : S.level r ≠ 0) (hl : F.isLeaf (S.level r) e = false) (h : S.link r i e)
    (hn : ty (F.next e) = some (S.child r i)) : Fits F S ty r i e := by
  refine fun _ => ⟨fun hc => ?_, fun _ => ⟨h, hn⟩⟩
  rcases hc with hc | hc
  · exact absurd hc h0
  · rw [hl] at hc
    cases hc

theorem Typed.only (h : Typed F S ty W m) (p : α → Bool) : Typed (F.only p) S ty W m := by
  intro t r hr i hi present
  exact h t r hr i hi (Bool.and_eq_true_iff.mp present).1

/-- The walk along `ix` from a table of role `r` at level `n` reads entry `i` of tables of role `r'`
only. -/
def Shape.OnPath (S : Shape α ρ) (ix : Nat → Nat) : Nat → ρ → ρ → Nat → Prop
  | 0, r, r', i => r = r' ∧ ix 0 = i
  | n + 1, r, r', i => (r = r' ∧ ix (n + 1) = i) ∨ Shape.OnPath S ix n (S.child r (ix (n + 1))) r' i

theorem Shape.onPath_self (S : Shape α ρ) (ix : Nat → Nat) (n : Nat) (r : ρ) :
    S.OnPath ix n r r (ix n) := by
  cases n with
  | zero => exact ⟨rfl, rfl⟩
  | succ n => exact .inl ⟨rfl, rfl⟩

/-- **Typed tables have typed walks.** -/
theorem Typed.walk (h : Typed F S ty W m) (hix : ∀ n, ix n < W) (hr : ty t = some r)
    (hw : Radix.walk F m ix (S.level r) t = some (n, e)) :
    ∃ r', S.level r' = n ∧ S.leaf r' (ix n) e ∧ S.OnPath ix (S.level r) r r' (ix n) := by
  generalize hl : S.level r = l at hw ⊢
  induction l generalizing t r with
  | zero =>
    have present := walk_present hw
    rw [walk_page present] at hw
    cases hw
    exact ⟨r, hl, (h t r hr _ (hix 0)).leaf present (.inl hl), S.onPath_self ix 0 r⟩
  | succ l ih =>
    have present := walk_present hw
    have fits := h t r hr _ (hix (l + 1))
    by_cases hleaf : F.isLeaf (l + 1) (m t (ix (l + 1))) = true
    · rw [walk_leaf present hleaf] at hw
      cases hw
      exact ⟨r, hl, fits.leaf present (.inr (by rw [hl]; exact hleaf)), S.onPath_self ix (l + 1) r⟩
    · have link := eq_false_of_ne_true hleaf
      rw [walk_link present link] at hw
      have lev := S.level_child r (ix (l + 1)) (by omega)
      obtain ⟨r', level, leaf, onPath⟩ :=
        ih (fits.link present (by omega) (by rw [hl]; exact link)).2 (by omega) hw
      exact ⟨r', level, leaf, .inr onPath⟩

/-! ## What a walk depends on -/

/-- At level `n`, a walk that reads the present entry `e` goes on alike when it reads `e'`. -/
structure Format.Alike (F : Format α) (n : Nat) (e e' : α) : Prop where
  present : F.present e' = true
  leaf : F.leafAt n e → e' = e
  link : ¬ F.leafAt n e → ¬ F.leafAt n e' ∧ F.next e' = F.next e

theorem Format.Alike.refl (h : F.present e = true) : F.Alike n e e :=
  ⟨h, fun _ => rfl, fun hl => ⟨hl, rfl⟩⟩

/-- At level `n` a walk does the same with both entries: they are equal, or links to one table. -/
def Format.Like (F : Format α) (n : Nat) (e e' : α) : Prop :=
  e' = e ∨ (¬ F.leafAt n e ∧ ¬ F.leafAt n e' ∧ F.present e' = F.present e ∧ F.next e' = F.next e)

section

variable (h : Typed F S ty W m) (hix : ∀ n, ix n < W) (hr : ty t = some r) (hn : S.level r = n)

include h hix hr hn

/-- **Frame rule for walks**: a walk that ends does so in every memory that reads alike on its
path. -/
theorem Typed.walk_mono
    (same : ∀ t' r' i, ty t' = some r' → S.OnPath ix n r r' i → F.present (m t' i) = true →
    F.Alike (S.level r') (m t' i) (m' t' i))
    {x : Nat × α} (hw : Radix.walk F m ix n t = some x) :
    Radix.walk F m' ix n t = some x := by
  induction n generalizing t r with
  | zero =>
    have present := walk_present hw
    have alike := same t r (ix 0) hr (S.onPath_self ix 0 r) present
    rw [walk_page present] at hw
    rw [walk_page alike.present, alike.leaf (.inl hn)]
    exact hw
  | succ n ih =>
    have present := walk_present hw
    have alike := same t r (ix (n + 1)) hr (S.onPath_self ix (n + 1) r) present
    rw [hn] at alike
    by_cases hleaf : F.isLeaf (n + 1) (m t (ix (n + 1))) = true
    · have entry := alike.leaf (.inr hleaf)
      rw [walk_leaf present hleaf] at hw
      rw [← entry] at hleaf
      rw [walk_leaf alike.present hleaf, entry]
      exact hw
    · have link := eq_false_of_ne_true hleaf
      have away : ¬ F.leafAt (n + 1) (m t (ix (n + 1))) := fun hc => by
        rcases hc with hc | hc
        · cases hc
        · exact hleaf hc
      obtain ⟨away', next⟩ := alike.link away
      have link' : F.isLeaf (n + 1) (m' t (ix (n + 1))) = false :=
        eq_false_of_ne_true fun hc => away' (.inr hc)
      have fits := h t r hr _ (hix (n + 1))
      have lev := S.level_child r (ix (n + 1)) (by omega)
      rw [walk_link present link] at hw
      rw [walk_link alike.present link', next]
      refine ih (fits.link present (by omega) (by rw [hn]; exact link)).2 (by omega) ?_ hw
      exact fun t' r' i hr' hp => same t' r' i hr' (.inr hp)

/-- A walk is the same in every memory with the same links and leaves on its path. -/
theorem Typed.walk_like

    (same : ∀ t' r' i, ty t' = some r' → S.OnPath ix n r r' i →
    F.Like (S.level r') (m t' i) (m' t' i)) :
    Radix.walk F m' ix n t = Radix.walk F m ix n t := by
  induction n generalizing t r with
  | zero =>
    rcases same t r (ix 0) hr (S.onPath_self ix 0 r) with entry | ⟨away, _⟩
    · rw [Radix.walk, Radix.walk, entry]
    · exact absurd (.inl hn) away
  | succ n ih =>
    have like := same t r (ix (n + 1)) hr (S.onPath_self ix (n + 1) r)
    rw [hn] at like
    have present_eq : F.present (m' t (ix (n + 1))) = F.present (m t (ix (n + 1))) := by
      rcases like with entry | ⟨_, _, present, _⟩
      · rw [entry]
      · exact present
    by_cases present : F.present (m t (ix (n + 1))) = true
    · by_cases hleaf : F.isLeaf (n + 1) (m t (ix (n + 1))) = true
      · rcases like with entry | ⟨away, _⟩
        · rw [walk_leaf present hleaf, Radix.walk, entry, if_pos present, if_pos hleaf]
        · exact absurd (.inr hleaf) away
      · have link := eq_false_of_ne_true hleaf
        have link' : F.isLeaf (n + 1) (m' t (ix (n + 1))) = false ∧
            F.next (m' t (ix (n + 1))) = F.next (m t (ix (n + 1))) := by
          rcases like with entry | ⟨_, away, _, next⟩
          · rw [entry]; exact ⟨link, rfl⟩
          · exact ⟨eq_false_of_ne_true fun hc => away (.inr hc), next⟩
        have fits := h t r hr _ (hix (n + 1))
        have lev := S.level_child r (ix (n + 1)) (by omega)
        rw [walk_link present link, walk_link (by rw [present_eq]; exact present) link'.1, link'.2]
        refine ih (fits.link present (by omega) (by rw [hn]; exact link)).2 (by omega) ?_
        exact fun t' r' i hr' hp => same t' r' i hr' (.inr hp)
    · have absent := eq_false_of_ne_true present
      rw [walk_absent absent, walk_absent (by rw [present_eq]; exact absent)]

end

/-! ## Building typed tables -/

variable [DecidableEq α]

theorem Typed.set (h : Typed F S ty W m) (t : α) (i : Nat) (e : α)
    (he : ∀ r, ty t = some r → Fits F S ty r i e) : Typed F S ty W (m.set t i e) := by
  intro t' r hr i' hi'
  by_cases hc : t' = t ∧ i' = i
  · obtain ⟨rfl, rfl⟩ := hc
    rw [Mem.set_self]
    exact he r hr
  · show Fits F S ty r i' (if t' = t ∧ i' = i then e else m t' i')
    rw [if_neg hc]
    exact h t' r hr i' hi'

theorem Typed.fill (h : Typed F S ty W m) (f : α) (g : Nat → α)
    (he : ∀ r, ty f = some r → ∀ i, i < W → Fits F S ty r i (g i)) :
    Typed F S ty W (m.fill f g) := by
  intro t r hr i hi
  by_cases ht : t = f
  · subst ht
    rw [Mem.fill_self]
    exact he r hr i hi
  · rw [Mem.fill_ne _ ht]
    exact h t r hr i hi

theorem extends_update (hf : ty f = none) (o : Option ρ) : Extends ty (Function.update ty f o) := by
  intro t r hr
  have hne : t ≠ f := fun hc => by rw [hc, hf] at hr; cases hr
  rw [Function.update_of_ne hne, hr]

/-- A finished table gets its role. -/
theorem Typed.adopt (h : Typed F S ty W m) (hf : ty f = none) (o : Option ρ)
    (he : ∀ r, o = some r → ∀ i, i < W → Fits F S ty r i (m f i)) :
    Typed F S (Function.update ty f o) W m := by
  intro t r hr i hi
  by_cases ht : t = f
  · subst ht
    rw [Function.update_self] at hr
    exact (he r hr i hi).mono (extends_update hf o)
  · rw [Function.update_of_ne ht] at hr
    exact (h t r hr i hi).mono (extends_update hf o)

end Radix
