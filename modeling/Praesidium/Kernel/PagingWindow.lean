import Praesidium.Kernel.PagingBuild
import Praesidium.Kernel.PagingEdit
import Mathlib.Data.List.Induction

/-!
Process spaces: copies of the kernel's root with tables of their own for `[1 GiB, 2 GiB)`.

A process owns the tables on the way to that window and in it; everything else belongs to
the root it is a copy of (`Family.owners`; `windowOwners` where there is one such root).  A
space made by `cloneWindow` is typed that way (`WindowCopied.typed`), and at first translates
like the one copied (`WindowCopied.walk_eq`).  Both hold whether or not the kernel's map reaches
into the window (`Topped`).
-/

namespace Praesidium

namespace Paging

open Fallible Radix

/-! ## Who owns what -/

/-- The paths to and into `[1 GiB, 2 GiB)`. -/
def window : List Nat → Bool
  | [] => true
  | [i] => i == 0
  | i :: j :: _ => i == 0 && j == 1

variable {p : List Nat}

theorem window_of_append {i : Nat} (h : window (p ++ [i]) = true) : window p = true := by
  match p with
  | [] => rfl
  | [j] =>
    simp only [window, List.cons_append, List.nil_append, Bool.and_eq_true] at h
    exact h.1
  | j :: k :: _ => exact h

theorem window_initial {q : List Nat} (h : q <+: p) (hp : window p = true) : window q = true := by
  obtain ⟨r, rfl⟩ := h
  induction r using List.reverseRecOn with
  | nil => rw [List.append_nil] at hp; exact hp
  | append_singleton r i ih =>
    rw [← List.append_assoc] at hp
    exact ih (window_of_append hp)

/-- Addresses of the window. -/
theorem window_path (v : U64) (h : 0x40000000 ≤ v.toNat ∧ v.toNat < 0x80000000) :
    window (path v) = true := by
  obtain ⟨i3, i2, _, _⟩ := index_pageNumber v
  have hpath : path v = [index v 3, index v 2, index v 1, index v 0] := rfl
  have number : pageNumber v = v.toNat / 4096 := by
    unfold pageNumber
    omega
  rw [hpath]
  simp only [window, Bool.and_eq_true, beq_iff_eq, i3, i2, number]
  omega

theorem window_index {v : U64} (h : window (path v) = true) : index v 3 = 0 ∧ index v 2 = 1 := by
  have hpath : path v = [index v 3, index v 2, index v 1, index v 0] := rfl
  rw [hpath] at h
  simpa [window] using h

variable {ω : Type}

/-- Spaces, each with the one it is a copy of. -/
structure Family (ω : Type) where
  base : ω → ω
  base_base : ∀ s, base (base s) = base s

def Family.owners (F : Family ω) : Owners ω where
  own s p := if window p then s else F.base s
  own_root _ := rfl
  own_own s p i := by
    by_cases hp : window p = true
    · rw [if_pos hp]
    · have hpi : ¬ window (p ++ [i]) = true := fun hc => hp (window_of_append hc)
      rw [if_neg hpi, if_neg hpi, if_neg hp, F.base_base]

/-- All spaces are copies of one. -/
def Family.of (base : ω) : Family ω := ⟨fun _ => base, fun _ => rfl⟩

abbrev windowOwners (base : U64) : Owners U64 := (Family.of base).owners

section

variable {F : Family ω}

variable {p : List Nat}

theorem place_window (hp : window p = true) (s : ω) : F.owners.place s p = ⟨s, p⟩ := by
  show (⟨if window p then s else F.base s, p⟩ : Place ω) = _
  rw [if_pos hp]

theorem place_shared (hp : window p = false) (s : ω) : F.owners.place s p = ⟨F.base s, p⟩ := by
  show (⟨if window p then s else F.base s, p⟩ : Place ω) = _
  rw [hp]
  rfl

theorem place_base {s : ω} (hs : F.base s = s) (p : List Nat) : F.owners.place s p = ⟨s, p⟩ := by
  show (⟨if window p then s else F.base s, p⟩ : Place ω) = _
  rw [hs, ite_self]

end

/-! ## Copying the window -/

section

variable {R : Type} {d : Entries} {F : Family ω} {leaf link : Place ω → Nat → U64 → Prop}
  {ty : U64 → Option (Place ω)} {m m' : Machine R} {base : U64} {o s : ω}

/-- The kernel's own tables for the window are in place. -/
structure Windowed (d : Entries) (base : U64) (mem : Mem U64) : Prop where
  pml4e : d.present (mem base 0) = true
  pdpte : d.isTable (mem (d.windowPdpt mem base) 1) = true

/-- They are, or there is no window. -/
structure Topped (d : Entries) (base : U64) (mem : Mem U64) : Prop where
  pml4e : d.present (mem base 0) = true
  pdpte : d.isLeaf 2 (mem (d.windowPdpt mem base) 1) = false

theorem Windowed.topped (hd : d.Lawful) {mem : Mem U64} (hw : Windowed d base mem) :
    Topped d base mem ∧ d.hasWindow mem base = true := by
  have table := hw.pdpte
  rw [hd.isTable_eq 2 _ (.inr rfl), Bool.and_eq_true, Bool.not_eq_true'] at table
  exact ⟨⟨hw.pml4e, table.2⟩, table.1⟩

/-- What the tables of the kernel's space `o` may hold, those of a process may hold. -/
structure Inherits (o : ω) (leaf link : Place ω → Nat → U64 → Prop) : Prop where
  leaf : ∀ s p i e, leaf ⟨o, p⟩ i e → leaf ⟨s, p⟩ i e
  link : ∀ s p i e, link ⟨o, p⟩ i e → link ⟨s, p⟩ i e

/-- Where the first region of the window is mapped, its tables are in place. -/
theorem Entries.Mapped.windowed {mem : Mem U64} (hm : d.Mapped mem base 0x40000000) :
    Windowed d base mem := by
  have i3 : index 0x40000000 3 = 0 := by decide
  have i2 : index 0x40000000 2 = 1 := by decide
  have pml4e := hm.pml4e
  have pdpte := hm.pdpte
  unfold Entries.pdptOf at pdpte
  rw [i3] at pml4e
  rw [i3, i2] at pdpte
  exact ⟨pml4e, pdpte⟩

/-- A map of physical memory, of whatever size. -/
theorem LowArea.topped (hd : d.Lawful) (hz : d.isLeaf 2 0 = false) {mem : Mem U64} {gibs : Nat}
    {used : List U64} (h : LowArea d base 0 gibs used mem) (hused : ∀ t ∈ used, d.IsFrame t) :
    Topped d base mem := by
  obtain ⟨pdpt, pds, _, hmem, tables⟩ := h
  have frame : ∀ t ∈ pdpt :: pds, d.IsFrame t := fun t ht => hused t (hmem t ht)
  have pdptEq : d.windowPdpt mem base = pdpt := by
    unfold Entries.windowPdpt
    rw [tables.root_entry]
    exact hd.next_table (frame pdpt List.mem_cons_self)
  constructor
  · rw [tables.root_entry]
    exact hd.present_table pdpt (frame pdpt List.mem_cons_self)
  · rw [pdptEq]
    cases hg : pds[1]? with
    | none =>
      rw [tables.pdpt_other 1 (List.getElem?_eq_none_iff.mp hg)]
      exact hz
    | some pd =>
      rw [tables.pdpt_entry 1 pd hg]
      exact hd.isLeaf_table 2 pd (frame pd (List.mem_cons_of_mem _ (List.mem_of_getElem? hg)))

section

variable (hd : d.Lawful) (hk : d.Keeps (F.owners.shape 3 leaf link))
  (h : Heap d (F.owners.shape 3 leaf link) ty m) (hbase : ty base = some ⟨o, []⟩)
  (hw : Topped d base m.mem)

include hd hk h hbase hw

/-- The places of the kernel's tables for the window. -/
theorem Topped.places :
    ty (d.windowPdpt m.mem base) = some ⟨o, [0]⟩ ∧
      (d.hasWindow m.mem base = true → ty (d.windowPd m.mem base) = some ⟨o, [0, 1]⟩) ∧
      ∀ j, d.WindowTable m.mem base j →
        ty (m.mem (d.windowPd m.mem base) j &&& d.addrMask) = some ⟨o, [0, 1, j]⟩ := by
  have fits0 := h.typed base _ hbase 0 (by decide)
  have link0 : d.isLeaf 3 (m.mem base 0) = false := eq_false_of_ne_true fun hc =>
    hk.root_leaf _ _ _ rfl hc (fits0.leaf hw.pml4e (.inr hc))
  have pdpt : ty (d.windowPdpt m.mem base) = some ⟨o, [0]⟩ :=
    (fits0.link hw.pml4e (by decide : (3 : Nat) ≠ 0) link0).2
  have pd : d.hasWindow m.mem base = true → ty (d.windowPd m.mem base) = some ⟨o, [0, 1]⟩ :=
    fun hl =>
      ((h.typed _ _ pdpt 1 (by decide)).link hl (by decide : (2 : Nat) ≠ 0) hw.pdpte).2
  refine ⟨pdpt, pd, fun j ⟨hl, hj, htab⟩ => ?_⟩
  rw [hd.isTable_eq 1 _ (.inl rfl), Bool.and_eq_true, Bool.not_eq_true'] at htab
  exact ((h.typed _ _ (pd hl) j hj).link htab.1 (by decide : (1 : Nat) ≠ 0) htab.2).2

theorem Topped.settled : WindowSettled d base m := by
  obtain ⟨pdpt, pd, pts⟩ := hw.places hd hk h hbase
  exact ⟨h.not_free hbase, h.not_free pdpt, fun hl => h.not_free (pd hl), fun j hj =>
    h.not_free (pts j hj)⟩

end

/-! ## The places of a copy -/

/-- The tables of a copy get their places, all others keep theirs. -/
structure CopyPlaces (ty : U64 → Option (Place ω)) (linked : Prop) (tab : Nat → Prop) (s : ω)
    (root pdpt pd : U64) (pts : Nat → U64) (ty' : U64 → Option (Place ω)) : Prop where
  root_place : ty' root = some ⟨s, []⟩
  pdpt_place : ty' pdpt = some ⟨s, [0]⟩
  pd_place : linked → ty' pd = some ⟨s, [0, 1]⟩
  pts_place : ∀ j, tab j → ty' (pts j) = some ⟨s, [0, 1, j]⟩
  same : ∀ t, t ≠ root → t ≠ pdpt → (linked → t ≠ pd) → (∀ j, tab j → t ≠ pts j) → ty' t = ty t

theorem copyPlaces_exists (ty : U64 → Option (Place ω)) (linked : Prop) (tab : Nat → Prop) (s : ω)
    {root pdpt pd : U64} {pts : Nat → U64} (hpdpt : pdpt ≠ root) (hpd : pd ≠ root ∧ pd ≠ pdpt)
    (hpts : ∀ j, tab j → pts j ≠ root ∧ pts j ≠ pdpt ∧ pts j ≠ pd)
    (distinct : ∀ j j', tab j → tab j' → pts j = pts j' → j = j') :
    ∃ ty', CopyPlaces ty linked tab s root pdpt pd pts ty' := by
  classical
  let below : U64 → Option (Place ω) := fun t =>
    if linked ∧ t = pd then some ⟨s, [0, 1]⟩
    else if h : ∃ j, tab j ∧ pts j = t then some ⟨s, [0, 1, h.choose]⟩ else ty t
  refine ⟨Function.update (Function.update below pdpt (some ⟨s, [0]⟩)) root (some ⟨s, []⟩), ?_⟩
  constructor
  case root_place => rw [Function.update_self]
  case pdpt_place => rw [Function.update_of_ne hpdpt, Function.update_self]
  case pd_place =>
    intro hl
    rw [Function.update_of_ne hpd.1, Function.update_of_ne hpd.2]
    exact if_pos ⟨hl, rfl⟩
  case pts_place =>
    intro j hj
    obtain ⟨h1, h2, h3⟩ := hpts j hj
    have found : ∃ k, tab k ∧ pts k = pts j := ⟨j, hj, rfl⟩
    rw [Function.update_of_ne h1, Function.update_of_ne h2]
    refine (if_neg fun hc => h3 hc.2).trans ((dif_pos found).trans ?_)
    rw [distinct _ _ found.choose_spec.1 hj found.choose_spec.2]
  case same =>
    intro t h1 h2 h3 h4
    rw [Function.update_of_ne h1, Function.update_of_ne h2]
    refine (if_neg fun hc => h3 hc.1 hc.2).trans (dif_neg fun hc => ?_)
    obtain ⟨j, hj, he⟩ := hc
    exact h4 j hj he.symm

section

variable {root pdpt pd : U64} {pts : Nat → U64} {used : List U64}

variable {ty' : U64 → Option (Place ω)} {p : List Nat} {i n : Nat} {e f t t' : U64} {r : Place ω}

/-- An entry of a table of the kernel's, copied or moved under a process. -/
theorem fits_copied (hi : Inherits o leaf link) (ho : F.base o = o) (s : ω) {e' : U64}
    (he : Fits d.format (F.owners.shape 3 leaf link) ty ⟨o, p⟩ i e)
    (hp : d.present e' = d.present e) (hl : d.isLeaf (3 - p.length) e' = d.isLeaf (3 - p.length) e)
    (hleaf : leaf ⟨o, p⟩ i e → leaf ⟨o, p⟩ i e') (hlink : link ⟨o, p⟩ i e → link ⟨o, p⟩ i e')
    (hnext : ¬ d.format.leafAt (3 - p.length) e → d.present e = true →
      ty (e &&& d.addrMask) = some ⟨o, p ++ [i]⟩ →
      ty' (e' &&& d.addrMask) = some (F.owners.place s (p ++ [i]))) :
    Fits d.format (F.owners.shape 3 leaf link) ty' ⟨s, p⟩ i e' := by
  intro present
  have present0 : d.format.present e = true := hp.symm.trans present
  have same : d.format.leafAt (3 - p.length) e' ↔ d.format.leafAt (3 - p.length) e := by
    show _ ∨ d.isLeaf _ e' = true ↔ _ ∨ d.isLeaf _ e = true
    rw [hl]
  constructor
  · intro hc
    exact hi.leaf s p i e' (hleaf ((he present0).1 (same.mp hc)))
  · intro hc
    have away : ¬ d.format.leafAt (3 - p.length) e := fun hc' => hc (same.mpr hc')
    obtain ⟨hlk, hty⟩ := (he present0).2 away
    have child : ty (e &&& d.addrMask) = some (F.owners.place o (p ++ [i])) := hty
    rw [place_base ho] at child
    exact ⟨hi.link s p i e' (hlink hlk), hnext away present0 child⟩

theorem fits_copied_moved (hd : d.Lawful) (hk : d.Keeps (F.owners.shape 3 leaf link))
    (hi : Inherits o leaf link) (ho : F.base o = o) (hf : d.IsFrame f)
    (hty : d.present e = true → ty' f = some ⟨s, p ++ [i]⟩) (hwin : window (p ++ [i]) = true)
    (he : Fits d.format (F.owners.shape 3 leaf link) ty ⟨o, p⟩ i e) :
    Fits d.format (F.owners.shape 3 leaf link) ty' ⟨s, p⟩ i (d.moved f e) := by
  refine fits_copied hi ho s he (hd.present_moved f e hf) (hd.isLeaf_moved _ f e hf)
    (hk.leaf_moved _ _ f e hf) (hk.link_moved _ _ f e hf) fun _ present _ => ?_
  have next : d.moved f e &&& d.addrMask = f := Entries.next_moved hf e
  rw [next, place_window hwin]
  exact hty present

/-- A copied entry leads out of the window, or nowhere. -/
theorem fits_copied_same (hi : Inherits o leaf link) (ho : F.base o = o) (hs : F.base s = o)
    (hty : Extends ty ty')
    (hcase : window (p ++ [i]) = false ∨ d.format.leafAt (3 - p.length) e ∨ d.present e = false)
    (he : Fits d.format (F.owners.shape 3 leaf link) ty ⟨o, p⟩ i e) :
    Fits d.format (F.owners.shape 3 leaf link) ty' ⟨s, p⟩ i e := by
  refine fits_copied hi ho s he rfl rfl id id fun away present hplace => ?_
  rcases hcase with hwin | hl | hp
  · rw [place_shared hwin, hs]
    exact hty _ _ hplace
  · exact absurd hl away
  · rw [hp] at present
    cases present

/-- A link that is moved leads on from the copy of the table it led to. -/
theorem walk_moved (hd : d.Lawful) {mem mem' : Mem U64} (w : U64) (hf : d.IsFrame f)
    (hp : d.present (mem t (index w (n + 1))) = true)
    (hl : d.isLeaf (n + 1) (mem t (index w (n + 1))) = false)
    (he : mem' t' (index w (n + 1)) = d.moved f (mem t (index w (n + 1))))
    (hnext : walk d.format mem' (index w) n f = walk d.format mem (index w) n
      (mem t (index w (n + 1)) &&& d.addrMask)) :
    walk d.format mem' (index w) (n + 1) t' = walk d.format mem (index w) (n + 1) t := by
  have present : d.format.present (mem' t' (index w (n + 1))) = true := by
    rw [he]
    exact (hd.present_moved f _ hf).trans hp
  have link : d.format.isLeaf (n + 1) (mem' t' (index w (n + 1))) = false := by
    rw [he]
    exact (hd.isLeaf_moved _ f _ hf).trans hl
  have next : d.format.next (mem' t' (index w (n + 1))) = f := by
    rw [he]
    exact Entries.next_moved hf _
  rw [walk_link present link, next, walk_link (F := d.format) hp hl]
  exact hnext

variable (hc : WindowCopied d base m root pdpt pd pts used m')

include hc

/-- The tables of the copy are frames of the supply, each another one. -/
theorem WindowCopied.fresh (hnodup : m.supply.Nodup) :
    (pdpt ≠ root ∧ pd ≠ root ∧ pd ≠ pdpt) ∧
      ∀ j, d.WindowTable m.mem base j → pts j ≠ root ∧ pts j ≠ pdpt ∧ pts j ≠ pd := by
  rw [hc.supply] at hnodup
  simp only [List.nodup_cons, List.mem_cons, List.mem_append, not_or] at hnodup
  obtain ⟨⟨h1, h2, h3, _⟩, ⟨h4, h5, _⟩, ⟨h6, _⟩, _⟩ := hnodup
  refine ⟨⟨fun h => h1 h.symm, fun h => h2 h.symm, fun h => h4 h.symm⟩, fun j hj => ?_⟩
  have huse := hc.taken j hj
  exact ⟨fun h => h3 (h ▸ huse), fun h => h5 (h ▸ huse), fun h => h6 (h ▸ huse)⟩

/-- What the copy is made of came from the supply. -/
theorem WindowCopied.not_supply
    (ht : t ∉ m.supply) :
    t ≠ root ∧ t ≠ pdpt ∧ t ≠ pd ∧ ∀ j, d.WindowTable m.mem base j → t ≠ pts j := by
  rw [hc.supply] at ht
  simp only [List.mem_cons, List.mem_append, not_or] at ht
  exact ⟨ht.1, ht.2.1, ht.2.2.1, fun j hj he => ht.2.2.2.1 (he ▸ hc.taken j hj)⟩

theorem WindowCopied.frames (hframe : ∀ f ∈ m.supply, d.IsFrame f) :
    d.IsFrame root ∧ d.IsFrame pdpt ∧ d.IsFrame pd ∧
      ∀ j, d.WindowTable m.mem base j → d.IsFrame (pts j) := by
  rw [hc.supply] at hframe
  simp only [List.forall_mem_cons, List.forall_mem_append] at hframe
  exact ⟨hframe.1, hframe.2.1, hframe.2.2.1, fun j hj => hframe.2.2.2.1 _ (hc.taken j hj)⟩

/-- What is mapped in the kernel's window is mapped in a copy. -/
theorem WindowCopied.mapped (hd : d.Lawful) (hframe : ∀ f ∈ m.supply, d.IsFrame f) {v : U64}
    (h3 : index v 3 = 0)
    (h2 : index v 2 = 1) (hm : d.Mapped m.mem base v) : d.Mapped m'.mem root v := by
  obtain ⟨_, framePdpt, framePd, framePts⟩ := hc.frames hframe
  obtain ⟨hm4, hm3, hm2⟩ := hm
  rw [h3] at hm4
  have base_pdpt : d.pdptOf m.mem base v = d.windowPdpt m.mem base := by
    unfold Entries.pdptOf; rw [h3]; rfl
  rw [base_pdpt, h2] at hm3
  have base_pd : d.pdOf m.mem base v = d.windowPd m.mem base := by
    unfold Entries.pdOf; rw [base_pdpt, h2]; rfl
  have pdpt_eq : d.pdptOf m'.mem root v = pdpt := by
    unfold Entries.pdptOf
    rw [h3, hc.root_window]
    exact Entries.next_moved framePdpt _
  have pd_eq : d.pdOf m'.mem root v = pd := by
    unfold Entries.pdOf
    rw [pdpt_eq, h2, hc.pdpt_window]
    exact Entries.next_moved framePd _
  unfold Entries.pdeOf at hm2
  rw [base_pd] at hm2
  refine ⟨?_, ?_, ?_⟩
  · rw [h3, hc.root_window, hd.present_moved pdpt _ framePdpt]
    exact hm4
  · rw [pdpt_eq, h2, hc.pdpt_window, hd.isTable_eq 2 _ (.inr rfl), hd.present_moved pd _ framePd,
      hd.isLeaf_moved 2 pd _ framePd, ← hd.isTable_eq 2 _ (.inr rfl)]
    exact hm3
  · have hl : d.hasWindow m.mem base = true := by
      rw [hd.isTable_eq 2 _ (.inr rfl), Bool.and_eq_true] at hm3
      exact hm3.1
    unfold Entries.pdeOf
    rw [pd_eq]
    by_cases htab : d.isTable (m.mem (d.windowPd m.mem base) (index v 1)) = true
    · have tab : d.WindowTable m.mem base (index v 1) := ⟨hl, index_lt v 1, htab⟩
      rw [hc.table _ tab, hd.present_moved _ _ (framePts _ tab)]
      exact hm2
    · rw [hc.plain hl _ (index_lt v 1) (eq_false_of_ne_true htab)]
      exact hm2

variable (h : Heap d (F.owners.shape 3 leaf link) ty m)

include h

/-- Tables that have a place stay as they are. -/
theorem WindowCopied.mem_placed (hr : ty t = some r) : m'.mem t = m.mem t :=
  hc.other t (h.not_free hr)

/-- Walks from a table with a place are what they were. -/
theorem WindowCopied.walk_placed (w : U64) (hr : ty t = some r)
    (hn : 3 - r.path.length = n) :
    walk d.format m'.mem (index w) n t = walk d.format m.mem (index w) n t := by
  refine h.typed.walk_like (index_lt w) hr hn fun t' r' i hr' _ => .inl ?_
  rw [hc.mem_placed h hr']

/-- An entry that is copied leads to where it led. -/
theorem WindowCopied.walk_same (w : U64) (hr : ty t = some r)
    (hn : 3 - r.path.length = n + 1) (he : m'.mem t' (index w (n + 1)) =
    m.mem t (index w (n + 1))) :
    walk d.format m'.mem (index w) (n + 1) t' = walk d.format m.mem (index w) (n + 1) t := by
  refine walk_same_entry he fun present hl => ?_
  have level : (F.owners.shape 3 leaf link).level r = n + 1 := hn
  have fits := h.typed t r hr _ (index_lt w (n + 1))
  have place :=
    (fits.link present (by rw [level]; exact Nat.succ_ne_zero n) (by rw [level]; exact hl)).2
  refine hc.walk_placed h w place ?_
  show 3 - (r.path ++ [_]).length = n
  rw [List.length_append, List.length_singleton]
  omega

variable (hd : d.Lawful) (hk : d.Keeps (F.owners.shape 3 leaf link))
  (hbase : ty base = some ⟨o, []⟩) (hw : Topped d base m.mem)

include hd hk hbase hw

/-- **A copy translates like the kernel's space.** -/
theorem WindowCopied.walk_eq (w : U64) :
    walk d.format m'.mem (index w) 3 root = walk d.format m.mem (index w) 3 base := by
  obtain ⟨pdptPlace, pdPlace, ptPlace⟩ := hw.places hd hk h hbase
  obtain ⟨_, framePdpt, framePd, framePts⟩ := hc.frames h.frame
  by_cases h3 : index w 3 = 0
  case neg => exact hc.walk_same h w hbase rfl (hc.root_other _ (index_lt w 3) h3)
  have link0 : d.isLeaf 3 (m.mem base 0) = false := eq_false_of_ne_true fun hl =>
    hk.root_leaf _ _ _ rfl hl ((h.typed base _ hbase 0 (by decide)).leaf hw.pml4e (.inr hl))
  refine walk_moved hd w framePdpt (by rw [h3]; exact hw.pml4e) (by rw [h3]; exact link0)
    (by rw [h3, hc.root_window]) ?_
  rw [h3]
  show walk d.format m'.mem (index w) 2 pdpt = walk d.format m.mem (index w) 2
    (d.windowPdpt m.mem base)
  by_cases h2 : index w 2 = 1
  case neg => exact hc.walk_same h w pdptPlace rfl (hc.pdpt_other _ (index_lt w 2) h2)
  by_cases hl : d.hasWindow m.mem base = true
  case neg =>
    have absent : d.present (m.mem (d.windowPdpt m.mem base) 1) = false := eq_false_of_ne_true hl
    have absent' : d.present (m'.mem pdpt 1) = false := by
      rw [hc.pdpt_window]
      exact (hd.present_moved pd _ framePd).trans absent
    rw [walk_absent (by rw [h2]; exact absent'), walk_absent (by rw [h2]; exact absent)]
  refine walk_moved hd w framePd (by rw [h2]; exact hl) (by rw [h2]; exact hw.pdpte)
    (by rw [h2, hc.pdpt_window]) ?_
  rw [h2]
  show walk d.format m'.mem (index w) 1 pd = walk d.format m.mem (index w) 1 (d.windowPd m.mem base)
  by_cases htab : d.isTable (m.mem (d.windowPd m.mem base) (index w 1)) = true
  case neg =>
    exact hc.walk_same h w (pdPlace hl) rfl
      (hc.plain hl _ (index_lt w 1) (eq_false_of_ne_true htab))
  have tab : d.WindowTable m.mem base (index w 1) := ⟨hl, index_lt w 1, htab⟩
  have frame := framePts _ tab
  have copy := hc.copy _ tab _ (index_lt w 0)
  have entry := hc.table _ tab
  rw [hd.isTable_eq 1 _ (.inl rfl), Bool.and_eq_true, Bool.not_eq_true'] at htab
  refine walk_moved hd w frame htab.1 htab.2 entry ?_
  rw [walk, walk, copy]

section

variable (hi : Inherits o leaf link) (ho : F.base o = o) (hs : F.base s = o)

include hi ho hs

theorem CopyPlaces.typed
    (places : CopyPlaces ty (d.hasWindow m.mem base = true) (d.WindowTable m.mem base) s root pdpt
      pd pts ty') (keep : Extends ty ty') :
    Typed d.format (F.owners.shape 3 leaf link) ty' 512 m'.mem := by
  obtain ⟨pdptPlace, pdPlace, ptPlace⟩ := hw.places hd hk h hbase
  obtain ⟨_, framePdpt, framePd, framePts⟩ := hc.frames h.frame
  intro t r hr i hi512
  by_cases h1 : t = root
  · subst h1
    cases places.root_place.symm.trans hr
    have fits := h.typed base _ hbase i hi512
    by_cases h0 : i = 0
    · subst h0
      rw [hc.root_window]
      exact fits_copied_moved hd hk hi ho (p := []) framePdpt (fun _ => places.pdpt_place) rfl fits
    · rw [hc.root_other i hi512 h0]
      exact fits_copied_same hi ho hs keep (p := []) (.inl (by simp [window, h0])) fits
  by_cases h2 : t = pdpt
  · subst h2
    cases places.pdpt_place.symm.trans hr
    have fits := h.typed _ _ pdptPlace i hi512
    by_cases h0 : i = 1
    · subst h0
      rw [hc.pdpt_window]
      exact fits_copied_moved hd hk hi ho (p := [0]) framePd places.pd_place rfl fits
    · rw [hc.pdpt_other i hi512 h0]
      exact fits_copied_same hi ho hs keep (p := [0]) (.inl (by simp [window, h0])) fits
  by_cases h3 : d.hasWindow m.mem base = true ∧ t = pd
  · obtain ⟨hl, rfl⟩ := h3
    cases (places.pd_place hl).symm.trans hr
    have fits := h.typed _ _ (pdPlace hl) i hi512
    by_cases htab : d.isTable (m.mem (d.windowPd m.mem base) i) = true
    · rw [hc.table i ⟨hl, hi512, htab⟩]
      exact fits_copied_moved hd hk hi ho (p := [0, 1]) (framePts i ⟨hl, hi512, htab⟩)
        (fun _ => places.pts_place i ⟨hl, hi512, htab⟩) rfl fits
    · have hplain := eq_false_of_ne_true htab
      rw [hc.plain hl i hi512 hplain]
      refine fits_copied_same hi ho hs keep (p := [0, 1]) (.inr ?_) fits
      rw [hd.isTable_eq 1 _ (.inl rfl), Bool.and_eq_false_iff, Bool.not_eq_false'] at hplain
      rcases hplain with hp | hl
      · exact .inr hp
      · exact .inl (.inr hl)
  by_cases h4 : ∃ j, d.WindowTable m.mem base j ∧ t = pts j
  · obtain ⟨j, hj, rfl⟩ := h4
    cases (places.pts_place j hj).symm.trans hr
    rw [hc.copy j hj i hi512]
    exact fits_copied_same hi ho hs keep (p := [0, 1, j]) (.inr (.inl (.inl rfl)))
      (h.typed _ _ (ptPlace j hj) i hi512)
  · have hty : ty t = some r := (places.same t h1 h2 (fun hl he => h3 ⟨hl, he⟩) fun j hj he =>
      h4 ⟨j, hj, he⟩).symm.trans hr
    rw [hc.mem_placed h hty]
    exact (h.typed t r hty i hi512).mono keep

/-- **A copy belongs to its process.** -/
theorem WindowCopied.typed :
    ∃ ty', Grows d (F.owners.shape 3 leaf link) ty m ty' m' ∧ ty' root = some ⟨s, []⟩ := by
  obtain ⟨⟨fresh1, fresh2, fresh3⟩, fresh⟩ := hc.fresh h.nodup
  obtain ⟨ty', places⟩ :=
    copyPlaces_exists ty (d.hasWindow m.mem base = true) (d.WindowTable m.mem base) s fresh1
      ⟨fresh2, fresh3⟩ fresh hc.distinct
  have old : ∀ t, t ∉ m.supply → ty' t = ty t := fun t ht => by
    obtain ⟨h1, h2, h3, h4⟩ := hc.not_supply ht
    exact places.same t h1 h2 (fun _ => h3) h4
  have keep : Extends ty ty' := fun t r hr => (old t (h.not_free hr)).trans hr
  have nodup := h.nodup
  rw [hc.supply] at nodup
  simp only [List.nodup_cons, List.nodup_append, List.mem_cons, List.mem_append, not_or] at nodup
  obtain ⟨⟨_, _, _, n1⟩, ⟨_, _, n2⟩, ⟨_, n3⟩, _, n4, n5⟩ := nodup
  have rest : ∀ t, t ∈ m'.supply → t ∈ m.supply := fun t ht => by rw [hc.supply]; simp [ht]
  refine ⟨ty', ⟨⟨places.typed hc h hd hk hbase hw hi ho hs keep, n4, fun t ht => ?_, fun t ht =>
    h.frame t (rest t ht)⟩, old, rest, hc.regs⟩, places.root_place⟩
  rw [places.same t (fun he => n1 (he ▸ ht)) (fun he => n2 (he ▸ ht)) (fun _ he => n3 (he ▸ ht))
    fun j hj he => n5 _ (hc.taken j hj) t ht he.symm]
  exact h.free t (rest t ht)

end

end

end

end Paging

end Praesidium
