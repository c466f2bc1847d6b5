import Praesidium.Kernel.PagingView
import Praesidium.Kernel.PagingWindow

/-!
Many spaces over one memory.

A forest is a set of spaces whose tables are typed by their owners: each space has the tables
of its window to itself and shares all others with the space it is a copy of.  Outside the
window a copy reads the entries of its original (`Forked`).  So for what the spaces show

    a page is edited in o   the new page for every space that has o's tables there,
                            for all others what it was                          (Forest.view_edited)
    b is copied             the copy shows what b shows, nothing else changes   (Forest.copied)
    tables are added        nothing changes for the spaces there are            (Forest.grown)
-/

namespace Praesidium

namespace Paging

open Fallible Radix

variable {ω R : Type} {d : Entries} {F : Family ω}

/-! ## Shapes of a family -/

/-- Anything may stand anywhere, but for leaves in a root. -/
abbrev Family.shape (F : Family ω) : Shape U64 (Place ω) :=
  F.owners.shape 3 (fun r _ _ => r.path ≠ []) fun _ _ _ => True

/-- Roles that are places, with no leaf in a root. -/
theorem Entries.keeps_owners (d : Entries) (O : Owners ω) :
    d.Keeps (O.shape 3 (fun r _ _ => r.path ≠ []) fun _ _ _ => True) where
  root_leaf r _ _ hl _ h := by
    have level : 3 - r.path.length = 3 := hl
    exact h (List.length_eq_zero_iff.mp (by omega))
  link_table _ _ _ _ := trivial
  link_moved _ _ _ _ _ _ := trivial
  leaf_moved _ _ _ _ _ h := h
  leaf_split r i _ _ _ _ _ := by
    show r.path ++ [i] ≠ []
    simp

theorem Family.keeps (F : Family ω) (d : Entries) : d.Keeps F.shape := d.keeps_owners F.owners

theorem Family.inherits (o : ω) :
    Inherits o (fun r _ (_ : U64) => r.path ≠ []) fun _ _ _ => True where
  leaf _ _ _ _ h := h
  link _ _ _ _ h := h

variable {p : List Nat}

theorem Family.own_window (hp : window p = true) (o : ω) : F.owners.own o p = o := if_pos hp

theorem Family.own_shared (hp : window p = false) (o : ω) : F.owners.own o p = F.base o := by
  show (if window p then o else F.base o) = _
  rw [hp]
  rfl

/-- Whoever owns a page owns what leads to it from the second level on. -/
theorem Family.own_settled {q : List Nat} (h : window q = window p) (o : ω) :
    F.owners.own (F.owners.own o p) q = F.owners.own o p := by
  by_cases hp : window p = true
  · rw [F.own_window hp, F.own_window (h.trans hp)]
  · have hp' := eq_false_of_ne_true hp
    rw [F.own_shared hp', F.own_shared (h.trans hp'), F.base_base]

theorem window_shared {v : U64} (hv : window (path v) = false) (h3 : index v 3 = 0) :
    index v 2 ≠ 1 := fun h2 => by
  have both : (index v 3 == 0 && index v 2 == 1) = false := hv
  rw [h3, h2] at both
  cases both

/-! ## Copies -/

/-- Outside the window, the space at `s` has the entries of the one at `b`. -/
structure Forked (d : Entries) (mem : Mem U64) (b s : U64) : Prop where
  root_other : ∀ i, i < 512 → i ≠ 0 → mem s i = mem b i
  pdpt_other : ∀ i, i < 512 → i ≠ 1 → mem (d.windowPdpt mem s) i = mem (d.windowPdpt mem b) i

section

variable {mem : Mem U64} {b s v e : U64}

theorem Forked.walk_eq (hf : Forked d mem b s) (hb : Topped d b mem) (hs : Topped d s mem)
    (hlb : d.isLeaf 3 (mem b 0) = false) (hls : d.isLeaf 3 (mem s 0) = false)
    (hv : window (path v) = false) :
    walk d.format mem (index v) 3 s = walk d.format mem (index v) 3 b := by
  by_cases h3 : index v 3 = 0
  · have linkb : walk d.format mem (index v) 3 b = walk d.format mem (index v) 2
      (d.windowPdpt mem b) := by
      rw [walk_link (by rw [h3]; exact hb.pml4e) (by rw [h3]; exact hlb), h3]
      rfl
    have links : walk d.format mem (index v) 3 s = walk d.format mem (index v) 2
      (d.windowPdpt mem s) := by
      rw [walk_link (by rw [h3]; exact hs.pml4e) (by rw [h3]; exact hls), h3]
      rfl
    rw [linkb, links]
    exact walk_same_entry (hf.pdpt_other _ (index_lt v 2) (window_shared hv h3)) fun _ _ => rfl
  · exact walk_same_entry (hf.root_other _ (index_lt v 3) h3) fun _ _ => rfl

/-- Both have the same table of the gibibyte. -/
theorem Forked.pdOf_eq (hf : Forked d mem b s) (hv : window (path v) = false) :
    d.pdOf mem b v = d.pdOf mem s v := by
  unfold Entries.pdOf Entries.pdptOf
  by_cases h3 : index v 3 = 0
  · have same := hf.pdpt_other _ (index_lt v 2) (window_shared hv h3)
    unfold Entries.windowPdpt at same
    rw [h3, same]
  · rw [hf.root_other _ (index_lt v 3) h3]

theorem Forked.mapped (hf : Forked d mem b s) (hb : Topped d b mem) (hv : window (path v) = false)
    (hm : d.Mapped mem s v) : d.Mapped mem b v := by
  have pd := hf.pdOf_eq hv
  obtain ⟨h4, h3, h2⟩ := hm
  have pde : d.pdeOf mem b v = d.pdeOf mem s v := by unfold Entries.pdeOf; rw [pd]
  rw [← pde] at h2
  by_cases hi : index v 3 = 0
  · have same := hf.pdpt_other _ (index_lt v 2) (window_shared hv hi)
    refine ⟨by rw [hi]; exact hb.pml4e, ?_, h2⟩
    unfold Entries.pdptOf at h3 ⊢
    unfold Entries.windowPdpt at same
    rw [hi] at h3 ⊢
    rw [← same]
    exact h3
  · have same := hf.root_other _ (index_lt v 3) hi
    refine ⟨by rw [← same]; exact h4, ?_, h2⟩
    unfold Entries.pdptOf at h3 ⊢
    rw [← same]
    exact h3

/-- What is edited in the copy is edited in the original. -/
theorem Forked.edited {m m' : Machine R} (hf : Forked d m.mem b s) (hb : Topped d b m.mem)
    (hv : window (path v) = false) (he : Edited d s v e m m') : Edited d b v e m m' := by
  have pd := hf.pdOf_eq hv
  have pde : d.pdeOf m.mem s v = d.pdeOf m.mem b v := by unfold Entries.pdeOf; rw [pd]
  obtain ⟨hm, pt, t, hens, rfl⟩ := he
  refine ⟨hf.mapped hb hv hm, pt, t, ?_, rfl⟩
  cases hens with
  | found hl =>
    rw [pde] at hl ⊢
    exact .found hl
  | split hl hs =>
    rw [pde] at hl ⊢
    rw [← pd]
    exact .split hl hs

end

/-! ## What changes leave of the top of a space -/

/-- The root and the table under its entry 0 keep what the window and the copies rest on. -/
structure TopKept (d : Entries) (mem mem' : Mem U64) (s : U64) : Prop where
  pml4e : d.present (mem' s 0) = d.present (mem s 0)
  pdpt : d.windowPdpt mem' s = d.windowPdpt mem s
  root_other : ∀ i, i ≠ 0 → mem' s i = mem s i
  pdpte : d.isLeaf 2 (mem' (d.windowPdpt mem s) 1) = d.isLeaf 2 (mem (d.windowPdpt mem s) 1)
  pdpt_other : ∀ i, i ≠ 1 → mem' (d.windowPdpt mem s) i = mem (d.windowPdpt mem s) i

section

variable {mem mem' : Mem U64} {b s : U64}

theorem TopKept.of_same (hroot : mem' s = mem s)
    (hpdpt : mem' (d.windowPdpt mem s) = mem (d.windowPdpt mem s)) : TopKept d mem mem' s where
  pml4e := by rw [hroot]
  pdpt := by unfold Entries.windowPdpt; rw [hroot]
  root_other _ _ := by rw [hroot]
  pdpte := by rw [hpdpt]
  pdpt_other _ _ := by rw [hpdpt]

theorem Topped.kept (h : Topped d s mem) (ht : TopKept d mem mem' s) : Topped d s mem' where
  pml4e := ht.pml4e.trans h.pml4e
  pdpte := by rw [ht.pdpt, ht.pdpte]; exact h.pdpte

theorem Forked.kept (h : Forked d mem b s) (hb : TopKept d mem mem' b) (hs : TopKept d mem mem' s) :
    Forked d mem' b s where
  root_other i hi h0 := by rw [hs.root_other i h0, hb.root_other i h0, h.root_other i hi h0]
  pdpt_other i hi h1 := by
    rw [hs.pdpt, hb.pdpt, hs.pdpt_other i h1, hb.pdpt_other i h1, h.pdpt_other i hi h1]

end

/-! ## Forests -/

/-- The spaces `live`, with the root `tree o` each.  Those in `low` map the low half. -/
structure Forest (d : Entries) (F : Family ω) (low live : ω → Prop) (tree : ω → U64)
    (ty : U64 → Option (Place ω)) (m : Machine R) : Prop where
  heap : Heap d F.shape ty m
  root : ∀ o, live o → ty (tree o) = some ⟨o, []⟩
  base : ∀ o, live o → live (F.base o)
  topped : ∀ o, live o → low o → Topped d (tree o) m.mem
  copies : ∀ o, live o → F.base o ≠ o → low o ∧ low (F.base o) ∧
    Forked d m.mem (tree (F.base o)) (tree o)

section

variable {low live live' : ω → Prop} {tree tree' : ω → U64} {ty ty' : U64 → Option (Place ω)}
  {m m' : Machine R} {o : ω} {v e : U64}

section

variable (h : Forest d F low live tree ty m)

include h

theorem Forest.place (ho : live o) : ty (tree o) = some (F.owners.place o []) := by
  rw [Owners.place_root]
  exact h.root o ho

theorem Forest.live_own (ho : live o) (p : List Nat) : live (F.owners.own o p) := by
  by_cases hp : window p = true
  · rw [F.own_window hp]; exact ho
  · rw [F.own_shared (eq_false_of_ne_true hp)]; exact h.base o ho

/-- There are no leaves in a root. -/
theorem Forest.root_link (ho : live o) {i : Nat} (hi : i < 512)
    (hp : d.present (m.mem (tree o) i) = true) : d.isLeaf 3 (m.mem (tree o) i) = false := by
  refine eq_false_of_ne_true fun hl => ?_
  exact (h.heap.typed _ _ (h.root o ho) i hi).leaf hp (.inr hl) rfl

theorem Forest.pdpt_place (hd : d.Lawful) (ho : live o) (hl : low o) :
    ty (d.windowPdpt m.mem (tree o)) = some ⟨o, [0]⟩ :=
  ((h.topped o ho hl).places hd (F.keeps d) h.heap (h.root o ho)).1

/-- A walk in a space is one in the space that owns the page. -/
theorem Forest.walk_owner (ho : live o) (w : U64) :
    walk d.format m.mem (index w) 3 (tree (F.owners.own o (path w))) = walk d.format m.mem (index w)
      3 (tree o) := by
  by_cases hw : window (path w) = true
  · rw [F.own_window hw]
  rw [F.own_shared (eq_false_of_ne_true hw)]
  by_cases hb : F.base o = o
  · rw [hb]
  obtain ⟨lowo, lowb, forked⟩ := h.copies o ho hb
  have topb := h.topped _ (h.base o ho) lowb
  have topo := h.topped _ ho lowo
  exact (forked.walk_eq topb topo (h.root_link (h.base o ho) (by decide) topb.pml4e)
    (h.root_link ho (by decide) topo.pml4e) (eq_false_of_ne_true hw)).symm

/-- An edit in a space is one in the space that owns the page. -/
theorem Forest.edited_owner (ho : live o) (he : Edited d (tree o) v e m m') :
    Edited d (tree (F.owners.own o (path v))) v e m m' := by
  by_cases hv : window (path v) = true
  · rw [F.own_window hv]; exact he
  rw [F.own_shared (eq_false_of_ne_true hv)]
  by_cases hb : F.base o = o
  · rw [hb]; exact he
  obtain ⟨_, lowb, forked⟩ := h.copies o ho hb
  exact forked.edited (h.topped _ (h.base o ho) lowb) (eq_false_of_ne_true hv) he

/-- The spaces outlast any change that keeps the tops of their tables. -/
theorem Forest.kept (heap : Heap d F.shape ty' m') (hty : Extends ty ty')
    (htop : ∀ o, live o → low o → TopKept d m.mem m'.mem (tree o)) :
    Forest d F low live tree ty' m' where
  heap := heap
  root o ho := hty _ _ (h.root o ho)
  base := h.base
  topped o ho hl := (h.topped o ho hl).kept (htop o ho hl)
  copies o ho hb := by
    obtain ⟨lowo, lowb, forked⟩ := h.copies o ho hb
    exact ⟨lowo, lowb, forked.kept (htop _ (h.base o ho) lowb) (htop o ho lowo)⟩

/-- Spaces are added. -/
theorem Forest.add {new : ω → Prop} (htree : ∀ x, live x → tree' x = tree x)
    (hlive : ∀ x, live' x ↔ live x ∨ new x) (hroot : ∀ x, new x → ty (tree' x) = some ⟨x, []⟩)
    (hbase : ∀ x, new x → live' (F.base x)) (htop : ∀ x, new x → low x → Topped d (tree' x) m.mem)
    (hcopy : ∀ x, new x → F.base x ≠ x → low x ∧ low (F.base x) ∧ Forked d m.mem (tree' (F.base x))
      (tree' x)) : Forest d F low live' tree' ty m where
  heap := h.heap
  root x hx := by
    rcases (hlive x).mp hx with hx | hx
    · rw [htree x hx]; exact h.root x hx
    · exact hroot x hx
  base x hx := by
    rcases (hlive x).mp hx with hx | hx
    · exact (hlive _).mpr (.inl (h.base x hx))
    · exact hbase x hx
  topped x hx hl := by
    rcases (hlive x).mp hx with hx | hx
    · rw [htree x hx]; exact h.topped x hx hl
    · exact htop x hx hl
  copies x hx hb := by
    rcases (hlive x).mp hx with hx | hx
    · rw [htree x hx, htree _ (h.base x hx)]; exact h.copies x hx hb
    · exact hcopy x hx hb

/-! ## Edits -/

theorem Forest.edited (hd : d.Lawful) (ho : live o) (he : Edited d (tree o) v e m m') :
    ∃ ty', Forest d F low live tree ty' m' ∧ Grows d F.shape ty m ty' m' := by
  obtain ⟨ty', grown⟩ := he.typed hd (F.keeps d) h.heap (h.place ho) fun _ hc => by cases hc
  refine ⟨ty', h.kept grown.heap (grown.keeps h.heap) fun x hx hl => ?_, grown⟩
  refine .of_same ?_ ?_
  · exact he.same_above hd (F.keeps d) h.heap (h.place ho) (h.place hx) (by decide)
  · have place : ty (d.windowPdpt m.mem (tree x)) = some (F.owners.place x [0]) := by
      rw [place_window rfl]
      exact h.pdpt_place hd hx hl
    exact he.same_above hd (F.keeps d) h.heap (h.place ho) place (by decide)

end

variable {access : U64 → Bool × Bool}

/-- **What an edit shows**, in every space. -/
theorem Forest.view_edited (h : Forest d F low live tree ty m) (hd : d.Lawful) (hr : d.Reads access)
    (ho : live o) (he : Edited d (tree o) v e m m') {x : ω} (hx : live x) (w : U64) :
    (path w = path v ∧ F.owners.own x (path v) = F.owners.own o (path v) →
        d.view access m'.mem (tree x) w = d.leafView access w (d.pageAt e)) ∧
      (¬ (path w = path v ∧ F.owners.own x (path v) = F.owners.own o (path v)) →
        d.view access m'.mem (tree x) w = d.view access m.mem (tree x) w) := by
  obtain ⟨ty', h', _⟩ := h.edited hd ho he
  unfold Entries.view
  rw [← h'.walk_owner hx w, ← h.walk_owner hx w]
  have edit := h.edited_owner ho he
  have placed := h.place (h.live_own ho (path v))
  have placed' := h.place (h.live_own hx (path w))
  have settled : ∀ q, window q = window (path v) →
      F.owners.own (F.owners.own o (path v)) q = F.owners.own o (path v) :=
      fun q hq => F.own_settled hq o
  by_cases hreg : region w = region v
  case neg =>
    have hpath : path w ≠ path v := fun hc => hreg (region_of_path hc).1
    refine ⟨fun hc => absurd hc.1 hpath, fun _ => congrArg _ ?_⟩
    exact edit.walk_same hd (F.keeps d) h.heap placed placed' (fun _ hc => absurd hc hreg) (fun _ =>
      hpath) h.heap.typed
  -- in the region of v, the owners there decide
  have hwin : window (path w) = window (path v) := by
    obtain ⟨i3, i2, _⟩ := index_of_region hreg
    show (index w 3 == 0 && index w 2 == 1) = (index v 3 == 0 && index v 2 == 1)
    rw [i3, i2]
  have owners : F.owners.own x (path w) = F.owners.own x (path v) := by
    show (if window (path w) then x else F.base x) = (if window (path v) then x else F.base x)
    rw [hwin]
  rw [owners] at placed' ⊢
  have settled' : ∀ q, window q = window (path v) →
      F.owners.own (F.owners.own x (path v)) q = F.owners.own x (path v) :=
      fun q hq => F.own_settled hq x
  by_cases hown : F.owners.own x (path v) = F.owners.own o (path v)
  case neg =>
    refine ⟨fun hc => absurd hc.2 hown, fun _ => congrArg _ ?_⟩
    refine edit.walk_same hd (F.keeps d) h.heap placed placed' (fun hc => absurd ?_ hown) (fun hc =>
      absurd ?_ hown) h.heap.typed
    · rw [settled [index v 3, index v 2] rfl, settled' [index v 3, index v 2] rfl] at hc
      exact hc
    · rw [settled (region v) rfl, settled' (region v) rfl] at hc
      exact hc
  rw [hown]
  by_cases hpath : path w = path v
  · exact ⟨fun _ => edit.view_page hd (F.keeps d) h.heap placed hpath, fun hc =>
      absurd ⟨hpath, rfl⟩ hc⟩
  · exact ⟨fun hc => absurd hc.1 hpath, fun _ =>
      edit.view_rest hd (F.keeps d) h.heap placed hr hpath⟩

/-- The page of `v` becomes `e` for `o` and for whoever has its tables there, and nothing else
changes. -/
structure Changed (d : Entries) (access : U64 → Bool × Bool) (F : Family ω)
    (low live : ω → Prop) (tree : ω → U64) (o : ω) (v e : U64) (m m' : Machine R) : Prop where
  forest : ∃ ty', Forest d F low live tree ty' m'
  root : ∀ x, live x → ∀ i, d.present (m'.mem (tree x) i) = d.present (m.mem (tree x) i)
  page : ∀ x, live x → ∀ w, path w = path v ∧ F.owners.own x (path v) = F.owners.own o (path v) →
    d.view access m'.mem (tree x) w = d.leafView access w (d.pageAt e)
  rest : ∀ x, live x → ∀ w, ¬ (path w = path v ∧
    F.owners.own x (path v) = F.owners.own o (path v)) →
    d.view access m'.mem (tree x) w = d.view access m.mem (tree x) w

theorem Forest.changed (h : Forest d F low live tree ty m) (hd : d.Lawful) (hr : d.Reads access)
    (ho : live o) (he : Edited d (tree o) v e m m') :
    Changed d access F low live tree o v e m m' := by
  obtain ⟨ty', h', _⟩ := h.edited hd ho he
  refine ⟨⟨ty', h'⟩, fun x hx i => ?_, fun x hx w => ?_, fun x hx w => ?_⟩
  · rw [he.same_above hd (F.keeps d) h.heap (h.place ho) (h.place hx) (by decide)]
  · exact (h.view_edited hd hr ho he hx w).1
  · exact (h.view_edited hd hr ho he hx w).2

/-! ## New tables -/

/-- Tables that are added change nothing for the spaces there are. -/
theorem Forest.grown (access : U64 → Bool × Bool) (h : Forest d F low live tree ty m)
    (hd : d.Lawful) (heap : Heap d F.shape ty' m') (hty : Extends ty ty')
    (hsame : ∀ t, t ∉ m.supply → m'.mem t = m.mem t) :
    Forest d F low live tree ty' m' ∧
      ∀ x, live x → ∀ w, d.view access m'.mem (tree x) w = d.view access m.mem (tree x) w := by
  have same : ∀ t r, ty t = some r → m'.mem t = m.mem t :=
    fun t r hr => hsame t (h.heap.not_free hr)
  refine ⟨h.kept heap hty fun x hx hl => ?_, fun x hx w => ?_⟩
  · exact .of_same (same _ _ (h.root x hx)) (same _ _ (h.pdpt_place hd hx hl))
  · refine congrArg _ (h.heap.typed.walk_like (index_lt w) (h.root x hx) rfl fun t r i hr _ =>
      .inl ?_)
    rw [same t r hr]

/-- **A copy.** -/
theorem Forest.copied (access : U64 → Bool × Bool) (h : Forest d F low live tree ty m)
    (hd : d.Lawful) {b : ω} (hb : live b) (hlb : low b) (hbb : F.base b = b) (hob : F.base o = b)
    (hlo : low o) {root pdpt pd : U64} {pts : Nat → U64} {used : List U64}
    (hc : WindowCopied d (tree b) m root pdpt pd pts used m')
    (htree : ∀ x, live x → tree' x = tree x) (hlive : ∀ x, live' x ↔ live x ∨ x = o)
    (hroot : tree' o = root) :
    (∃ ty', Forest d F low live' tree' ty' m') ∧
      (∀ w, d.view access m'.mem root w = d.view access m.mem (tree b) w) ∧
      ∀ x, live x → ∀ w, d.view access m'.mem (tree x) w = d.view access m.mem (tree x) w := by
  have topped := h.topped b hb hlb
  obtain ⟨ty', grown, placed⟩ :=
    hc.typed h.heap hd (F.keeps d) (h.root b hb) topped (Family.inherits b) hbb hob
  obtain ⟨h', same⟩ := h.grown access hd grown.heap (grown.keeps h.heap) hc.other
  obtain ⟨_, framePdpt, framePd, _⟩ := hc.frames h.heap.frame
  have pdpt_eq : d.windowPdpt m'.mem root = pdpt := by
    unfold Entries.windowPdpt
    rw [hc.root_window]
    exact Entries.next_moved framePdpt _
  have base_root : m'.mem (tree b) = m.mem (tree b) := hc.mem_placed h.heap (h.root b hb)
  have base_pdpt : d.windowPdpt m'.mem (tree b) = d.windowPdpt m.mem (tree b) := by
    unfold Entries.windowPdpt
    rw [base_root]
  have pdpt_same : m'.mem (d.windowPdpt m.mem (tree b)) = m.mem (d.windowPdpt m.mem (tree b)) :=
    hc.mem_placed h.heap (h.pdpt_place hd hb hlb)
  have top : Topped d root m'.mem := by
    constructor
    · rw [hc.root_window, hd.present_moved pdpt _ framePdpt]
      exact topped.pml4e
    · rw [pdpt_eq, hc.pdpt_window, hd.isLeaf_moved 2 pd _ framePd]
      exact topped.pdpte
  have forked : Forked d m'.mem (tree b) root := by
    constructor
    · intro i hi h0
      rw [hc.root_other i hi h0, base_root]
    · intro i hi h1
      rw [pdpt_eq, base_pdpt, hc.pdpt_other i hi h1, pdpt_same]
  refine ⟨⟨ty', ?_⟩, fun w => ?_, same⟩
  · refine h'.add htree hlive (fun x hx => ?_) (fun x hx => ?_) (fun x hx _ => ?_) fun x hx _ => ?_
    · rw [hx, hroot]; exact placed
    · rw [hx, hob]; exact (hlive b).mpr (.inl hb)
    · rw [hx, hroot]; exact top
    · rw [hx, hob, hroot, htree b hb]
      exact ⟨hlo, hlb, forked⟩
  · exact congrArg _ (hc.walk_eq h.heap hd (F.keeps d) (h.root b hb) topped w)

end

end Paging

end Praesidium
