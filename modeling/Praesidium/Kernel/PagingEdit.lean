import Praesidium.Kernel.PagingTyped
import Praesidium.Lib.RadixTree

/-!
What an edit of one page does to the tables and to walks.

`Edited d root v e`: the page of `v` under `root` now holds `e`, after a 2 MiB leaf in its place
was split.  Both backends edit this way.  When the tables are typed by their places, an edit
changes only entries on the path of `v`, in the tables of their owners there (`Edited.changes`).
For a walk from the root of the edit this means

    on the page of v              the new entry, if present                      (Edited.walk_page)
    elsewhere in a split region   the page of the old leaf                       (Edited.walk_split)
    anywhere else                 what it was                                    (Edited.walk_off)
-/

namespace Praesidium

namespace Paging

open Fallible Radix

/-! ## Paths -/

/-- The indices of the 2 MiB region of `v`. -/
def region (v : U64) : List Nat := [index v 3, index v 2, index v 1]

/-- The indices of the page of `v`. -/
def path (v : U64) : List Nat := steps (index v) 3

theorem path_eq (v : U64) : path v = region v ++ [index v 0] := rfl

variable {v w root e : U64} {mem : Mem U64}

theorem region_of_initial (h : [index v 3, index v 2] ++ [index v 1] <+: path w) :
    region w = region v := by
  have hpath : path w = [index w 3, index w 2, index w 1, index w 0] := rfl
  rw [hpath] at h
  simp only [List.cons_append, List.nil_append, List.cons_prefix_cons] at h
  rw [region, region, h.1, h.2.1, h.2.2.1]

theorem path_of_initial (h : region v ++ [index v 0] <+: path w) : path w = path v :=
  (h.eq_of_length (by rfl)).symm

theorem region_of_path (h : path w = path v) : region w = region v ∧ index w 0 = index v 0 := by
  rw [path_eq, path_eq] at h
  obtain ⟨h1, h2⟩ := List.append_inj' h rfl
  exact ⟨h1, List.singleton_inj.mp h2⟩

/-- Addresses of one region share its indices. -/
theorem index_of_region (h : region w = region v) :
    index w 3 = index v 3 ∧ index w 2 = index v 2 ∧ index w 1 = index v 1 := by
  simp only [region, List.cons.injEq, and_true] at h
  exact h

/-- The virtual page of an address: the bits that make up its indices. -/
def pageNumber (v : U64) : Nat := v.toNat / 4096 % 0x1000000000

theorem index_eq (v : U64) (level : Nat) :
    index v level = v.toNat / 2 ^ (12 + 9 * level) % 512 := by
  unfold index
  rw [BitVec.toNat_and, BitVec.toNat_ushiftRight, Nat.shiftRight_eq_div_pow]
  exact Nat.and_two_pow_sub_one_eq_mod _ 9

theorem index_pageNumber (v : U64) :
    index v 3 = pageNumber v / 0x8000000 ∧ index v 2 = pageNumber v / 0x40000 % 512 ∧
      index v 1 = pageNumber v / 512 % 512 ∧ index v 0 = pageNumber v % 512 := by
  simp only [index_eq, pageNumber, Nat.reduceAdd, Nat.reduceMul, Nat.reducePow]
  omega

theorem path_eq_iff (v w : U64) : path v = path w ↔ pageNumber v = pageNumber w := by
  have hpath : ∀ v, path v = [index v 3, index v 2, index v 1, index v 0] := fun _ => rfl
  obtain ⟨v3, v2, v1, v0⟩ := index_pageNumber v
  obtain ⟨w3, w2, w1, w0⟩ := index_pageNumber w
  rw [hpath, hpath]
  simp only [List.cons.injEq, and_true, v3, v2, v1, v0, w3, w2, w1, w0]
  omega

theorem toNat_pageOffset (v : U64) : (v &&& 0xfff).toNat = v.toNat % 4096 := by
  rw [BitVec.toNat_and]
  exact Nat.and_two_pow_sub_one_eq_mod v.toNat 12

theorem toNat_pageAlign (v : U64) : (pageAlign v).toNat + v.toNat % 4096 = v.toNat := by
  rw [← toNat_pageOffset]
  exact Flags.toNat_split_mask v 0xfff

theorem pageAlign_eq_iff (v w : U64) :
    pageAlign w = pageAlign v ↔ w.toNat / 4096 = v.toNat / 4096 := by
  have wholev := toNat_pageAlign v
  have wholew := toNat_pageAlign w
  rw [BitVec.toNat_eq]
  omega

theorem path_pageAlign (v : U64) : path (pageAlign v) = path v := by
  have whole := toNat_pageAlign v
  rw [path_eq_iff, pageNumber, pageNumber]
  omega

/-! ## Edits -/

variable {R : Type} {d : Entries}

def Edited (d : Entries) (root v e : U64) (m m' : Machine R) : Prop :=
  d.Mapped m.mem root v ∧ ∃ pt t, Ensured d root v m pt t ∧
    m' = { t with mem := t.mem.set pt (index v 0) e }

theorem edit_spec (d : Entries) (root v e : U64) (m : Machine R) :
    Ends (do let pt ← ensureTable d root v; writeEntry pt (index v 0) e) m
      (fun _ m' => Edited d root v e m m')
      (EditFails d root v m) := by
  rw [ends_bind]
  refine (ensureTable_spec d root v m).imp_ok fun pt t hQ => ?_
  rw [ends_writeEntry]
  exact ⟨hQ.1, pt, t, hQ.2, rfl⟩

variable {m m' : Machine R}

theorem Edited.regs (h : Edited d root v e m m') : m'.regs = m.regs := by
  obtain ⟨_, pt, t, ensured, rfl⟩ := h
  cases ensured with
  | found _ => rfl
  | split _ _ => rfl

/-- An edit keeps a typing when the new entry may stand in its place. -/
theorem Edited.grows {ρ : Type} {S : Shape U64 ρ} {ty : U64 → Option ρ} {r : ρ} (hd : d.Lawful)
    (hk : d.Keeps S) (h : Heap d S ty m) (hroot : ty root = some r) (hl : S.level r = 3)
    (he : Edited d root v e m m')
    (hleaf : d.present e = true → S.leaf (S.child (S.child (S.child r (index v 3)) (index v 2))
      (index v 1)) (index v 0) e) : ∃ ty', Grows d S ty m ty' m' := by
  obtain ⟨hm, pt, t, hens, rfl⟩ := he
  obtain ⟨ty', grown, hpt⟩ := hens.typed hd hk h hroot hl hm
  refine ⟨ty', grown.write pt _ e fun r' hr' => ?_⟩
  have same : r' = _ := Option.some.inj (hr'.symm.trans hpt)
  subst same
  exact fun hp => ⟨fun _ => hleaf hp, fun hc => absurd (.inl (level_pt hl _ _ _)) hc⟩

/-- To split a leaf is to write its page of `v` as the split gives it. -/
theorem Ensured.edited {pt : U64} (hm : d.Mapped m.mem root v)
    (hl : d.isLeaf 1 (d.pdeOf m.mem root v) = true) (hpd : pt ≠ d.pdOf m.mem root v)
    (he : Ensured d root v m pt m') :
    Edited d root v (d.split (d.pdeOf m.mem root v) (index v 0)) m m' := by
  refine ⟨hm, pt, m', he, ?_⟩
  cases he with
  | found hc =>
    rw [hc] at hl
    cases hl
  | split _ hs =>
    have entry : ((m.mem.fill pt (full (d.split (d.pdeOf m.mem root v)))).set (d.pdOf m.mem root v)
      (index v 1)
        (pt ||| d.tableBits)) pt (index v 0) = d.split (d.pdeOf m.mem root v) (index v 0) := by
      rw [Mem.set_table_ne _ hpd, Mem.fill_self, full_of_lt _ (index_lt v 0)]
    dsimp only
    rw [← entry, Mem.set_same]

/-- The leaf that a walk finds in a table of pages. -/
def Entries.pageAt (d : Entries) (e : U64) : Option (Nat × U64) :=
  if d.present e then some (0, e) else none

theorem Entries.Lawful.pageAt_zero (hd : d.Lawful) : d.pageAt 0 = none := by
  unfold Entries.pageAt
  rw [hd.present_zero]
  rfl

theorem Entries.pageAt_some {r : Nat × U64} (h : d.pageAt e = some r) : r = (0, e) := by
  unfold Entries.pageAt at h
  split at h
  · exact (Option.some.inj h).symm
  · cases h

section

variable (hd : d.Lawful) (hm : d.Mapped mem root v) (h3 : d.isLeaf 3 (mem root (index v 3)) = false)

include hd hm h3

/-- A walk through a mapped region, down to the table that holds its entry. -/
theorem Entries.Mapped.walk_region :
    walk d.format mem (index v) 3 root = walk d.format mem (index v) 1 (d.pdOf mem root v) := by
  have table := hm.pdpte
  rw [hd.isTable_eq 2 _ (.inr rfl), Bool.and_eq_true, Bool.not_eq_true'] at table
  rw [walk_link (F := d.format) hm.pml4e h3]
  show walk d.format mem (index v) 2 (d.pdptOf mem root v) = _
  rw [walk_link (F := d.format) table.1 table.2]
  rfl

/-- A walk through a region that has a table of pages. -/
theorem Entries.Mapped.walk_table (h1 : d.isLeaf 1 (d.pdeOf mem root v) = false) :
    walk d.format mem (index v) 3 root = d.pageAt
      (mem (d.pdeOf mem root v &&& d.addrMask) (index v 0)) := by
  rw [hm.walk_region hd h3, walk_link (F := d.format) hm.pde h1]
  rfl

/-- A walk through a region that is one leaf. -/
theorem Entries.Mapped.walk_block (h1 : d.isLeaf 1 (d.pdeOf mem root v) = true) :
    walk d.format mem (index v) 3 root = some (1, d.pdeOf mem root v) := by
  rw [hm.walk_region hd h3]
  exact walk_leaf (F := d.format) hm.pde h1

end

/-- The tables of a region depend on its indices only. -/
theorem Entries.Mapped.of_region (hm : d.Mapped mem root v) (hw : region w = region v) :
    d.Mapped mem root w ∧ d.pdptOf mem root w = d.pdptOf mem root v ∧
      d.pdOf mem root w = d.pdOf mem root v ∧
      d.pdeOf mem root w = d.pdeOf mem root v := by
  obtain ⟨i3, i2, i1⟩ := index_of_region hw
  have pdpt : d.pdptOf mem root w = d.pdptOf mem root v := by unfold Entries.pdptOf; rw [i3]
  have pd : d.pdOf mem root w = d.pdOf mem root v := by unfold Entries.pdOf; rw [pdpt, i2]
  have pde : d.pdeOf mem root w = d.pdeOf mem root v := by unfold Entries.pdeOf; rw [pd, i1]
  refine ⟨⟨?_, ?_, ?_⟩, pdpt, pd, pde⟩
  · rw [i3]; exact hm.pml4e
  · rw [pdpt, i2]; exact hm.pdpte
  · rw [pde]; exact hm.pde

section

variable {ω : Type} {O : Owners ω} {leaf link : Place ω → Nat → U64 → Prop}
  {ty : U64 → Option (Place ω)} {m m' : Machine R} {s : ω} {root v e : U64}

section

variable (hd : d.Lawful) (hk : d.Keeps (O.shape 3 leaf link))
  (h : Heap d (O.shape 3 leaf link) ty m) (hroot : ty root = some (O.place s []))

include hd hk h hroot

/-- The places on the way to the 2 MiB region of `v`. -/
theorem Entries.Mapped.places (hm : d.Mapped m.mem root v) :
    ty (d.pdptOf m.mem root v) = some (O.place s [index v 3]) ∧
      ty (d.pdOf m.mem root v) = some (O.place s [index v 3, index v 2]) := by
  have pdpt := pdptOf_typed hk h.typed hroot rfl hm.pml4e
  have pd := pdOf_typed hd hk h.typed hroot rfl hm.pml4e hm.pdpte
  rw [Owners.child_place] at pdpt
  rw [Owners.child_place, Owners.child_place] at pd
  exact ⟨pdpt, pd⟩

theorem Ensured.place (hm : d.Mapped m.mem root v) {pt : U64} {t : Machine R}
    (he : Ensured d root v m pt t) :
    ∃ ty', Grows d (O.shape 3 leaf link) ty m ty' t ∧ ty' pt = some (O.place s (region v)) := by
  obtain ⟨ty', grown, hpt⟩ := he.typed hd hk h hroot rfl hm
  rw [Owners.child_place, Owners.child_place, Owners.child_place] at hpt
  exact ⟨ty', grown, hpt⟩

/-- An edit keeps the typing when the new entry may stand in its place. -/
theorem Edited.typed (he : Edited d root v e m m')
    (hleaf : d.present e = true → leaf (O.place s (region v)) (index v 0) e) :
    ∃ ty', Grows d (O.shape 3 leaf link) ty m ty' m' := by
  refine he.grows hd hk h hroot rfl fun hp => ?_
  rw [Owners.child_place, Owners.child_place, Owners.child_place]
  exact hleaf hp

end

variable {x w : U64} {F : Format U64}

section

variable (hd : d.Lawful) (hk : d.Keeps (O.shape 3 leaf link))
  (h : Heap d (O.shape 3 leaf link) ty m) (hroot : ty root = some (O.place s []))
  (he : Edited d root v e m m')

include hd hk h hroot he

/-- **What an edit changes**: the entry of its page, or that of its region when it is split. -/
theorem Edited.changes {r : Place ω} {i : Nat} (hx : ty x = some r) (hne : m'.mem x i ≠ m.mem x i) :
    (r = O.place s [index v 3, index v 2] ∧ i = index v 1 ∧
      d.isLeaf 1 (d.pdeOf m.mem root v) = true) ∨
      (r = O.place s (region v) ∧ i = index v 0 ∧ d.isLeaf 1 (d.pdeOf m.mem root v) = false) := by
  obtain ⟨hm, pt, t, hens, rfl⟩ := he
  have pd := (hm.places hd hk h hroot).2
  obtain ⟨ty', grown, hpt⟩ := hens.place hd hk h hroot hm
  cases hens with
  | found hl =>
    have hxi : x = d.pdeOf m.mem root v &&& d.addrMask ∧ i = index v 0 := by
      by_contra hc
      exact hne (if_neg hc)
    refine .inr ⟨?_, hxi.2, hl⟩
    rw [← hxi.1] at hpt
    exact Option.some.inj ((grown.keeps h x r hx).symm.trans hpt)
  | @split _ rest hl hs =>
    have hx_pt : x ≠ pt := fun hc => h.not_free hx (by rw [hs, hc]; exact List.mem_cons_self)
    have hxi : x = d.pdOf m.mem root v ∧ i = index v 1 := by
      by_contra hc
      refine hne ?_
      show Mem.set _ pt _ _ x i = _
      rw [Mem.set_table_ne _ hx_pt]
      refine (if_neg hc).trans ?_
      rw [Mem.fill_ne _ hx_pt]
    refine .inl ⟨?_, hxi.2, hl⟩
    rw [← hxi.1] at pd
    exact Option.some.inj (hx.symm.trans pd)

/-- Tables above the one of the region are left alone. -/
theorem Edited.same_above {o : ω} {q : List Nat} (hx : ty x = some (O.place o q))
    (hq : q.length < 2) : m'.mem x = m.mem x := by
  funext i
  by_contra hne
  have path : q = [index v 3, index v 2] ∨ q = region v := by
    rcases he.changes hd hk h hroot hx hne with ⟨hr, _⟩ | ⟨hr, _⟩
    · exact .inl (congrArg Place.path hr)
    · exact .inr (congrArg Place.path hr)
  rcases path with rfl | rfl
  · simp at hq
  · simp [region] at hq

/-- A walk from any root, past what an edit changes.  Whoever walks: `F` is any format the tables
are typed for. -/
theorem Edited.walk_same {t : U64} {s' : ω} (ht : ty t = some (O.place s' []))
    (hpd : O.own s' [index v 3, index v 2] = O.own s [index v 3, index v 2] → region w = region v →
      ¬ d.isLeaf 1 (d.pdeOf m.mem root v) = true)
    (hpt : O.own s' (region v) = O.own s (region v) → path w ≠ path v)
    (hF : Typed F (O.shape 3 leaf link) ty 512 m.mem) :
    walk F m'.mem (index w) 3 t = walk F m.mem (index w) 3 t := by
  refine hF.walk_tree (index_lt w) ht fun x q i hx hq => ?_
  by_contra hne
  rcases he.changes hd hk h hroot hx hne with ⟨hr, rfl, hsplit⟩ | ⟨hr, rfl, _⟩
  · have hq' : q = _ := congrArg Place.path hr
    subst hq'
    exact hpd (congrArg Place.owner hr) (region_of_initial hq) hsplit
  · have hq' : q = _ := congrArg Place.path hr
    subst hq'
    exact hpt (congrArg Place.owner hr) (path_of_initial hq)

/-- **Elsewhere nothing changes**: away from the region, and in it if it had a table. -/
theorem Edited.walk_off
    (hw : region w ≠ region v ∨ (path w ≠ path v ∧ d.isLeaf 1 (d.pdeOf m.mem root v) = false))
    (hF : Typed F (O.shape 3 leaf link) ty 512 m.mem) :
    walk F m'.mem (index w) 3 root = walk F m.mem (index w) 3 root := by
  refine he.walk_same hd hk h hroot hroot (fun _ hreg hsplit => ?_) (fun _ hpath => ?_) hF
  · rcases hw with hw | hw
    · exact hw hreg
    · rw [hw.2] at hsplit
      cases hsplit
  · rcases hw with hw | hw
    · exact hw (region_of_path hpath).1
    · exact hw.1 hpath

/-- The tables down to the region stay where they are. -/
theorem Edited.pdOf_eq :
    m'.mem root = m.mem root ∧ m'.mem (d.pdptOf m.mem root v) = m.mem (d.pdptOf m.mem root v) ∧
      d.pdptOf m'.mem root v = d.pdptOf m.mem root v ∧ d.pdOf m'.mem root v =
        d.pdOf m.mem root v := by
  have rootSame := he.same_above hd hk h hroot hroot (by decide)
  have pdptSame := he.same_above hd hk h hroot (he.1.places hd hk h hroot).1 (by simp)
  have pdpt : d.pdptOf m'.mem root v = d.pdptOf m.mem root v := by
    unfold Entries.pdptOf; rw [rootSame]
  refine ⟨rootSame, pdptSame, pdpt, ?_⟩
  unfold Entries.pdOf
  rw [pdpt, pdptSame]

/-- The region of `v` has a table after the edit. -/
theorem Edited.pde :
    d.present (d.pdeOf m'.mem root v) = true ∧ d.isLeaf 1 (d.pdeOf m'.mem root v) = false ∧
      m'.mem (d.pdeOf m'.mem root v &&& d.addrMask) (index v 0) = e ∧
      (d.isLeaf 1 (d.pdeOf m.mem root v) = true → ∀ k, k < 512 → k ≠ index v 0 →
        m'.mem (d.pdeOf m'.mem root v &&& d.addrMask) k = d.split (d.pdeOf m.mem root v) k) := by
  have pdSame := (he.pdOf_eq hd hk h hroot).2.2.2
  have pdPlace := (he.1.places hd hk h hroot).2
  obtain ⟨hm, pt, t, hens, rfl⟩ := he
  have hpt := (hens.place hd hk h hroot hm).choose_spec
  cases hens with
  | found hl =>
    -- the table of the region is not the one above it
    have away : d.pdOf m.mem root v ≠ d.pdeOf m.mem root v &&& d.addrMask := fun hc => by
      have places := hpt.1.keeps h _ _ pdPlace
      rw [hc, hpt.2] at places
      have paths := congrArg Place.path (Option.some.inj places)
      simp [Owners.place, region] at paths
    have entry : d.pdeOf (m.mem.set (d.pdeOf m.mem root v &&& d.addrMask) (index v 0) e) root v =
      d.pdeOf m.mem root v := by
      show Mem.set _ _ _ _ _ _ = _
      rw [pdSame, Mem.set_table_ne _ away]
      rfl
    rw [entry]
    refine ⟨hm.pde, hl, Mem.set_self .., fun hc => ?_⟩
    rw [hl] at hc
    cases hc
  | @split _ rest hl hs =>
    have frame := (h.allots hs fun _ => 0).frame
    have away : d.pdOf m.mem root v ≠ pt :=
      fun hc => h.not_free pdPlace (by rw [hs, hc]; exact List.mem_cons_self)
    generalize hsplit : (m.mem.fill pt (full (d.split (d.pdeOf m.mem root v)))).set
      (d.pdOf m.mem root v) (index v 1) (pt ||| d.tableBits) = mem1 at pdSame
    have entry : d.pdeOf (mem1.set pt (index v 0) e) root v = pt ||| d.tableBits := by
      show Mem.set _ _ _ _ _ _ = _
      rw [pdSame, Mem.set_table_ne _ away, ← hsplit]
      exact Mem.set_self ..
    have next : (pt ||| d.tableBits) &&& d.addrMask = pt := hd.next_table frame
    rw [entry, next]
    refine ⟨hd.present_table pt frame, hd.isLeaf_table 1 pt frame, Mem.set_self ..,
      fun _ k hk hne => ?_⟩
    show mem1.set pt (index v 0) e pt k = _
    rw [Mem.set_index_ne _ hne, ← hsplit, Mem.set_table_ne _ away.symm, Mem.fill_self,
      full_of_lt _ hk]

/-- It is led to from the same entry as before. -/
theorem Edited.region_link : d.isLeaf 1 (m'.mem (d.pdOf m.mem root v) (index v 1)) = false := by
  have table := (he.pde hd hk h hroot).2.1
  unfold Entries.pdeOf at table
  rw [(he.pdOf_eq hd hk h hroot).2.2.2] at table
  exact table

theorem Edited.mapped : d.Mapped m'.mem root v := by
  obtain ⟨rootSame, pdptSame, pdpt, _⟩ := he.pdOf_eq hd hk h hroot
  refine ⟨?_, ?_, (he.pde hd hk h hroot).1⟩
  · rw [rootSame]; exact he.1.pml4e
  · rw [pdpt, pdptSame]; exact he.1.pdpte

/-- In the region of `v` every walk now ends in its table. -/
theorem Edited.walk_region (hw : region w = region v) :
    walk d.format m'.mem (index w) 3 root = d.pageAt (m'.mem (d.pdeOf m'.mem root v &&& d.addrMask)
      (index w 0)) := by
  obtain ⟨rootSame, _⟩ := he.pdOf_eq hd hk h hroot
  obtain ⟨_, table, _⟩ := he.pde hd hk h hroot
  obtain ⟨mapped, _, _, pdeEq⟩ := (he.mapped hd hk h hroot).of_region hw
  have root_leaf : d.isLeaf 3 (m'.mem root (index w 3)) = false := by
    rw [rootSame, (index_of_region hw).1]
    exact root_entry_link hk h.typed hroot rfl (index_lt v 3) he.1.pml4e
  rw [mapped.walk_table hd root_leaf (by rw [pdeEq]; exact table), pdeEq]

/-- **On the page of `v` a walk finds the new entry.** -/
theorem Edited.walk_page (hw : path w = path v) :
    walk d.format m'.mem (index w) 3 root = d.pageAt e := by
  obtain ⟨hregion, i0⟩ := region_of_path hw
  rw [he.walk_region hd hk h hroot hregion, i0, (he.pde hd hk h hroot).2.2.1]

/-- **A split leaf is seen page by page.** -/
theorem Edited.walk_split (hw : region w = region v) (hne : path w ≠ path v)
    (hl : d.isLeaf 1 (d.pdeOf m.mem root v) = true) :
    walk d.format m'.mem (index w) 3 root = d.pageAt
      (d.split (d.pdeOf m.mem root v) (index w 0)) := by
  have i0 : index w 0 ≠ index v 0 := fun hc => hne (by rw [path_eq, path_eq, hw, hc])
  rw [he.walk_region hd hk h hroot hw, (he.pde hd hk h hroot).2.2.2 hl _ (index_lt w 0) i0]

end

end

end Paging

end Praesidium
