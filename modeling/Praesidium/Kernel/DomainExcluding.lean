import Praesidium.Kernel.KernelSpace
import Praesidium.Kernel.WriteXorExec

/-!
A domain without one page (x86-64, `build_domain_excluding`).

The four tables on the way to the victim's page are copied into fresh frames, each copy leading to
the next one and the last without the page; all other tables are shared with the active space
(`Excluded`).  So a walk from the new root leaves the copies at the first index where its address
and the victim differ, and goes on as in the active space.  Only fresh frames are written, hence

    from the new root     nothing on the victim's page, elsewhere what the active space shows
        (Excluded.view_eq)
    from any other root   what it was
        (Excluded.walk_old)
-/

namespace Praesidium

namespace X86

open Fallible Flags Paging Radix VSpace

/-! ## Fresh frames -/

section

variable {m m0 : Machine Regs}

/-- Only frames of the supply of `m0` are taken and written. -/
structure Fresh (m0 m : Machine Regs) : Prop where
  spends : ∀ t ∈ m.supply, t ∈ m0.supply
  same : ∀ t, t ∉ m0.supply → m.mem t = m0.mem t

theorem Fresh.refl (m : Machine Regs) : Fresh m m := ⟨fun _ h => h, fun _ _ => rfl⟩

theorem Fresh.write (h : Fresh m0 m) {t : U64} (ht : t ∈ m0.supply) (i : Nat) (e : U64) :
    Fresh m0 { m with mem := m.mem.set t i e } where
  spends := h.spends
  same x hx := by
    have hne : x ≠ t := fun hc => hx (hc ▸ ht)
    rw [← h.same x hx]
    exact Mem.set_table_ne _ hne _ _

variable {f : U64} {rest : List U64}

theorem Fresh.take (h : Fresh m0 m) (hs : m.supply = f :: rest) (g : Nat → U64) :
    f ∈ m0.supply ∧ Fresh m0 { m with mem := m.mem.fill f g, supply := rest } := by
  have hf : f ∈ m0.supply := h.spends f (by rw [hs]; exact List.mem_cons_self)
  refine ⟨hf, fun x hx => h.spends x (by rw [hs]; exact List.mem_cons_of_mem f hx), fun x hx => ?_⟩
  have hne : x ≠ f := fun hc => hx (hc ▸ hf)
  rw [← h.same x hx]
  exact Mem.fill_ne _ hne _

/-- A fresh frame is filled with the entries `g`. -/
structure Copied (m0 m : Machine Regs) (g : Nat → U64) (f : U64) (m' : Machine Regs) : Prop where
  supply : m.supply = f :: m'.supply
  regs : m'.regs = m.regs
  mem : m'.mem = m.mem.fill f (full g)
  taken : f ∈ m0.supply
  fresh : Fresh m0 m'

theorem Fresh.copied (h : Fresh m0 m) (hs : m.supply = f :: rest) (g : Nat → U64) :
    Copied m0 m g f { m with mem := m.mem.fill f (full g), supply := rest } :=
  ⟨hs, rfl, rfl, (h.take hs (full g)).1, (h.take hs (full g)).2⟩

/-- A copy of a table that is not fresh. -/
theorem Fresh.cloneTable (h : Fresh m0 m) {orig : U64} (horig : orig ∉ m0.supply) :
    Ends (cloneTable orig) m (Copied m0 m (m0.mem orig)) (fun err _ => err = .outOfFrames ∧
      m.supply = []) := by
  rw [ends_cloneTable]
  refine ⟨fun hs => ⟨rfl, hs⟩, fun f rest hs => ?_⟩
  have hne : orig ≠ f := fun hc => horig (hc ▸ (h.take hs fun _ => 0).1)
  rw [Mem.fill_ne _ hne, h.same orig horig]
  exact h.copied hs _

/-- The entries of the victim's page table. -/
def victimEntries (mem : Mem U64) (e2 : U64) : Nat → U64 :=
  if has e2 HUGE then entries.split e2 else mem (e2 &&& ADDR_MASK)

theorem Fresh.victimTable (h : Fresh m0 m) {e2 : U64}
    (hpt : has e2 HUGE = false → e2 &&& ADDR_MASK ∉ m0.supply) :
    Ends (victimTable e2) m (Copied m0 m (victimEntries m0.mem e2))
      (fun err _ => err = .outOfFrames ∧ m.supply = []) := by
  unfold X86.victimTable victimEntries
  by_cases hleaf : has e2 HUGE = true
  · rw [if_pos hleaf, if_pos hleaf, ends_bind, ends_allocTable]
    refine ⟨fun hs => ⟨rfl, hs⟩, fun f rest hs => ?_⟩
    rw [ends_bind, ends_writeTable, ends_pure]
    simp only [Mem.fill_fill, Mem.fill_self]
    exact h.copied hs _
  · rw [if_neg hleaf, if_neg hleaf]
    exact h.cloneTable (hpt (eq_false_of_ne_true hleaf))

end

/-! ## The tables of the domain -/

/-- The copies on the way to the page of `v`, and the rest of memory. -/
structure Excluded (root v : U64) (m : Machine Regs) (pml4 pdpt pd pt : U64) (m' : Machine Regs) :
    Prop where
  supply : m.supply = pml4 :: pdpt :: pd :: pt :: m'.supply
  regs : m'.regs = m.regs
  same : ∀ t, t ∉ m.supply → m'.mem t = m.mem t
  pml4_entries : ∀ i, i < 512 →
    m'.mem pml4 i = Function.update (m.mem root) (index v 3)
    (entries.moved pdpt (m.mem root (index v 3))) i
  pdpt_entries : ∀ i, i < 512 →
    m'.mem pdpt i = Function.update (m.mem (entries.pdptOf m.mem root v)) (index v 2)
      (entries.moved pd (m.mem (entries.pdptOf m.mem root v) (index v 2))) i
  pd_entries : ∀ i, i < 512 →
    m'.mem pd i = Function.update (m.mem (entries.pdOf m.mem root v)) (index v 1)
    (pt ||| entries.tableBits) i
  pt_entries : ∀ i, i < 512 →
    m'.mem pt i = Function.update (victimEntries m.mem (entries.pdeOf m.mem root v)) (index v 0) 0 i

variable {root v pml4 pdpt pd pt : U64} {m m' : Machine Regs}

theorem Excluded.taken (h : Excluded root v m pml4 pdpt pd pt m') :
    ∀ t ∈ [pml4, pdpt, pd, pt], t ∈ m.supply := fun t ht => by
  rw [h.supply]
  exact List.mem_append_left m'.supply ht

/-- Four tables, made one after the other, and one entry of each replaced once the next is made. -/
theorem copies_mem (mem : Mem U64) {f4 f3 f2 f1 : U64} (nodup : [f4, f3, f2, f1].Nodup)
    (A4 A3 A2 A1 : Nat → U64) (i3 i2 i1 i0 : Nat) (E4 E3 E2 E1 : U64) (made : Mem U64)
    (hmade : made = (((((((mem.fill f4 A4).fill f3 A3).set f4 i3 E4).fill f2 A2).set f3 i2 E3).fill
      f1 A1).set f2 i1 E2).set f1 i0 E1) :
    made f4 = Function.update A4 i3 E4 ∧ made f3 = Function.update A3 i2 E3 ∧
      made f2 = Function.update A2 i1 E2 ∧
      made f1 = Function.update A1 i0 E1 := by
  simp only [List.nodup_cons, List.mem_cons, List.not_mem_nil, or_false, not_or] at nodup
  obtain ⟨⟨n43, n42, n41⟩, ⟨n32, n31⟩, n21, _⟩ := nodup
  subst hmade
  refine ⟨?_, ?_, ?_, ?_⟩
  · rw [Mem.set_table_ne _ n41, Mem.set_table_ne _ n42, Mem.fill_ne _ n41, Mem.set_table_ne _ n43,
      Mem.fill_ne _ n42, Mem.set_table, Mem.fill_ne _ n43, Mem.fill_self]
  · rw [Mem.set_table_ne _ n31, Mem.set_table_ne _ n32, Mem.fill_ne _ n31, Mem.set_table,
      Mem.fill_ne _ n32, Mem.set_table_ne _ (Ne.symm n43), Mem.fill_self]
  · rw [Mem.set_table_ne _ n21, Mem.set_table, Mem.fill_ne _ n21, Mem.set_table_ne _ (Ne.symm n32),
      Mem.fill_self]
  · rw [Mem.set_table, Mem.set_table_ne _ (Ne.symm n21), Mem.fill_self]

section

variable {ρ : Type} {S : Shape U64 ρ} {ty : U64 → Option ρ} {m m' : Machine Regs} {r : ρ}
  {root v : U64}

theorem buildDomainExcluding_spec (hk : entries.Keeps S) (h : Heap entries S ty m)
    (hroot : TypedRoot entries ty m.regs.cr3 r) (hl : S.level r = 3) (victim : U64) :
    Ends (buildDomainExcluding victim) m
      (fun pml4 m' => ∃ pdpt pd pt, Excluded m.regs.cr3 (pageAlign victim) m pml4 pdpt pd pt m')
      (fun err _ => (err = .assertion ∧ ¬ entries.Mapped m.mem m.regs.cr3 (pageAlign victim)) ∨
        (err = .outOfFrames ∧ m.supply.length < 4)) := by
  have frame : m.regs.cr3 &&& ADDR_MASK = m.regs.cr3 := hroot.frame
  have nodup := h.nodup
  unfold buildDomainExcluding currentPml4 idx
  generalize pageAlign victim = v
  generalize hcr3 : m.regs.cr3 = root at hroot frame ⊢
  rw [ends_bind, ends_bind, ends_get, ends_pure, hcr3, frame, ends_bind]
  -- the root
  have hpml4 := h.not_free hroot.role
  refine ((Fresh.refl m).cloneTable hpml4).imp (fun f4 m1 c1 => ?_) (fun _ _ he =>
    .inr ⟨he.1, by rw [he.2]; decide⟩)
  have s1 := c1.supply
  rw [ends_bind, ends_readEntry, c1.fresh.same root hpml4, ends_bind, ends_assertThat]
  refine ⟨fun h4 => .inl ⟨rfl, fun hc => Bool.false_ne_true (h4.symm.trans hc.pml4e)⟩, fun h4 => ?_⟩
  -- the table under it
  have hpdpt : entries.pdptOf m.mem root v ∉ m.supply :=
    h.not_free (pdptOf_typed hk h.typed hroot.role hl h4)
  rw [ends_bind]
  refine (c1.fresh.cloneTable hpdpt).imp (fun f3 m2 c2 => ?_) (fun _ _ he =>
    .inr ⟨he.1, by simp [s1, he.2]⟩)
  have s2 := c2.supply
  have linked2 := c2.fresh.write c1.taken (index v 3) (entries.moved f3 (m.mem root (index v 3)))
  rw [ends_bind, ends_writeEntry]
  change Ends (readEntry (entries.pdptOf m.mem root v) (index v 2) >>= _)
    { m2 with mem := m2.mem.set f4 (index v 3) (entries.moved f3 (m.mem root (index v 3))) } _ _
  rw [ends_bind, ends_readEntry, linked2.same _ hpdpt, ends_bind, ends_assertThat]
  refine ⟨fun h3 => .inl ⟨rfl, fun hc => Bool.false_ne_true (h3.symm.trans hc.pdpte)⟩, fun h3 => ?_⟩
  -- the table of the gibibyte
  have hpd : entries.pdOf m.mem root v ∉ m.supply :=
    h.not_free (pdOf_typed lawful hk h.typed hroot.role hl h4 h3)
  rw [ends_bind]
  refine (linked2.cloneTable hpd).imp (fun f2 m3 c3 => ?_)
    (fun _ _ he => .inr ⟨he.1, by simp [s1, s2, show m2.supply = [] from he.2]⟩)
  have s3 : m2.supply = f2 :: m3.supply := c3.supply
  have linked3 := c3.fresh.write c2.taken (index v 2)
    (entries.moved f2 (m.mem (entries.pdptOf m.mem root v) (index v 2)))
  rw [ends_bind, ends_writeEntry]
  change Ends (readEntry (entries.pdOf m.mem root v) (index v 1) >>= _)
    { m3 with mem := m3.mem.set f3 (index v 2) (entries.moved f2 (m.mem
      (entries.pdptOf m.mem root v) (index v 2))) } _ _
  rw [ends_bind, ends_readEntry, linked3.same _ hpd, ends_bind, ends_assertThat]
  refine ⟨fun h2 => .inl ⟨rfl, fun hc => Bool.false_ne_true (h2.symm.trans hc.pde)⟩, fun h2 => ?_⟩
  -- the table of pages
  have hpt : has (entries.pdeOf m.mem root v) HUGE = false →
    entries.pdeOf m.mem root v &&& ADDR_MASK ∉ m.supply := by
    intro hleaf
    have lev := level_pd (S := S) hl (index v 3) (index v 2)
    have fits2 := h.typed _ _ (pdOf_typed lawful hk h.typed hroot.role hl h4 h3) _ (index_lt v 1)
    exact h.not_free (fits2.link h2 (by omega) (by rw [lev]; exact hleaf)).2
  rw [ends_bind]
  refine (linked3.victimTable hpt).imp (fun f1 m4 c4 => ?_)
    (fun _ _ he => .inr ⟨he.1, by simp [s1, s2, s3, show m3.supply = [] from he.2]⟩)
  have s4 : m3.supply = f1 :: m4.supply := c4.supply
  have table : f1 ||| PRESENT ||| WRITABLE = f1 ||| entries.tableBits := BitVec.or_assoc ..
  rw [ends_bind, ends_writeEntry, ends_bind, ends_writeEntry, ends_pure, table]
  have linked4 := (c4.fresh.write c3.taken (index v 1) (f1 ||| entries.tableBits)).write c4.taken
    (index v 0) 0
  have supply : m.supply = [f4, f3, f2, f1] ++ m4.supply := by rw [s1, s2, s3, s4]; rfl
  have distinct : [f4, f3, f2, f1].Nodup := (List.nodup_append.mp (supply ▸ nodup)).1
  have mem3 : m3.mem = (m2.mem.set f4 (index v 3) (entries.moved f3 (m.mem root (index v 3)))).fill
    f2 (full (m.mem (entries.pdOf m.mem root v))) := c3.mem
  have mem4 : m4.mem = (m3.mem.set f3 (index v 2)
    (entries.moved f2 (m.mem (entries.pdptOf m.mem root v) (index v 2)))).fill f1
      (full (victimEntries m.mem (entries.pdeOf m.mem root v))) := c4.mem
  obtain ⟨pml4, pdpt, pd, pt⟩ := copies_mem m.mem distinct _ _ _ _ _ _ _ _ _ _ _ _
    ((m4.mem.set f2 (index v 1) (f1 ||| entries.tableBits)).set f1 (index v 0) 0)
    (by rw [mem4, mem3, c2.mem, c1.mem])
  refine ⟨f3, f2, f1, supply, ?_, linked4.same, fun i hi => ?_, fun i hi => ?_, fun i hi =>
    ?_, fun i hi => ?_⟩
  · exact (c4.regs.trans c3.regs).trans (c2.regs.trans c1.regs)
  · exact (congrFun pml4 i).trans (update_full _ _ _ hi)
  · exact (congrFun pdpt i).trans (update_full _ _ _ hi)
  · exact (congrFun pd i).trans (update_full _ _ _ hi)
  · exact (congrFun pt i).trans (update_full _ _ _ hi)

/-! ## Walks -/

variable {pml4 pdpt pd pt : U64}

variable {t t' e w : U64} {n : Nat}

/-- On the way, it leads to the next copy. -/
theorem walk_moved {f : U64} (hf : entries.IsFrame f)
    (he : m'.mem t' (index w (n + 1)) = entries.moved f e) (present : entries.present e = true)
    (hleaf : entries.isLeaf (n + 1) e = false) :
    Radix.walk entries.format m'.mem (index w) (n + 1) t' = Radix.walk entries.format m'.mem
      (index w) n f := by
  have present' : entries.format.present (m'.mem t' (index w (n + 1))) = true := by
    rw [he]
    exact (lawful.present_moved f e hf).trans present
  have link' : entries.format.isLeaf (n + 1) (m'.mem t' (index w (n + 1))) = false := by
    rw [he]
    exact (lawful.isLeaf_moved _ f e hf).trans hleaf
  rw [walk_link present' link', he, Entries.next_moved hf]

section

variable (he : Excluded root v m pml4 pdpt pd pt m')

include he

/-- **Tables in use are left alone.** -/
theorem Excluded.walk_old (h : Heap entries S ty m) {r : ρ} (ht : ty t = some r)
    (hn : S.level r = n) (w : U64) :
    Radix.walk entries.format m'.mem (index w) n t = Radix.walk entries.format m.mem
      (index w) n t :=
  h.typed.walk_like (index_lt w) ht hn fun t' _ i hr' _ =>
  .inl (congrFun (he.same t' (h.not_free hr')) i)

/-- Away from the way to the page, a copy leads where the original leads. -/
theorem Excluded.walk_beside (h : Heap entries S ty m) {r : ρ} (ht : ty t = some r)
    (hn : S.level r = n + 1)
    (hcopy : m'.mem t' (index w (n + 1)) = Function.update (m.mem t) (index v (n + 1)) e
    (index w (n + 1)))
    (hne : index w (n + 1) ≠ index v (n + 1)) :
    Radix.walk entries.format m'.mem (index w) (n + 1) t' = Radix.walk entries.format m.mem
      (index w) (n + 1) t := by
  rw [Function.update_of_ne hne] at hcopy
  refine walk_same_entry hcopy fun present hleaf => ?_
  have link :=
    (h.typed t r ht _ (index_lt w (n + 1))).link present (by omega) (by rw [hn]; exact hleaf)
  have lev := S.level_child r (index w (n + 1)) (by omega)
  exact he.walk_old h link.2 (by omega) w

/-- In the region of the victim, the copies show what the active space shows, but for the page. -/
theorem Excluded.view_region (hpt : entries.IsFrame pt)
    (present : entries.present (entries.pdeOf m.mem root v) = true) (h1 : index w 1 = index v 1) :
    entries.leafView access w (Radix.walk entries.format m'.mem (index w) 1 pd) =
      if index w 0 = index v 0 then none
      else entries.leafView access w (Radix.walk entries.format m.mem (index w) 1
        (entries.pdOf m.mem root v)) := by
  have entry : m'.mem pd (index w 1) = pt ||| entries.tableBits := by
    rw [he.pd_entries _ (index_lt w 1), h1, Function.update_self]
  have old : m.mem (entries.pdOf m.mem root v) (index w 1) = entries.pdeOf m.mem root v := by
    rw [h1]; rfl
  rw [walk_table lawful hpt entry]
  show entries.leafView access w (entries.pageAt (m'.mem pt (index w 0))) = _
  rw [he.pt_entries _ (index_lt w 0)]
  by_cases h0 : index w 0 = index v 0
  · rw [if_pos h0, h0, Function.update_self, lawful.pageAt_zero]
    rfl
  rw [if_neg h0, Function.update_of_ne h0]
  unfold victimEntries
  by_cases hleaf : has (entries.pdeOf m.mem root v) HUGE = true
  · rw [if_pos hleaf, reads.view_split present,
      walk_leaf (by rw [old]; exact present) (by rw [old]; exact hleaf), old]
  · rw [if_neg hleaf, walk_link (by rw [old]; exact present)
      (by rw [old]; exact eq_false_of_ne_true hleaf), old]
    rfl

/-- **The new root shows what the active one shows, but for the victim's page.** -/
theorem Excluded.view_eq (hk : entries.Keeps S) (h : Heap entries S ty m) (hroot : ty root = some r)
    (hl : S.level r = 3) (hm : entries.Mapped m.mem root v) (w : U64) :
    view m'.mem pml4 w = if path w = path v then none else view m.mem root w := by
  have frame : ∀ t ∈ [pml4, pdpt, pd, pt], entries.IsFrame t :=
    fun t ht => h.frame t (he.taken t ht)
  have table := hm.pdpte
  rw [lawful.isTable_eq 2 _ (.inr rfl), Bool.and_eq_true, Bool.not_eq_true'] at table
  have lev2 := S.level_child r (index v 3) (by omega)
  have pdptTyped := pdptOf_typed hk h.typed hroot hl hm.pml4e
  have pdTyped := pdOf_typed lawful hk h.typed hroot hl hm.pml4e hm.pdpte
  unfold view Entries.view
  -- the walk leaves the copies at the first index that differs
  by_cases h3 : index w 3 = index v 3
  case neg =>
    rw [if_neg fun hc => h3 (index_of_region (region_of_path hc).1).1,
      he.walk_beside h hroot hl (he.pml4_entries _ (index_lt w 3)) h3]
  rw [walk_moved (frame pdpt (by simp))
    (by rw [he.pml4_entries _ (index_lt w 3), h3, Function.update_self]) hm.pml4e rfl,
    walk_link (t := root) (by rw [h3]; exact hm.pml4e) rfl, h3]
  change entries.leafView access w (Radix.walk entries.format m'.mem (index w) 2 pdpt) = if path w =
    path v then none else entries.leafView access w (Radix.walk entries.format m.mem (index w) 2
    (entries.pdptOf m.mem root v))
  by_cases h2 : index w 2 = index v 2
  case neg =>
    rw [if_neg fun hc => h2 (index_of_region (region_of_path hc).1).2.1,
      he.walk_beside h pdptTyped (by omega) (he.pdpt_entries _ (index_lt w 2)) h2]
  rw [walk_moved (frame pd (by simp))
    (by rw [he.pdpt_entries _ (index_lt w 2), h2, Function.update_self]) table.1 table.2,
    walk_link (t := entries.pdptOf m.mem root v) (by rw [h2]; exact table.1)
    (by rw [h2]; exact table.2), h2]
  change entries.leafView access w (Radix.walk entries.format m'.mem (index w) 1 pd) = if path w =
    path v then none else entries.leafView access w (Radix.walk entries.format m.mem (index w) 1
    (entries.pdOf m.mem root v))
  by_cases h1 : index w 1 = index v 1
  case neg =>
    rw [if_neg fun hc => h1 (index_of_region (region_of_path hc).1).2.2,
      he.walk_beside h pdTyped (level_pd hl _ _) (he.pd_entries _ (index_lt w 1)) h1]
  have page : index w 0 = index v 0 ↔ path w = path v := by
    have same : region w = region v := by rw [region, region, h3, h2, h1]
    exact ⟨fun h0 => by rw [path_eq, path_eq, same, h0], fun hc => (region_of_path hc).2⟩
  rw [he.view_region (frame pt (by simp)) hm.pde h1]
  simp only [page]

end

end

/-! ## The domain -/

/-- A root that was in use is walked as before. -/
theorem Excluded.walkFrom_old {lv : U64 → Option Nat} {t : U64}
    (he : Excluded root v m pml4 pdpt pd pt m') (h : Heap entries backend.shape lv m)
    (ht : TypedRoot entries lv t 3) (w : U64) :
    walkFrom m'.mem (t &&& ADDR_MASK) w = walkFrom m.mem (t &&& ADDR_MASK) w := by
  have frame : t &&& ADDR_MASK = t := ht.frame
  rw [frame, walkFrom_eq, walkFrom_eq]
  exact congrArg (Option.map _) (he.walk_old (n := 3) h ht.role rfl w)

/-- **A domain without the victim's page.**  From `setup_kernel_paging` on, through any calls and
with any space active: where the region of the victim is mapped below a table,
as one leaf or page by
page, `build_domain_excluding` returns a root that shows, outside the victim's page, what the active
root shows, and on the page nothing; the active root and every space built so far are walked as
before.  It fails only when there are fewer than four frames left.  On canonical addresses, pages
are the pages of 4 KiB. -/
theorem domain_excludes_victim (km : KernelMap) (hkm : km.Admitted) (m : Machine Regs)
    (hm : backend.Supplied m) (s t : backend.State) (tr : List VSpace.Event)
    (hboot : backend.Boots km m s) (hrun : Run backend.Step s tr t) (victim : U64)
    (hmapped : entries.Mapped t.machine.mem (t.machine.regs.cr3 &&& ADDR_MASK) victim) :
    Ends (buildDomainExcluding victim) t.machine
      (fun root m' =>
        (∀ w, pageNumber w ≠ pageNumber victim →
          translate (inSpace m' ⟨root, 0⟩) w = translate t.machine w ∧
          pageProt (inSpace m' ⟨root, 0⟩) w = pageProt t.machine w) ∧
        (∀ w, pageNumber w = pageNumber victim → walk (inSpace m' ⟨root, 0⟩) w = none) ∧
        (∀ w, walk m' w = walk t.machine w) ∧
        ∀ space ∈ t.spaces, ∀ w, walk (inSpace m' space) w = walk (inSpace t.machine space) w)
      (fun err _ => err = .outOfFrames ∧ t.machine.supply.length < 4) ∧
    ∀ w, Canonical victim → Canonical w →
      (pageNumber w = pageNumber victim ↔ pageAlign w = pageAlign victim) := by
  refine ⟨?_, fun w hv hw => pageNumber_eq_iff hv hw⟩
  obtain ⟨lv, rooted⟩ := typed.run hkm hm hboot hrun
  have heap := rooted.heap
  have root := rooted.regs (t.machine.regs.cr3, false) List.mem_cons_self
  have cr3 : t.machine.regs.cr3 &&& ADDR_MASK = t.machine.regs.cr3 := root.frame
  rw [cr3] at hmapped
  have mapped := (hmapped.of_region (region_of_path (path_pageAlign victim)).1).1
  refine (buildDomainExcluding_spec keeps heap root rfl victim).imp (fun pml4 m' hQ => ?_)
    (fun _ _ he => he.resolve_left fun hc => hc.2 mapped)
  obtain ⟨pdpt, pd, pt, excluded⟩ := hQ
  have frame : pml4 &&& ADDR_MASK = pml4 := heap.frame pml4 (excluded.taken pml4 (by simp))
  have views := fun w => excluded.view_eq keeps heap root.role rfl mapped w
  simp only [path_pageAlign, path_eq_iff] at views
  have active := fun w => walk_view t.machine w
  rw [cr3] at active
  have shown : ∀ w, translate (inSpace m' ⟨pml4, 0⟩) w = (view m'.mem pml4 w).map Prod.fst ∧
      pageProt (inSpace m' ⟨pml4, 0⟩) w = (view m'.mem pml4 w).map Prod.snd := fun w => by
    have reading := walk_view (inSpace m' ⟨pml4, 0⟩) w
    change translate _ w = (view m'.mem (pml4 &&& ADDR_MASK) w).map Prod.fst ∧
      pageProt _ w = (view m'.mem (pml4 &&& ADDR_MASK) w).map Prod.snd at reading
    rw [frame] at reading
    exact reading
  refine ⟨fun w hw => ?_, fun w hw => ?_, fun w => ?_, fun space hspace w => ?_⟩
  · rw [(shown w).1, (shown w).2, views w, if_neg hw, (active w).1, (active w).2]
    exact ⟨rfl, rfl⟩
  · have absent : view m'.mem pml4 w = none := by rw [views w, if_pos hw]
    show walkFrom m'.mem (pml4 &&& ADDR_MASK) w = none
    rw [frame, walkFrom_eq, Entries.walkFrom, Option.map_eq_none_iff.mp absent]
    rfl
  · show walkFrom m'.mem (m'.regs.cr3 &&& ADDR_MASK) w = walkFrom t.machine.mem
      (t.machine.regs.cr3 &&& ADDR_MASK) w
    rw [excluded.regs]
    exact excluded.walkFrom_old heap root w
  · exact excluded.walkFrom_old heap (rooted.spaces space hspace (space.primary,
      false) List.mem_cons_self) w

/-- The first page of the second gibibyte, after boot. -/
theorem domain_excludes_victim_plain :
    ∃ (s : backend.State) (root : U64) (m' : Machine Regs),
    backend.Boots plainMap plainMachine s ∧ buildDomainExcluding 0x40000000 s.machine = .ok
      root m' ∧
      walk (inSpace m' ⟨root, 0⟩) 0x40000234 = none ∧
      translate (inSpace m' ⟨root, 0⟩) 0x40001234 = translate s.machine 0x40001234 ∧
      walk m' 0x40000234 = walk s.machine 0x40000234 := by
  obtain ⟨space, m1, hbuild, frame, mapped, left⟩ := plain_built
  have boots := backend.boots_of_build hbuild rfl
  have domain :=
    (domain_excludes_victim plainMap plainMap_admitted _ plainMachine_supplied _ _ [] boots (.nil _)
    0x40000000 (by rw [← frame] at mapped; exact mapped)).1
  obtain ⟨root, m', he, other, page, active, _⟩ :=
    domain.returns fun _ _ hc => absurd left (Nat.not_le.mpr hc.2)
  exact ⟨_, root, m', boots, he, page _ (by decide), (other _ (by decide)).1, active _⟩


end X86

end Praesidium
