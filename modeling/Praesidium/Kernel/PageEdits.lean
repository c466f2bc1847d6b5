import Praesidium.Kernel.BackendsAgree

/-!
Page edits are local.

A table is reached from the roots of its half at one place only, however many spaces share it:
every table is entered at its own place, and a copy takes the place of the original.  So the
tables are typed by their paths (`pathShape`), through every run, and an edit of the page of `v`
in the active space is seen

    at the addresses of that page, as the edit says      (LocalEdit.page)
    nowhere else                                         (LocalEdit.rest)

also when it splits a 2 MiB leaf, or lets ring 3 through to the tables above the page.
-/

namespace Praesidium

open Fallible Flags Paging Radix VSpace

/-! ## Tables by their paths -/

namespace Paging

/-- Roles are paths, under the roots of either half.  There are no leaves in a root. -/
abbrev pathShape : Shape U64 (Place Bool) :=
  (Owners.flat Bool).shape 3 (fun r _ _ => r.path ≠ []) fun _ _ _ => True

abbrev halfRole (s : Bool) : Place Bool := (Owners.flat Bool).place s []

theorem path_of_level {r : Place Bool} (h : pathShape.level r ≠ 3) : r.path ≠ [] := fun hc => h (by
  show 3 - r.path.length = 3
  rw [hc]
  rfl)

theorem pathKeeps (d : Entries) : d.Keeps pathShape := d.keeps_owners (.flat Bool)

/-! ## Local edits -/

/-- `translate` and `page_prot` before and after an edit of one page, which then holds a frame with
a protection or nothing.  `mask` is for the bits of a physical address that an entry holds. -/
structure LocalEdit (mask : U64) (onPage : U64 → Prop) (page : Option (U64 × Prot))
    (translate translate' : U64 → Option U64)
    (pageProt pageProt' : U64 → Option (Bool × Bool)) : Prop where
  page : ∀ w, onPage w → translate' w = page.map (fun p => (p.1 &&& mask) + (w &&& 0xfff)) ∧
    pageProt' w = page.map fun p => p.2.access
  rest : ∀ w, ¬ onPage w → translate' w = translate w ∧ pageProt' w = pageProt w

theorem LocalEdit.of_views {mask : U64} {onPage : U64 → Prop} {page : Option (U64 × Prot)}
    {translate translate' : U64 → Option U64} {pageProt pageProt' : U64 → Option (Bool × Bool)}
    {view view' : U64 → Option (U64 × (Bool × Bool))}
    (hv : ∀ w, translate w = (view w).map Prod.fst ∧ pageProt w = (view w).map Prod.snd)
    (hv' : ∀ w, translate' w = (view' w).map Prod.fst ∧ pageProt' w = (view' w).map Prod.snd)
    (hpage : ∀ w, onPage w → view' w = page.bind fun p => framePage mask p.1 p.2 w)
    (hrest : ∀ w, ¬ onPage w → view' w = view w) :
    LocalEdit mask onPage page translate translate' pageProt pageProt' where
  page w hw := by
    rw [(hv' w).1, (hv' w).2, hpage w hw]
    cases page with
    | none => exact ⟨rfl, rfl⟩
    | some p => exact ⟨rfl, rfl⟩
  rest w hw := by
    rw [(hv' w).1, (hv' w).2, hrest w hw, (hv w).1, (hv w).2]
    exact ⟨rfl, rfl⟩

/-- The only way a call ends without an edit: it needs a table and there is no frame left. -/
def OutOfFrames {R : Type} (m : Machine R) (err : Halt) (_ : Machine R) : Prop :=
  err = .outOfFrames ∧ m.supply = []

theorem Entries.Mapped.pageAlign {d : Entries} {mem : Mem U64} {root v : U64}
    (hm : d.Mapped mem root v) : d.Mapped mem root (pageAlign v) :=
  (hm.of_region (region_of_path (path_pageAlign v)).1).1

end Paging

/-! ## x86-64 -/

namespace X86

/-- What an edit of the page of `v` does in the active space. -/
abbrev LocalAt (v : U64) (page : Option (U64 × Prot)) (m m' : Machine Regs) : Prop :=
  LocalEdit ADDR_MASK (fun w => pageNumber w = pageNumber v) page (translate m) (translate m')
    (pageProt m) (pageProt m')

structure EditsLocal (v : U64) (m : Machine Regs) : Prop where
  guard : Ends (installGuardPage v) m (fun _ m' => LocalAt v none m m') (OutOfFrames m)
  page : ∀ pa prot, Ends (mapPage v pa prot) m (fun _ m' => LocalAt v (some (pa, prot)) m m')
    (OutOfFrames m)
  userPage : ∀ pa prot domain,
    Ends (mapUserPage v pa prot domain) m (fun _ m' => LocalAt v (some (pa, prot)) m m')
    (OutOfFrames m)

theorem pathPermits : Permits pathShape where
  keeps := pathKeeps entries
  block _ _ _ hl := path_of_level (by rw [hl]; decide)
  page _ _ _ _ hl _ := path_of_level (by rw [hl]; decide)
  userPage _ _ _ _ _ hl := path_of_level (by rw [hl]; decide)
  leaf_user _ _ _ h := h
  link_user _ _ _ _ := trivial

section

variable {ty : U64 → Option (Place Bool)} {m m' : Machine Regs} {s : Bool} {root v e : U64}
  {page : Option (U64 × Prot)}

theorem localAt_of_view (hcr3 : m.regs.cr3 &&& ADDR_MASK = root) (hregs : m'.regs = m.regs)
    (hpage : ∀ w, path w = path v → view m'.mem root w = page.bind fun p =>
      framePage ADDR_MASK p.1 p.2 w)
    (hrest : ∀ w, path w ≠ path v → view m'.mem root w = view m.mem root w) :
    LocalAt v page m m' := by
  have hview : ∀ w, translate m w = (view m.mem root w).map Prod.fst ∧
    pageProt m w = (view m.mem root w).map Prod.snd := by
    intro w
    rw [← hcr3]
    exact walk_view m w
  have hview' : ∀ w, translate m' w = (view m'.mem root w).map Prod.fst ∧
      pageProt m' w = (view m'.mem root w).map Prod.snd := by
    intro w
    rw [← hcr3, ← hregs]
    exact walk_view m' w
  refine .of_views hview hview' (fun w hw => ?_) fun w hw => ?_
  · exact hpage w ((path_eq_iff w v).mpr hw)
  · exact hrest w fun hc => hw ((path_eq_iff w v).mp hc)

theorem localAt_of_edited (h : Heap entries pathShape ty m) (hroot : ty root = some (halfRole s))
    (hcr3 : m.regs.cr3 &&& ADDR_MASK = root) (he : Edited entries root (pageAlign v) e m m')
    (hpage : ∀ w, entries.leafView access w (entries.pageAt e) = page.bind fun p =>
      framePage ADDR_MASK p.1 p.2 w) : LocalAt v page m m' := by
  refine localAt_of_view hcr3 he.regs (fun w hw => ?_) (fun w hw => ?_)
  · rw [← path_pageAlign v] at hw
    exact (he.view_page lawful (pathKeeps entries) h hroot hw).trans (hpage w)
  · rw [← path_pageAlign v] at hw
    exact he.view_rest lawful (pathKeeps entries) h hroot reads hw

/-- **A page for ring 3 is an edit like any other**: the kernel sees no `USER` above it. -/
theorem UserMapped.view_eq (h : Heap entries pathShape ty m) (hroot : ty root = some (halfRole s))
    (hu : UserMapped root v e m m') (w : U64) :
    (path w = path v → view m'.mem root w = entries.leafView access w (entries.pageAt e)) ∧
      (path w ≠ path v → view m'.mem root w = view m.mem root w) := by
  obtain ⟨hm, m1, he, rfl⟩ := hu
  have apart := (tiered (pathKeeps entries) h hroot rfl v).apart hm.pml4e hm.pdpte
  have places := hm.places lawful (pathKeeps entries) h hroot
  -- the root and the table under it
  have g1 := grant_grows pathPermits h root (index_lt v 3)
  have g2 := granted_grows pathPermits h root v
  have entry : (grant m root (index v 3)).mem (entries.pdptOf m.mem root v) (index v 2) =
      m.mem (entries.pdptOf m.mem root v) (index v 2) := grant_of_ne _ fun hc => apart.pdpt hc.1
  have view1 := grant_view h hroot (root_link _) hroot rfl w (i := index v 3)
  have view2 : view (granted root v m).mem root w = view (grant m root (index v 3)).mem root w := by
    refine grant_view g1.heap places.1 ?_ hroot rfl w
    rw [entry]
    exact pdpt_link hm
  -- the page
  have keeps := pathKeeps entries
  obtain ⟨ty', g3⟩ := he.grows lawful keeps g2.heap hroot rfl fun _ =>
    path_of_level (by rw [level_pt (S := pathShape) rfl]; decide)
  -- the table of its region
  have view3 : view (grant m1 (entries.pdOf m.mem root v) (index v 1)).mem root w =
    view m1.mem root w := by
    have table := he.region_link lawful keeps g2.heap hroot
    rw [(granted_tables apart).2.1] at table
    refine grant_view g3.heap (g3.keeps g2.heap _ _ places.2) ?_ (g3.keeps g2.heap _ _ hroot) rfl w
    rintro (hc | hc)
    · cases hc
    · exact absurd hc (by show ¬ entries.isLeaf 1 _ = true; rw [table]; decide)
  refine ⟨fun hw => ?_, fun hw => ?_⟩
  · rw [view3]
    exact he.view_page lawful keeps g2.heap hroot hw
  · rw [view3, ← view1, ← view2]
    exact he.view_rest lawful keeps g2.heap hroot reads hw

theorem editsLocal (h : Heap entries pathShape ty m)
    (hroot : TypedRoot entries ty m.regs.cr3 (halfRole s))
    (hm : entries.Mapped m.mem (m.regs.cr3 &&& ADDR_MASK) v) : EditsLocal v m := by
  have frame : m.regs.cr3 &&& ADDR_MASK = m.regs.cr3 := hroot.frame
  rw [frame] at hm
  have mapped := hm.pageAlign
  constructor
  case guard =>
    refine (installGuardPage_spec frame v).imp (fun _ m' he => ?_) (fun _ _ he =>
      he.resolve_left fun hc => hc.2 mapped)
    refine localAt_of_edited h hroot.role frame he fun w => ?_
    rw [lawful.pageAt_zero]
    rfl
  case page =>
    intro pa prot
    refine (mapPage_spec frame v pa prot).imp (fun _ m' he => ?_) (fun _ _ he =>
      he.resolve_left fun hc => hc.2 mapped)
    exact localAt_of_edited h hroot.role frame he fun w =>
      reads.view_page (entries.isFrame_next pa) prot w
  case userPage =>
    intro pa prot domain
    have tiers := tiered (pathKeeps entries) h hroot.role rfl (pageAlign v)
    refine (mapUserPage_tiered v pa prot domain tiers frame).imp (fun _ m' hu => ?_)
      (fun _ _ he => he.resolve_left fun hc => hc.2 mapped)
    have views := hu.view_eq h hroot.role
    rw [path_pageAlign] at views
    refine localAt_of_view frame hu.regs (fun w hw => ?_) fun w hw => (views w).2 hw
    exact ((views w).1 hw).trans (view_userLeaf pa prot domain w)

end

end X86

/-! ## aarch64 -/

namespace Aarch64

/-- One page of one half. -/
def SamePage (w v : U64) : Prop := has w (1 <<< 63) = has v (1 <<< 63) ∧ pageNumber w = pageNumber v

/-- What an edit of the page of `v` does in the active space. -/
abbrev LocalAt (v : U64) (page : Option (U64 × Prot)) (m m' : Machine Regs) : Prop :=
  LocalEdit ADDR_MASK (fun w => SamePage w v) page (translate m) (translate m') (pageProt m)
    (pageProt m')

structure EditsLocal (v : U64) (m : Machine Regs) : Prop where
  /-- alone, making sure of the table is not seen anywhere -/
  ensure : Ends (ensureL3Table v) m
    (fun _ m' => ∀ w, translate m' w = translate m w ∧ pageProt m' w = pageProt m w) (OutOfFrames m)
  guard : Ends (installGuardPage v) m (fun _ m' => LocalAt v none m m') (OutOfFrames m)
  page : ∀ pa prot, Ends (mapPage v pa prot) m (fun _ m' => LocalAt v (some (pa, prot)) m m')
    (OutOfFrames m)

theorem pathPermits : Permits pathShape where
  keeps := pathKeeps entries
  block _ _ _ hl := path_of_level (by rw [hl]; decide)
  page _ _ _ _ hl := path_of_level (by rw [hl]; decide)
  userPage _ _ _ _ _ hl := path_of_level (by rw [hl]; decide)
  tagged _ _ _ hl := path_of_level (by rw [hl]; decide)

theorem top_pageAlign (v : U64) : has (pageAlign v) (1 <<< 63) = has v (1 <<< 63) :=
  has_keep v (by decide)

theorem rootFor_congr (regs : Regs) {v w : U64} (h : has w (1 <<< 63) = has v (1 <<< 63)) :
    rootFor regs w = rootFor regs v := by
  unfold rootFor
  rw [h]

section

variable {ty : U64 → Option (Place Bool)} {m m' : Machine Regs} {v e : U64}
  {page : Option (U64 × Prot)}

section

variable (h : Heap entries pathShape ty m)
  (hregs : ∀ p ∈ halves.regs m.regs, TypedRoot entries ty p.1 (halfRole p.2))

include h hregs

theorem localAt_of_edited (he : Edited entries (rootFor m.regs v) (pageAlign v) e m m')
    (hpage : ∀ w, entries.leafView access w (entries.pageAt e) = page.bind fun p =>
      framePage ADDR_MASK p.1 p.2 w) : LocalAt v page m m' := by
  have hroot := rootFor_role hregs v
  have hview' : ∀ w, translate m' w = (view m'.mem (rootFor m.regs w) w).map Prod.fst ∧
      pageProt m' w = (view m'.mem (rootFor m.regs w) w).map Prod.snd := by
    intro w
    rw [← he.regs]
    exact walk_view m' w
  refine .of_views (walk_view m) hview' (fun w hw => ?_) fun w hw => ?_
  · have hpath : path w = path (pageAlign v) := by
      rw [path_pageAlign]
      exact (path_eq_iff w v).mpr hw.2
    rw [rootFor_congr m.regs hw.1]
    exact (he.view_page lawful (pathKeeps entries) h hroot hpath).trans (hpage w)
  · by_cases hhalf : has w (1 <<< 63) = has v (1 <<< 63)
    · have hpath : path w ≠ path (pageAlign v) := fun hc => by
        rw [path_pageAlign] at hc
        exact hw ⟨hhalf, (path_eq_iff w v).mp hc⟩
      rw [rootFor_congr m.regs hhalf]
      exact he.view_rest lawful (pathKeeps entries) h hroot reads hpath
    · exact he.view_other lawful (pathKeeps entries) h hroot (rootFor_role hregs w) (fun _ =>
        hhalf) w

theorem ensureL3Table_local (hm : entries.Mapped m.mem (rootFor m.regs v) v) :
    Ends (ensureL3Table v) m (fun _ m' => ∀ w, translate m' w = translate m w ∧
      pageProt m' w = pageProt m w)
      (OutOfFrames m) := by
  unfold ensureL3Table currentRoot
  rw [ends_bind, ends_bind, ends_get, ends_pure]
  refine (ensureTable_spec entries (rootFor m.regs v) v m).imp (fun pt m' hQ w => ?_)
    (fun _ _ he => he.resolve_left fun hc => hc.2 hm)
  obtain ⟨_, he⟩ := hQ
  have same : view m'.mem (rootFor m.regs w) w = view m.mem (rootFor m.regs w) w := by
    refine he.view_eq lawful (pathKeeps entries) h (rootFor_role hregs v) reads hm
      (rootFor_role hregs w) ?_ w
    by_cases hhalf : has w (1 <<< 63) = has v (1 <<< 63)
    · exact .inl (rootFor_congr m.regs hhalf)
    · exact .inr fun _ => hhalf
  have regs : m'.regs = m.regs := by
    cases he with
    | found _ => rfl
    | split _ _ => rfl
  rw [(walk_view m' w).1, (walk_view m' w).2, (walk_view m w).1, (walk_view m w).2, regs, same]
  exact ⟨rfl, rfl⟩

theorem editsLocal (hm : entries.Mapped m.mem (rootFor m.regs v) v) : EditsLocal v m := by
  have mapped := hm.pageAlign
  have root := rootFor_congr m.regs (top_pageAlign v)
  constructor
  case ensure => exact ensureL3Table_local h hregs hm
  case guard =>
    refine (installGuardPage_spec v root).imp (fun _ m' he => ?_) (fun _ _ he =>
      he.resolve_left fun hc => hc.2 mapped)
    refine localAt_of_edited h hregs he fun w => ?_
    rw [lawful.pageAt_zero]
    rfl
  case page =>
    intro pa prot
    refine (mapPage_spec v pa prot root).imp (fun _ m' he => ?_) (fun _ _ he =>
      he.resolve_left fun hc => hc.2 mapped)
    exact localAt_of_edited h hregs he fun w => reads.view_page (entries.isFrame_next pa) prot w

end

end

end Aarch64

/-! ## Pages -/

/-- The 48-bit addresses of either half. -/
def Aarch64.InHalf (v : U64) : Prop := v.toNat < 0x1000000000000 ∨ 0xffff000000000000 ≤ v.toNat

theorem Aarch64.samePage_iff {v w : U64} (hv : InHalf v) (hw : InHalf w) :
    SamePage w v ↔ pageAlign w = pageAlign v := by
  have boundv := v.isLt
  have boundw := w.isLt
  rw [pageAlign_eq_iff, SamePage, Bool.eq_iff_iff, has_top, has_top]
  unfold InHalf at hv hw
  unfold pageNumber
  omega

/-- **Page edits are local.**  From `setup_kernel_paging` on, through any calls and with any space
active, editing the page of a `v` whose 2 MiB region is mapped below a table ends with that page
as the edit says and with every other address as it was, unless a table is needed and no frame is
left.  On canonical addresses, pages are the pages of 4 KiB that a walk tells apart; of a physical
address that an entry can hold, the mask leaves the page. -/
theorem page_edits_local (km : KernelMap) (hkm : km.Admitted) :
    (∀ (m : Machine X86.Regs) (s t : X86.backend.State) (tr : List VSpace.Event),
      X86.backend.Supplied m →
      X86.backend.Boots km m s → Run X86.backend.Step s tr t → ∀ v,
      X86.entries.Mapped t.machine.mem (t.machine.regs.cr3 &&& X86.ADDR_MASK) v →
        X86.EditsLocal v t.machine) ∧
    (∀ (m : Machine Aarch64.Regs) (s t : Aarch64.backend.State) (tr : List VSpace.Event),
      Aarch64.backend.Supplied m →
      Aarch64.backend.Boots km m s → Run Aarch64.backend.Step s tr t → ∀ v,
      Aarch64.entries.Mapped t.machine.mem (Aarch64.rootFor t.machine.regs v) v →
        Aarch64.EditsLocal v t.machine) ∧
    (∀ v w, Canonical v → Canonical w → (pageNumber w = pageNumber v ↔ pageAlign w = pageAlign v)) ∧
    (∀ v w, Aarch64.InHalf v → Aarch64.InHalf w →
      (Aarch64.SamePage w v ↔ pageAlign w = pageAlign v)) ∧
    (∀ pa : U64, pa.toNat < 0x10000000000000 → pa &&& X86.ADDR_MASK = pageAlign pa) ∧
    ∀ pa : U64, pa.toNat < 0x1000000000000 → pa &&& Aarch64.ADDR_MASK = pageAlign pa := by
  refine ⟨?_, ?_, fun v w => pageNumber_eq_iff, fun v w => Aarch64.samePage_iff, fun pa hpa =>
    ?_, fun pa hpa => ?_⟩
  · intro m s t tr hm hboot hrun v hmapped
    have typable : X86.backend.Typable pathShape X86.halves halfRole :=
      X86.typable X86.pathPermits rfl
    obtain ⟨ty, typed⟩ := typable.run hkm hm hboot hrun
    exact X86.editsLocal typed.heap (typed.regs (t.machine.regs.cr3, false) List.mem_cons_self)
      hmapped
  · intro m s t tr hm hboot hrun v hmapped
    have typable : Aarch64.backend.Typable pathShape Aarch64.halves halfRole :=
      Aarch64.typable Aarch64.pathPermits fun _ => rfl
    obtain ⟨ty, typed⟩ := typable.run hkm hm hboot hrun
    exact Aarch64.editsLocal typed.heap typed.regs hmapped
  · exact Entries.frame_of_lt (d := X86.entries) (k := 52) (by decide) (by decide) hpa
  · exact Entries.frame_of_lt (d := Aarch64.entries) (k := 48) (by decide) (by decide) hpa

/-- The first page of the second gibibyte, after boot on either backend; its leaf is split. -/
theorem page_edits_local_plain :
    (∃ (s : X86.backend.State) (m' : Machine X86.Regs), X86.backend.Boots X86.plainMap
      X86.plainMachine s ∧
      X86.mapUserPage 0x40000000 0x300000 .rw 1 s.machine = .ok () m' ∧
        X86.translate m' 0x40000234 = some 0x300234 ∧
      X86.pageProt m' 0x40000234 = some (true, false) ∧ X86.translate m' 0x40001234 = X86.translate
        s.machine 0x40001234) ∧
    ∃ (s : Aarch64.backend.State) (m' : Machine Aarch64.Regs), Aarch64.backend.Boots X86.plainMap
      Aarch64.plainMachine s ∧
      Aarch64.mapPage 0x40000000 0x300000 .rw s.machine = .ok () m' ∧
        Aarch64.translate m' 0x40000234 = some 0x300234 ∧
      Aarch64.pageProt m' 0x40000234 = some (true, false) ∧
      Aarch64.translate m' 0x40001234 = Aarch64.translate s.machine 0x40001234 := by
  obtain ⟨hx86, haarch64, _⟩ := page_edits_local X86.plainMap X86.plainMap_admitted
  constructor
  · obtain ⟨space, m1, hbuild, frame, mapped, left⟩ := X86.plain_built
    have boots := X86.backend.boots_of_build hbuild rfl
    have edits := hx86 _ _ _ [] X86.plainMachine_supplied boots (.nil _) 0x40000000
      (by rw [← frame] at mapped; exact mapped)
    obtain ⟨_, m', he, shown⟩ := (edits.userPage 0x300000 .rw 1).returns fun _ _ hc =>
      absurd left (by rw [show m1.supply = [] from hc.2]; decide)
    obtain ⟨address, prot⟩ := shown.page 0x40000234 (by decide)
    exact ⟨_, m', boots, he, address, prot, (shown.rest 0x40001234 (by decide)).1⟩
  · obtain ⟨space, m1, hbuild, frame, mapped, left⟩ := Aarch64.plain_built
    have boots := Aarch64.backend.boots_of_build hbuild rfl
    have edits := haarch64 _ _ _ [] Aarch64.plainMachine_supplied boots (.nil _) 0x40000000
      (by rw [← frame] at mapped; exact mapped)
    obtain ⟨_, m', he, shown⟩ := (edits.page 0x300000 .rw).returns fun _ _ hc => left hc.2
    obtain ⟨address, prot⟩ := shown.page 0x40000234 ⟨rfl, by decide⟩
    exact ⟨_, m', boots, he, address, prot, (shown.rest 0x40001234 fun hc =>
      absurd hc.2 (by decide)).1⟩

end Praesidium
