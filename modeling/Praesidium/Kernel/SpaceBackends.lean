import Praesidium.Kernel.PagingCalls
import Praesidium.Kernel.SpaceRuns

/-!
Both backends show address spaces.

Each keeps its roots in its own way (`X86.seam`, `Aarch64.seam`) and refines `Spaces`, with the
bits of a physical address that its entries hold (`X86.sound`, `Aarch64.sound`), so that

    Run Performs start ops w  →  (after ADDR_MASK ops).ReportedBy w     (X86.shows, Aarch64.shows)

A call that returns on aarch64 went through the root of the half that its address lies in; the
roots hold nothing for the other half, so the tables of the two halves are one space.  On x86-64
`map_user_page` also lets ring 3 through the entries above the page, which changes no view.
-/

namespace Praesidium

open Fallible Flags Paging Radix VSpace

/-! ## Maps -/

/-- What the boot protocol and the linker script promise of a map. -/
structure KernelMap.BootContract (km : KernelMap) : Prop where
  hhdm_high : 0xffff800000000000 ≤ km.hhdmOffset.toNat
  hhdm_aligned : km.hhdmOffset.toNat % 0x8000000000 = 0
  image_high : 0xffff800000000000 ≤ km.kernelVbase.toNat
  slots : km.hhdmOffset.toNat / 0x8000000000 ≠ km.kernelVbase.toNat / 0x8000000000
  image_aligned : km.kernelVbase.toNat % 0x200000 = 0
  image_size : km.kernelVend.toNat - km.kernelVbase.toNat ≤ 0x200000
  phys_aligned : km.kernelPhys.toNat % 4096 = 0
  phys_small : km.kernelPhys.toNat < 0x100000000

/-- The physical map fits under an entry of a root: `map_low` writes to no entry past its table. -/
def KernelMap.LowFits (km : KernelMap) : Prop := km.identityBytes.toNat ≤ 0x8000000000

instance (km : KernelMap) : Decidable km.LowFits := inferInstanceAs (Decidable (_ ≤ _))

/-- The calls that are made: maps as promised, pages for user code in `[1 GiB, 2 GiB)`. -/
def VSpace.SpaceCall.Contracted : SpaceCall → Prop
  | .buildAddressSpace km => km.BootContract
  | .mapUserPage vaddr _ _ => 0x40000000 ≤ vaddr.toNat ∧ vaddr.toNat < 0x80000000
  | _ => True

def VSpace.SpaceCall.LowFits : SpaceCall → Prop
  | .buildAddressSpace km => km.LowFits
  | _ => True

theorem index_high {v : U64} (h : 0xffff800000000000 ≤ v.toNat) : 256 ≤ index v 3 := by
  have bound := v.isLt
  simp only [index_eq, Nat.reduceMul, Nat.reduceAdd, Nat.reducePow]
  omega

section

variable {km : KernelMap}

theorem KernelMap.BootContract.layout (h : km.BootContract) (hc : km.LowFits) : Layout km where
  low := hc
  hhdm_canonical := .inr h.hhdm_high
  hhdm_aligned := h.hhdm_aligned
  image_canonical := .inr h.image_high
  image := ⟨h.image_aligned, h.image_size⟩
  hhdm_slot hz := absurd (index_high h.hhdm_high) (by omega)
  image_slot hz := absurd (index_high h.image_high) (by omega)
  apart hs := h.slots ((slot_eq (.inr h.hhdm_high) (.inr h.image_high)).mp hs)

/-- The frames of the image. -/
theorem KernelMap.BootContract.imageFrame (h : km.BootContract) {k : Nat} (hk : k < imagePages km) :
    (imageFrame km k).toNat % 4096 = 0 ∧ (imageFrame km k).toNat < 0x200000000 := by
  have image : ImageAligned km := ⟨h.image_aligned, h.image_size⟩
  have pages := image.pages
  have addr := image.addr (Nat.lt_of_lt_of_le hk pages)
  have aligned := h.phys_aligned
  have small := h.phys_small
  have le : km.kernelVbase ≤ imageAddr km k := by
    show km.kernelVbase.toNat ≤ (imageAddr km k).toNat
    omega
  have offset := toNat_sub_of_le le
  have sum : (Paging.imageFrame km k).toNat = km.kernelPhys.toNat + 4096 * k := by
    unfold Paging.imageFrame
    rw [BitVec.toNat_add, offset, addr]
    omega
  rw [sum]
  omega

theorem KernelMap.LowFits.gibs (h : km.LowFits) : X86.lowGibs km ≤ 512 := by
  unfold KernelMap.LowFits at h
  unfold X86.lowGibs GIB
  omega

end

/-! ## x86-64 -/

namespace X86

section

variable {ω : Type} {F : Family ω} {low live : ω → Prop} {tree : ω → U64}
  {ty : U64 → Option (Place ω)} {m m' : Machine Regs} {o : ω} {t v e : U64} {i : Nat} {r : Place ω}

/-- A grant changes `USER` only. -/
theorem grant_reads (m : Machine Regs) (t : U64) (i : Nat) (t' : U64) (i' : Nat) :
    entries.present ((grant m t i).mem t' i') = entries.present (m.mem t' i') ∧
      (grant m t i).mem t' i' &&& ADDR_MASK = m.mem t' i' &&& ADDR_MASK ∧
      entries.isLeaf 2 ((grant m t i).mem t' i') = entries.isLeaf 2 (m.mem t' i') := by
  by_cases hc : t' = t ∧ i' = i
  · obtain ⟨rfl, rfl⟩ := hc
    have present : has (m.mem t' i' ||| USER) PRESENT = has (m.mem t' i') PRESENT :=
      has_or_user _ (by decide)
    have huge : has (m.mem t' i' ||| USER) HUGE = has (m.mem t' i') HUGE :=
      has_or_user _ (by decide)
    rw [grant_self]
    exact ⟨present, next_or_user _, huge⟩
  · rw [grant_of_ne m hc]
    exact ⟨rfl, rfl, rfl⟩

/-- A grant on a link is not seen from any root. -/
theorem grant_view {ρ : Type} {S : Shape U64 ρ} {ty : U64 → Option ρ} {r : ρ}
    (h : Heap entries S ty m) (hplace : ty t = some r)
    (hlink : ¬ entries.format.leafAt (S.level r) (m.mem t i)) {x : U64} {r' : ρ}
    (hx : ty x = some r') (hl : S.level r' = 3) (w : U64) :
    view (grant m t i).mem x w = view m.mem x w :=
  congrArg (entries.leafView access w) (h.typed.walk_like (index_lt w) hx hl fun _ _ _ hr' _ =>
  grant_like hplace hlink hr')

/-- A link that leads to the window or lies in it. -/
structure Leads (ty : U64 → Option (Place ω)) (m : Machine Regs) (t : U64) (i : Nat) (r : Place ω) :
    Prop where
  place : ty t = some r
  below : i < 512
  link : ¬ entries.format.leafAt (3 - r.path.length) (m.mem t i)
  way : (r.path = [] ∧ i = 0) ∨ (r.path = [0] ∧ i = 1) ∨ 2 ≤ r.path.length

/-- **Granting access changes no view.** -/
theorem Leads.granted (hg : Leads ty m t i r) (h : Forest entries F low live tree ty m) :
    Forest entries F low live tree ty (grant m t i) ∧
      ∀ x, live x → ∀ w, view (grant m t i).mem (tree x) w = view m.mem (tree x) w := by
  have heap : Heap entries F.shape ty (grant m t i) := by
    refine h.heap.write t i _ fun r' hr' => ?_
    have same : r' = r := Option.some.inj (hr'.symm.trans hg.place)
    subst same
    intro hp
    have present : entries.present (m.mem t i) = true := by
      rw [← (grant_reads m t i t i).1, grant_self]
      exact hp
    refine ⟨fun hl => absurd ((leafAt_or_user _ _).mp hl) hg.link, fun _ => ⟨trivial, ?_⟩⟩
    show ty ((m.mem t i ||| USER) &&& ADDR_MASK) = _
    rw [next_or_user]
    exact ((h.heap.typed t r' hr' i hg.below present).2 hg.link).2
  -- elsewhere in the tables that spaces are copied by, nothing changes
  have other : ∀ {x : U64} {r' : Place ω} {i' : Nat}, ty x = some r' →
      (r'.path = [] ∧ i' ≠ 0) ∨ (r'.path = [0] ∧ i' ≠ 1) → (grant m t i).mem x i' = m.mem x i' :=
      fun {x r' i'} hx hway => by
    refine grant_of_ne m fun hc => ?_
    rw [hc.1] at hx
    have same : r' = r := Option.some.inj (hx.symm.trans hg.place)
    rw [same, hc.2] at hway
    rcases hway with ⟨hp, hi⟩ | ⟨hp, hi⟩
    · rcases hg.way with hw | hw | hw
      · exact hi hw.2
      · rw [hp] at hw; exact absurd hw.1 (by decide)
      · rw [hp] at hw; exact absurd hw (by decide)
    · rcases hg.way with hw | hw | hw
      · rw [hp] at hw; exact absurd hw.1 (by decide)
      · exact hi hw.2
      · rw [hp] at hw; exact absurd hw (by decide)
  refine ⟨h.kept heap (Extends.refl ty) fun x hx hl => ?_, fun x hx w => ?_⟩
  · constructor
    case pml4e => exact (grant_reads m t i _ _).1
    case pdpt => exact (grant_reads m t i _ _).2.1
    case root_other => exact fun i' hi => other (h.root x hx) (.inl ⟨rfl, hi⟩)
    case pdpte => exact (grant_reads m t i _ _).2.2
    case pdpt_other => exact fun i' hi => other (h.pdpt_place lawful hx hl) (.inr ⟨rfl, hi⟩)
  · exact grant_view h.heap hg.place hg.link (h.root x hx) rfl w

/-- **A page for user code.** -/
theorem UserMapped.changed (h : Forest entries F low live tree ty m) (ho : live o) (hl : low o)
    (hv : window (path v) = true) (hu : UserMapped (tree o) v e m m') :
    Changed entries access F low live tree o v e m m' := by
  obtain ⟨hm, m1, he, rfl⟩ := hu
  obtain ⟨i3, i2⟩ := window_index hv
  have tiers := tiered (F.keeps entries) h.heap (h.root o ho) rfl v
  have apart := tiers.apart hm.pml4e hm.pdpte
  -- the root
  have leads1 : Leads ty m (tree o) (index v 3) ⟨o, []⟩ :=
    ⟨h.root o ho, index_lt v 3, root_link _, .inl ⟨rfl, i3⟩⟩
  obtain ⟨h1, view1⟩ := leads1.granted h
  -- the table under its entry 0
  have pdpt_place : ty (entries.pdptOf m.mem (tree o) v) = some ⟨o, [0]⟩ := by
    have place := h.pdpt_place lawful ho hl
    unfold Entries.windowPdpt at place
    unfold Entries.pdptOf
    rw [i3]
    exact place
  have entry : (grant m (tree o) (index v 3)).mem (entries.pdptOf m.mem (tree o) v) (index v 2) =
      m.mem (entries.pdptOf m.mem (tree o) v) (index v 2) := grant_of_ne _ fun hc => apart.pdpt hc.1
  have leads2 : Leads ty (grant m (tree o) (index v 3)) (entries.pdptOf m.mem (tree o) v)
    (index v 2) ⟨o, [0]⟩ :=
    ⟨pdpt_place, index_lt v 2, by rw [entry]; exact pdpt_link hm, .inr (.inl ⟨rfl, i2⟩)⟩
  obtain ⟨h2, view2⟩ := leads2.granted h1
  change Forest entries F low live tree ty (granted (tree o) v m) at h2
  change ∀ x, live x → ∀ w, view (granted (tree o) v m).mem (tree x) w = _ at view2
  -- the page
  have changed := h2.changed lawful reads ho he
  obtain ⟨ty', h3, grown⟩ := h2.edited lawful ho he
  have pd_eq := (granted_tables apart).2.1
  have pd_place := (he.1.places lawful (F.keeps entries) h2.heap (h2.place ho)).2
  have table := he.region_link lawful (F.keeps entries) h2.heap (h2.place ho)
  rw [pd_eq] at pd_place table
  -- the table of its region
  have leads3 : Leads ty' m1 (entries.pdOf m.mem (tree o) v) (index v 1)
    (F.owners.place o [index v 3, index v 2]) := by
    refine ⟨grown.keeps h2.heap _ _ pd_place, index_lt v 1, ?_, .inr (.inr (Nat.le_refl 2))⟩
    rintro (hc | hc)
    · cases hc
    · exact absurd hc (by show ¬ entries.isLeaf 1 _ = true; rw [table]; decide)
  obtain ⟨h4, view4⟩ := leads3.granted h3
  refine ⟨⟨ty', h4⟩, fun x hx i => ?_, fun x hx w hw => ?_, fun x hx w hw => ?_⟩
  · rw [(grant_reads _ _ _ _ _).1, changed.root x hx, granted, (grant_reads _ _ _ _ _).1,
      (grant_reads _ _ _ _ _).1]
  · exact (view4 x hx w).trans (changed.page x hx w hw)
  · exact (view4 x hx w).trans ((changed.rest x hx w hw).trans
      ((view2 x hx w).trans (view1 x hx w)))

theorem UserMapped.regs {root : U64} (hu : UserMapped root v e m m') : m'.regs = m.regs := by
  obtain ⟨_, m1, he, rfl⟩ := hu
  exact he.regs

end

/-- One root for all addresses. -/
def sides : Sides where
  high := false
  side _ := false
  half _ _ := True
  high_of _ h := h
  one _ _ _ _ _ := rfl
  apart _ h := by cases h

def seam : Seam backend where
  sides := sides
  access := access
  root space _ := space.primary
  kernel regs := ⟨regs.kernelPml4, 0⟩

theorem not_high {s : Bool} (hs : s = true → seam.sides.high = true) : s = false :=
  eq_false_of_ne_true fun hc => Bool.false_ne_true (hs hc)

section

variable {B : Family Nat} {A : Spaces} {w : backend.World} {m' : Machine Regs}

variable {space : AddressSpace} {k : Nat}

theorem view_userLeaf (phys : U64) (prot : Prot) (domain x : U64) :
    entries.leafView access x (entries.pageAt (userLeaf phys prot domain)) = framePage ADDR_MASK
      phys prot x := by
  rw [reads.view_present (userLeaf_present phys prot domain) (userLeaf_frame phys prot domain)]
  refine congrArg (fun a => some (_, a)) ?_
  unfold access
  rw [has_userLeaf _ _ _ (by decide) (by decide) (by decide),
    has_userLeaf _ _ _ (by decide) (by decide) (by decide)]
  exact access_leafBits prot

section

variable (h : seam.Refines B A w)

include h

theorem refines_build {km : KernelMap} (hkm : km.BootContract) (hc : km.LowFits)
    (hunder : (A.build km).Under B) (hbuild : buildAddressSpace km w.machine = .ok space m') :
    seam.Refines B (A.build km) ⟨m', w.spaces ++ [space], w.active⟩ := by
  obtain ⟨ty, forest⟩ := h.holds.forest
  have layout := hkm.layout hc
  have slots : Slots km := ⟨layout.hhdm_slot, layout.image_slot, layout.apart⟩
  obtain ⟨pml4, pdpt, pds, used, rfl, built, tables, other⟩ :=
    (buildAddressSpace_spec forest.heap.nodup km slots).ok hbuild
  have frames : ∀ t ∈ used, entries.IsFrame t := fun t ht =>
    forest.heap.frame t (by rw [built.supply]; exact List.mem_append_left _ ht)
  have images : ∀ k, k < imagePages km → entries.IsFrame (imageFrame km k) := fun k hk => by
    obtain ⟨aligned, small⟩ := hkm.imageFrame hk
    exact isFrame_of_small aligned (by omega)
  have grown := buildAddressSpace_grown (S := (family B).shape) (r := ⟨(A.count, false), []⟩)
    ((family B).keeps entries) rfl forest.heap km (fun i g j _ => by show _ ++ [_] ≠ []; simp)
    (fun i pa prot _ => by show _ ++ [_] ≠ []; simp)
  obtain ⟨frame, regs, _, ty', heap, place, hty⟩ := grown.ok hbuild
  refine h.built lawful hunder forest heap hty other (fun s hs => ?_) (fun s _ => frame)
    (tables.low.topped lawful (by decide) frames) (fun _ _ _ _ _ => trivial)
    (fun v hv => tables.view layout images frames hv) ?_ ?_
  · rw [not_high hs]
    exact place
  · show (⟨m'.regs.cr3, 0⟩ : AddressSpace) = ⟨w.machine.regs.cr3, 0⟩
    rw [regs]
  · show (⟨m'.regs.kernelPml4, 0⟩ : AddressSpace) = _
    rw [regs]

theorem refines_copy (hpos : 0 < A.count) (hunder : A.copy.Under B)
    (hexec : exec .newProcessSpace w.machine = .ok (some space) m') :
    seam.Refines B A.copy ⟨m', w.spaces ++ [space], w.active⟩ := by
  obtain ⟨ty, forest⟩ := h.holds.forest
  have spec := newProcessSpace_copies forest.heap.nodup rfl (h.settled lawful hpos)
  obtain ⟨root, pdpt, pd, pts, used, hmade, copied⟩ := spec.ok hexec
  cases hmade
  exact h.copied lawful hpos hunder copied fun hc => absurd hc Bool.false_ne_true

/-- The root that is edited. -/
theorem active_root (hact : A.active = some k) :
    w.machine.regs.cr3 &&& ADDR_MASK = seam.tree w.spaces (A.owner k false) := by
  obtain ⟨root, frame⟩ := h.root_active hact (s := false) (fun hc => absurd hc Bool.false_ne_true)
  have root' : w.machine.regs.cr3 = seam.tree w.spaces (A.owner k false) := root
  rw [root']
  exact frame

theorem refines_edit {op : SpaceCall} (hop : op.Contracted) {call : VSpace.Call}
    (hcall : op.edit = some call) (hact : A.active = some k) {made : Option AddressSpace}
    (hexec : exec call w.machine = .ok made m') :
    seam.Refines B (A.step ADDR_MASK op) ⟨m', w.spaces, w.active⟩ := by
  have root := active_root h hact
  cases op with
  | buildAddressSpace km => cases hcall
  | newProcessSpace => cases hcall
  | activateAddressSpace k => cases hcall
  | mapPage vaddr phys prot =>
    cases hcall
    have edited := ((ends_edit (mapPage_spec root vaddr phys prot)).ok hexec).2
    exact h.pageMapped lawful reads hact edited
  | installGuardPage vaddr =>
    cases hcall
    have edited := ((ends_edit (installGuardPage_spec root vaddr)).ok hexec).2
    exact h.guarded lawful reads hact edited
  | mapUserPage vaddr phys prot =>
    cases hcall
    obtain ⟨ty, forest⟩ := h.holds.forest
    have live : A.live sides (A.owner k false) :=
      h.holds.live_owner (h.active_lt k hact) fun hc => absurd hc Bool.false_ne_true
    have tiers :=
      tiered ((family B).keeps entries) forest.heap (forest.root _ live) rfl (pageAlign vaddr)
    have mapped := ((ends_edit (mapUserPage_tiered vaddr phys prot 0 tiers root)).ok hexec).2
    have win : window (path (pageAlign vaddr)) = true := by
      rw [path_pageAlign]
      exact window_path vaddr hop
    rw [Spaces.step, Spaces.edit_active hact]
    refine h.edited hact mapped.1 (mapped.changed forest live rfl win) mapped.regs fun x => ?_
    have shown := view_userLeaf phys prot 0 x
    rw [← shown]
    exact .refl ..

end

end

theorem sound : seam.Sound ADDR_MASK fun op => op.Contracted ∧ op.LowFits where
  build h hop hunder hbuild := refines_build h hop.1 hop.2 hunder hbuild
  copy h hpos hunder hexec := refines_copy h hpos hunder hexec
  activate hexec := by
    cases hexec
    exact ⟨_, rfl, fun _ => rfl, rfl⟩
  edit h hop hcall hact hexec := refines_edit h hop.1 hcall hact hexec

/-- **x86-64 shows the spaces.** -/
theorem shows : backend.Shows ADDR_MASK (fun op => op.Contracted ∧ op.LowFits)
    (fun m space => translate (inSpace m space)) (fun m space => pageProt (inSpace m space)) := by
  refine sound.shows fun m space frame v => ?_
  obtain ⟨translated, prot⟩ := walk_view (inSpace m space) v
  have root : space.primary &&& ADDR_MASK = space.primary :=
    frame false fun hc => absurd hc Bool.false_ne_true
  change _ = (view m.mem (space.primary &&& ADDR_MASK) v).map _ at translated
  change _ = (view m.mem (space.primary &&& ADDR_MASK) v).map _ at prot
  rw [root] at translated prot
  exact ⟨translated, prot⟩

end X86

/-! ## aarch64 -/

namespace Aarch64

/-- Bit 63, which selects the root. -/
theorem has_top (v : U64) : has v (1 <<< 63) = true ↔ 0x8000000000000000 ≤ v.toNat := by
  have bit : (1 <<< 63 : U64) = BitVec.twoPow 64 63 := by decide
  have top : v.getLsbD 63 = decide (0x8000000000000000 ≤ v.toNat) := by
    rw [← BitVec.msb_eq_getLsbD_last]
    exact BitVec.msb_eq_decide v
  unfold has
  rw [bit, BitVec.and_twoPow, top]
  by_cases h : 0x8000000000000000 ≤ v.toNat
  · rw [if_pos (decide_eq_true h)]
    exact ⟨fun _ => h, fun _ => by decide⟩
  · rw [if_neg (by rw [decide_eq_true_eq]; exact h)]
    exact ⟨fun hc => absurd hc (by decide), fun hc => absurd hc h⟩

theorem top_canonical {v : U64} (hv : Canonical v) : has v (1 <<< 63) = true ↔ 256 ≤ index v 3 := by
  have bound := v.isLt
  rw [has_top]
  unfold Canonical at hv
  simp only [index_eq, Nat.reduceMul, Nat.reduceAdd, Nat.reducePow]
  omega

/-- A root for each half. -/
def sides : Sides where
  high := true
  side v := has v (1 <<< 63)
  half s i := s = true ↔ 256 ≤ i
  high_of _ _ := rfl
  one v w hv hw hi := by
    have top := top_canonical hw
    rw [hi] at top
    exact Bool.eq_iff_iff.mpr (top.trans hv.symm)
  apart v _ hs h0 := by
    have high := hs.mp rfl
    omega

def seam : Seam backend where
  sides := sides
  access := access
  root space s := if s then space.primary else space.secondary
  kernel regs := ⟨regs.kernelTtbr1, regs.kernelTtbr0⟩

/-- The machine with `space` active. -/
def inSpace (m : Machine Regs) (space : AddressSpace) : Machine Regs :=
  { m with regs := m.regs.load space }

/-! ### What the calls do -/

section

variable {m : Machine Regs} {root : U64}

/-- In domain 0 no page is tagged. -/
theorem mapUserPage_spec (vaddr phys : U64) (prot : Prot)
    (hroot : rootFor m.regs (pageAlign vaddr) = root) :
    Ends (mapUserPage vaddr phys prot 0) m
      (fun _ m' => Edited entries root (pageAlign vaddr) (userLeaf phys prot 0) m m')
      (EditFails entries root (pageAlign vaddr) m) := by
  have edit := edit_spec entries root (pageAlign vaddr) (userLeaf phys prot 0) m
  rw [ends_bind] at edit
  unfold mapUserPage ensureL3Table currentRoot
  rw [ends_bind, ends_bind, ends_bind, ends_get, ends_pure, hroot]
  refine edit.imp_ok fun l3 t hw => ?_
  rw [ends_writeEntry] at hw
  rw [ends_bind, ends_writeEntry, if_neg (fun hc => hc rfl), ends_pure]
  exact hw

theorem newProcessSpace_copies (hnodup : m.supply.Nodup)
    (hw : WindowSettled entries m.regs.kernelTtbr0 m) :
    Ends (exec .newProcessSpace) m
      (fun made m' => ∃ l0 pdpt pd pts used, made = some ⟨m.regs.kernelTtbr1, l0⟩ ∧
        WindowCopied entries m.regs.kernelTtbr0 m l0 pdpt pd pts used m')
      (fun e _ => e = .outOfFrames ∧ m.supply.length < 515) := by
  show Ends (do return some (← newProcessSpace)) m _ _
  unfold newProcessSpace
  rw [ends_bind, ends_bind, ends_get, ends_bind]
  refine (cloneWindow_spec hnodup hw).imp_ok fun l0 m' hQ => ?_
  obtain ⟨pdpt, pd, pts, used, copied⟩ := hQ
  rw [ends_bind, ends_get, ends_pure, ends_pure, copied.regs]
  exact ⟨l0, pdpt, pd, pts, used, rfl, copied⟩

end

/-! ### What the leaves show -/

/-- A page-aligned address below 2^48. -/
theorem isFrame_of_small {pa : U64} (ha : pa.toNat % 4096 = 0) (hs : pa.toNat < 0x1000000000000) :
    entries.IsFrame pa :=
  Entries.isFrame_of_lt (k := 48) (by decide) (by decide) ha hs

/-- The attributes of a page for user code. -/
def userBits : Prot → U64
  | .rx => AF ||| SH_INNER ||| ATTR_NORMAL ||| TABLE ||| AP_EL0 ||| PXN ||| AP_RO
  | .ro => AF ||| SH_INNER ||| ATTR_NORMAL ||| TABLE ||| AP_EL0 ||| PXN ||| AP_RO ||| UXN
  | .rw => AF ||| SH_INNER ||| ATTR_NORMAL ||| TABLE ||| AP_EL0 ||| PXN ||| UXN

theorem userLeaf_eq (phys : U64) (prot : Prot) :
    userLeaf phys prot 0 = (phys &&& ADDR_MASK) ||| userBits prot := by
  unfold userLeaf
  rw [if_neg (fun hc => hc rfl)]
  unfold userPageDesc userBits
  cases prot with
  | ro | rw | rx => simp only [BitVec.or_assoc]

/-- A page for user code stands for its frame; its protection for the kernel is its own. -/
theorem view_userLeaf (phys : U64) (prot : Prot) (x : U64) :
    Alike true (entries.leafView access x (entries.pageAt (userLeaf phys prot 0)))
      (framePage ADDR_MASK phys prot x) := by
  have bits : has (userBits prot) VALID = true ∧ userBits prot &&& ADDR_MASK = 0 := by
    decide +revert
  have present : entries.present (userLeaf phys prot 0) = true := by
    show has (userLeaf phys prot 0) VALID = true
    rw [userLeaf_eq]
    exact has_or_right _ bits.1
  have addr : userLeaf phys prot 0 &&& ADDR_MASK = phys &&& ADDR_MASK := by
    rw [userLeaf_eq]
    exact or_and_of_masked (entries.isFrame_next phys) bits.2
  rw [reads.view_present present addr]
  exact ⟨rfl, fun hc => by cases hc⟩

/-! ### The refinement -/

section

variable {km : KernelMap} {space : AddressSpace} {used : List U64} {mem : Mem U64}

/-- **The tables of the kernel's space show the design**, each root its half of it. -/
theorem BootTables.view (h : BootTables km space used mem) (hkm : km.BootContract) (hc : km.LowFits)
    (hused : ∀ t ∈ used, entries.IsFrame t) {v : U64} (hv : Canonical v) :
    Aarch64.view mem (seam.root space (sides.side v)) v = design km v := by
  have layout := hkm.layout hc
  have images : ∀ k, k < imagePages km → entries.IsFrame (imageFrame km k) := fun k hk => by
    obtain ⟨aligned, small⟩ := hkm.imageFrame hk
    exact isFrame_of_small aligned (by omega)
  have gibs : X86.lowGibs km = lowBytes km / 0x40000000 := by
    unfold X86.lowGibs lowBytes GIB
    omega
  have hhdm := index_high hkm.hhdm_high
  have image := index_high hkm.image_high
  have top := top_canonical hv
  cases hs : sides.side v with
  | false =>
    have below : ¬ 256 ≤ index v 3 := fun hc => by
      have high : sides.side v = true := top.mpr hc
      rw [hs] at high
      cases high
    show Aarch64.view mem space.secondary v = _
    by_cases h0 : index v 3 = 0
    · rw [Aarch64.view, h.low.view lawful reads hused h0, gibs, design_low layout hv h0]
    · rw [Aarch64.view, view_absent lawful (h.low_rest _ h0),
        design_other layout hv h0 (by omega) (by omega)]
  | true =>
    have above : 256 ≤ index v 3 := top.mp hs
    show Aarch64.view mem space.primary v = _
    by_cases hh : index v 3 = index km.hhdmOffset 3
    · rw [Aarch64.view, h.hhdm.view lawful reads hused hh, gibs, design_hhdm layout hv hh]
    by_cases hk : index v 3 = index km.kernelVbase 3
    · rw [Aarch64.view, h.image.view lawful reads layout.image images hused hk,
        design_image layout hv hk]
    · rw [Aarch64.view, view_absent lawful (h.rest _ hh hk),
        design_other layout hv (by omega) hh hk]

/-- Each root holds entries of its half only. -/
theorem BootTables.halves (h : BootTables km space used mem) (hkm : km.BootContract) (s : Bool)
    (i : Nat) (hp : entries.present (mem (seam.root space s) i) = true) : sides.half s i := by
  have hhdm := index_high hkm.hhdm_high
  have image := index_high hkm.image_high
  have absent : ∀ {t}, mem t i = 0 → entries.present (mem t i) = true → False := fun h0 hp => by
    rw [h0, lawful.present_zero] at hp
    cases hp
  cases s with
  | false =>
    by_cases h0 : i = 0
    · exact ⟨fun hc => absurd hc Bool.false_ne_true, fun hc => by omega⟩
    · exact (absent (h.low_rest i h0) hp).elim
  | true =>
    refine ⟨fun _ => ?_, fun _ => rfl⟩
    by_cases hh : i = index km.hhdmOffset 3
    · omega
    by_cases hk : i = index km.kernelVbase 3
    · omega
    · exact (absent (h.rest i hh hk) hp).elim

end

section

variable {B : Family Nat} {A : Spaces} {w : backend.World} {m' : Machine Regs}

variable {space : AddressSpace} {k : Nat}

section

variable (h : seam.Refines B A w)

include h

theorem refines_build {km : KernelMap} (hkm : km.BootContract) (hc : km.LowFits)
    (hunder : (A.build km).Under B) (hbuild : buildAddressSpace km w.machine = .ok space m') :
    seam.Refines B (A.build km) ⟨m', w.spaces ++ [space], w.active⟩ := by
  obtain ⟨ty, forest⟩ := h.holds.forest
  have layout := hkm.layout hc
  obtain ⟨used, built⟩ := (buildAddressSpace_spec forest.heap.nodup km layout.apart).ok hbuild
  have frames : ∀ t ∈ used, entries.IsFrame t := fun t ht =>
    forest.heap.frame t (by rw [built.supply]; exact List.mem_append_left _ ht)
  have grown := buildAddressSpace_grown (S := (family B).shape) (r := ⟨(A.count, false), []⟩)
    (q := ⟨(A.count, true), []⟩) ((family B).keeps entries) rfl rfl forest.heap km
    (fun r _ i g j hg hj => ⟨reads.isLeaf_low g j (Nat.lt_of_lt_of_le hg hc.gibs)
    hj, by show _ ++ [_] ≠ []; simp⟩) (fun i pa prot _ => by show _ ++ [_] ≠ []; simp)
  obtain ⟨_, _, regs, ty', heap, low, high, hty⟩ := grown.ok hbuild
  refine h.built lawful hunder forest heap hty built.other (fun s _ => ?_) (fun s _ => ?_)
    (built.tables.low.topped lawful (by decide) frames)
    (fun s _ i _ hp => built.tables.halves hkm s i hp)
    (fun v hv => built.tables.view hkm hc frames hv) ?_ ?_
  · cases s with
    | false => exact low
    | true => exact high
  · cases s with
    | false => exact frames _ built.roots.2
    | true => exact frames _ built.roots.1
  · show (⟨m'.regs.ttbr1, m'.regs.ttbr0⟩ : AddressSpace) = ⟨w.machine.regs.ttbr1,
      w.machine.regs.ttbr0⟩
    rw [regs]
  · show (⟨m'.regs.kernelTtbr1, m'.regs.kernelTtbr0⟩ : AddressSpace) = space
    rw [regs]

theorem refines_copy (hpos : 0 < A.count) (hunder : A.copy.Under B)
    (hexec : exec .newProcessSpace w.machine = .ok (some space) m') :
    seam.Refines B A.copy ⟨m', w.spaces ++ [space], w.active⟩ := by
  obtain ⟨ty, forest⟩ := h.holds.forest
  have spec := newProcessSpace_copies forest.heap.nodup (h.settled lawful hpos)
  obtain ⟨l0, pdpt, pd, pts, used, hmade, copied⟩ := spec.ok hexec
  cases hmade
  exact h.copied lawful hpos hunder copied fun _ => rfl

/-- The root that is edited. -/
theorem active_root (hact : A.active = some k) (v : U64) :
    rootFor w.machine.regs v = seam.tree w.spaces (A.owner k (sides.side v)) := by
  obtain ⟨root, frame⟩ := h.root_active hact (s := sides.side v) fun _ => rfl
  show seam.root (backend.active w.machine.regs) (sides.side v) &&& ADDR_MASK = _
  rw [root]
  exact frame

theorem refines_edit {op : SpaceCall} {call : VSpace.Call} (hcall : op.edit = some call)
    (hact : A.active = some k) {made : Option AddressSpace}
    (hexec : exec call w.machine = .ok made m') :
    seam.Refines B (A.step ADDR_MASK op) ⟨m', w.spaces, w.active⟩ := by
  have root := active_root h hact
  cases op with
  | buildAddressSpace km => cases hcall
  | newProcessSpace => cases hcall
  | activateAddressSpace k => cases hcall
  | mapPage vaddr phys prot =>
    cases hcall
    have edited := ((ends_edit (mapPage_spec vaddr phys prot (root _))).ok hexec).2
    exact h.pageMapped lawful reads hact edited
  | installGuardPage vaddr =>
    cases hcall
    have edited := ((ends_edit (installGuardPage_spec vaddr (root _))).ok hexec).2
    exact h.guarded lawful reads hact edited
  | mapUserPage vaddr phys prot =>
    cases hcall
    have edited := ((ends_edit (mapUserPage_spec vaddr phys prot (root _))).ok hexec).2
    rw [Spaces.step, Spaces.edit_active hact]
    exact h.written lawful reads hact edited fun x => view_userLeaf phys prot x

end

end

theorem sound : seam.Sound ADDR_MASK fun op => op.Contracted ∧ op.LowFits where
  build h hop hunder hbuild := refines_build h hop.1 hop.2 hunder hbuild
  copy h hpos hunder hexec := refines_copy h hpos hunder hexec
  activate hexec := by
    cases hexec
    exact ⟨_, rfl, fun _ => rfl, rfl⟩
  edit h _ hcall hact hexec := refines_edit h hcall hact hexec

/-- **aarch64 shows the spaces.** -/
theorem shows : backend.Shows ADDR_MASK (fun op => op.Contracted ∧ op.LowFits)
    (fun m space => translate (inSpace m space)) (fun m space => pageProt (inSpace m space)) := by
  refine sound.shows fun m space frame v => ?_
  obtain ⟨translated, prot⟩ := walk_view (inSpace m space) v
  have root : rootFor (inSpace m space).regs v = seam.root space (sides.side v) :=
    frame (sides.side v) fun _ => rfl
  rw [root] at translated prot
  exact ⟨translated, prot⟩

end Aarch64

end Praesidium
