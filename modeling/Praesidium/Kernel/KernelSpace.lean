import Praesidium.Kernel.Isolation
import Praesidium.Kernel.PagingView

/-!
What the kernel's own space is for, and that the tables show it.

`design km` says what every canonical address should translate to: the low physical memory
twice, at 0 and at `hhdm_offset`, and the image at `kernel_vbase` page by page with the
protection of its section.  Where the root has the physical map and the image under their own
entries, the tables show the design:

    entry 0            the identity map                             (design_low)
    entry of the hhdm  the direct map                               (design_hhdm)
    entry of the image the image                                    (design_image)
    any other entry    nothing                                      (design_other)
-/

namespace Praesidium

namespace Paging

open Flags Radix

/-- Bits 47 to 63 are all alike. -/
def Canonical (v : U64) : Prop := v.toNat < 0x800000000000 ∨ 0xffff800000000000 ≤ v.toNat

instance (v : U64) : Decidable (Canonical v) := inferInstanceAs (Decidable (_ ∨ _))

/-- A walk tells the pages of canonical addresses apart. -/
theorem pageNumber_eq_iff {v w : U64} (hv : Canonical v) (hw : Canonical w) :
    pageNumber w = pageNumber v ↔ pageAlign w = pageAlign v := by
  have boundv := v.isLt
  have boundw := w.isLt
  rw [pageAlign_eq_iff]
  unfold Canonical at hv hw
  unfold pageNumber
  omega

/-- The gibibytes of the physical map, in bytes. -/
def lowBytes (km : KernelMap) : Nat := (km.identityBytes.toNat + GIB - 1) / GIB * GIB

/-- What an address of the kernel's space stands for. -/
def design (km : KernelMap) (v : U64) : Option (U64 × (Bool × Bool)) :=
  if v.toNat < lowBytes km then some (v, Prot.rw.access)
  else if km.hhdmOffset ≤ v ∧ (v - km.hhdmOffset).toNat < lowBytes km then some (v - km.hhdmOffset,
    Prot.rw.access)
  else if km.kernelVbase ≤ v ∧ (v - km.kernelVbase).toNat < 4096 * imagePages km then
    some (km.kernelPhys + (v - km.kernelVbase), (sectionProt km (pageAlign v)).access)
  else none

/-- The parts of the kernel's space lie apart, each under an entry of its own. -/
structure Layout (km : KernelMap) : Prop where
  low : km.identityBytes.toNat ≤ 0x8000000000
  hhdm_canonical : Canonical km.hhdmOffset
  hhdm_aligned : km.hhdmOffset.toNat % 0x8000000000 = 0
  image_canonical : Canonical km.kernelVbase
  image : ImageAligned km
  hhdm_slot : index km.hhdmOffset 3 ≠ 0
  image_slot : index km.kernelVbase 3 ≠ 0
  apart : index km.hhdmOffset 3 ≠ index km.kernelVbase 3

section

variable {km : KernelMap} {v : U64}

variable {a b : U64}

theorem toNat_sub_of_le (h : b ≤ a) : (a - b).toNat = a.toNat - b.toNat := by
  have le : b.toNat ≤ a.toNat := h
  have bound := a.isLt
  rw [BitVec.toNat_sub]
  omega

/-- Canonical addresses under one entry of a root agree above it. -/
theorem slot_eq (ha : Canonical a) (hb : Canonical b) :
    index a 3 = index b 3 ↔ a.toNat / 0x8000000000 = b.toNat / 0x8000000000 := by
  have bounda := a.isLt
  have boundb := b.isLt
  unfold Canonical at ha hb
  simp only [index_eq, Nat.reduceMul, Nat.reduceAdd, Nat.reducePow]
  omega

theorem slot_zero (hv : Canonical v) : index v 3 = 0 ↔ v.toNat < 0x8000000000 := by
  have bound := v.isLt
  unfold Canonical at hv
  simp only [index_eq, Nat.reduceMul, Nat.reduceAdd, Nat.reducePow]
  omega

theorem index_two (v : U64) (gibs : Nat) :
    index v 2 < gibs ↔ v.toNat % 0x8000000000 < gibs * 0x40000000 := by
  simp only [index_eq, Nat.reduceMul, Nat.reduceAdd, Nat.reducePow]
  omega

section

variable (h : Layout km)

include h

theorem Layout.lowBytes_le : lowBytes km ≤ 0x8000000000 := by
  have low := h.low
  unfold lowBytes GIB
  omega

/-- Where an address lies that the direct map or the image holds. -/
theorem Layout.hhdm_slot_of (hv : Canonical v) (hle : km.hhdmOffset ≤ v)
    (hlt : (v - km.hhdmOffset).toNat < lowBytes km) : index v 3 = index km.hhdmOffset 3 := by
  have aligned := h.hhdm_aligned
  have low := h.lowBytes_le
  have le : km.hhdmOffset.toNat ≤ v.toNat := hle
  rw [toNat_sub_of_le hle] at hlt
  rw [slot_eq hv h.hhdm_canonical]
  omega

theorem Layout.image_region_of (hle : km.kernelVbase ≤ v)
    (hlt : (v - km.kernelVbase).toNat < 4096 * imagePages km) :
    v.toNat / 0x200000 = km.kernelVbase.toNat / 0x200000 := by
  have aligned := h.image.base
  have pages := h.image.pages
  have le : km.kernelVbase.toNat ≤ v.toNat := hle
  rw [toNat_sub_of_le hle] at hlt
  omega

theorem Layout.image_slot_of (hle : km.kernelVbase ≤ v)
    (hlt : (v - km.kernelVbase).toNat < 4096 * imagePages km) :
    index v 3 = index km.kernelVbase 3 := by
  have region := h.image_region_of hle hlt
  simp only [index_eq, Nat.reduceMul, Nat.reduceAdd, Nat.reducePow]
  omega

/-- **The identity map.** -/
theorem design_low (hv : Canonical v) (h3 : index v 3 = 0) :
    design km v = if index v 2 < lowBytes km / 0x40000000 then some (lowPart v, Prot.rw.access)
      else none := by
  have small := (slot_zero hv).mp h3
  have whole : lowBytes km / 0x40000000 * 0x40000000 = lowBytes km := by unfold lowBytes GIB; omega
  have inside : index v 2 < lowBytes km / 0x40000000 ↔ v.toNat < lowBytes km := by
    rw [index_two, whole]
    omega
  have same : lowPart v = v := by
    apply BitVec.eq_of_toNat_eq
    rw [toNat_lowPart]
    omega
  unfold design
  by_cases hlow : v.toNat < lowBytes km
  · rw [if_pos hlow, if_pos (inside.mpr hlow), same]
  · rw [if_neg hlow, if_neg (fun hc => hlow (inside.mp hc)),
      if_neg fun hc => h.hhdm_slot ((h.hhdm_slot_of hv hc.1 hc.2).symm.trans h3),
      if_neg fun hc => h.image_slot ((h.image_slot_of hc.1 hc.2).symm.trans h3)]

/-- **The direct map.** -/
theorem design_hhdm (hv : Canonical v) (h3 : index v 3 = index km.hhdmOffset 3) :
    design km v = if index v 2 < lowBytes km / 0x40000000 then some (lowPart v, Prot.rw.access)
      else none := by
  have aligned := h.hhdm_aligned
  have low := h.lowBytes_le
  have slot := (slot_eq hv h.hhdm_canonical).mp h3
  have away : ¬ v.toNat < lowBytes km :=
    fun hc => h.hhdm_slot (h3.symm.trans ((slot_zero hv).mpr (by omega)))
  have le : km.hhdmOffset ≤ v := by
    show km.hhdmOffset.toNat ≤ v.toNat
    omega
  have whole : lowBytes km / 0x40000000 * 0x40000000 = lowBytes km := by unfold lowBytes GIB; omega
  have same : v - km.hhdmOffset = lowPart v := by
    apply BitVec.eq_of_toNat_eq
    rw [toNat_sub_of_le le, toNat_lowPart]
    omega
  have inside : index v 2 < lowBytes km / 0x40000000 ↔ (v - km.hhdmOffset).toNat < lowBytes km := by
    rw [index_two, whole, same, toNat_lowPart]
  unfold design
  rw [if_neg away]
  by_cases hlow : (v - km.hhdmOffset).toNat < lowBytes km
  · rw [if_pos ⟨le, hlow⟩, if_pos (inside.mpr hlow), same]
  · rw [if_neg fun hc => hlow hc.2, if_neg fun hc => hlow (inside.mp hc),
      if_neg fun hc => h.apart (h3.symm.trans (h.image_slot_of hc.1 hc.2))]

/-- **The image.** -/
theorem design_image (hv : Canonical v) (h3 : index v 3 = index km.kernelVbase 3) :
    design km v = if inImage km v then
        some (imageFrame km (index v 0) + (v &&& 0xfff),
          (sectionProt km (imageAddr km (index v 0))).access)
      else none := by
  have aligned := h.image.base
  have pages := h.image.pages
  have slot := (slot_eq hv h.image_canonical).mp h3
  have low := h.lowBytes_le
  have away : ¬ v.toNat < lowBytes km :=
    fun hc => h.image_slot (h3.symm.trans ((slot_zero hv).mpr (by omega)))
  have away' : ¬ (km.hhdmOffset ≤ v ∧ (v - km.hhdmOffset).toNat < lowBytes km) := fun hc =>
    h.apart ((h.hhdm_slot_of hv hc.1 hc.2).symm.trans h3)
  -- within the slot, the region and the page are a distance from the base
  have inside : inImage km v ↔ km.kernelVbase ≤ v ∧
    (v - km.kernelVbase).toNat < 4096 * imagePages km := by
    constructor
    · rintro ⟨h2, h1, h0⟩
      simp only [index_eq, Nat.mul_zero, Nat.add_zero, Nat.reduceMul, Nat.reduceAdd,
        Nat.reducePow] at h2 h1 h0
      have le : km.kernelVbase ≤ v := by
        show km.kernelVbase.toNat ≤ v.toNat
        omega
      refine ⟨le, ?_⟩
      rw [toNat_sub_of_le le]
      omega
    · rintro ⟨le, lt⟩
      have region := h.image_region_of le lt
      have hle : km.kernelVbase.toNat ≤ v.toNat := le
      rw [toNat_sub_of_le le] at lt
      unfold inImage
      simp only [index_eq, Nat.mul_zero, Nat.add_zero, Nat.reduceMul, Nat.reduceAdd, Nat.reducePow]
      omega
  unfold design
  rw [if_neg away, if_neg away']
  by_cases hin : inImage km v
  · obtain ⟨le, lt⟩ := inside.mp hin
    have region := h.image_region_of le lt
    have hle : km.kernelVbase.toNat ≤ v.toNat := le
    have addr := h.image.addr (index_lt v 0)
    have number : index v 0 = v.toNat / 4096 % 512 := index_eq v 0
    have page : imageAddr km (index v 0) = pageAlign v := by
      apply BitVec.eq_of_toNat_eq
      have split := toNat_split_mask v 0xfff
      rw [toNat_pageOffset] at split
      rw [addr, pageAlign, number]
      omega
    have sum : imageFrame km (index v 0) + (v &&& 0xfff) = km.kernelPhys +
      (v - km.kernelVbase) := by
      have parts : imageAddr km (index v 0) - km.kernelVbase + (v &&& 0xfff) =
        v - km.kernelVbase := by
        apply BitVec.eq_of_toNat_eq
        have bound := v.isLt
        have first : km.kernelVbase ≤ imageAddr km (index v 0) := by
          show km.kernelVbase.toNat ≤ (imageAddr km (index v 0)).toNat
          omega
        rw [BitVec.toNat_add, toNat_sub_of_le first, toNat_sub_of_le le, toNat_pageOffset,
          addr, number]
        omega
      unfold imageFrame
      rw [BitVec.add_assoc, parts]
    rw [if_pos hin, if_pos ⟨le, lt⟩, sum, page]
  · rw [if_neg hin, if_neg fun hc => hin (inside.mpr hc)]

theorem design_other (hv : Canonical v) (h0 : index v 3 ≠ 0)
    (hh : index v 3 ≠ index km.hhdmOffset 3) (hk : index v 3 ≠ index km.kernelVbase 3) :
    design km v = none := by
  have low := h.lowBytes_le
  unfold design
  rw [if_neg fun hc => h0 ((slot_zero hv).mpr (by omega)), if_neg fun hc =>
    hh (h.hhdm_slot_of hv hc.1 hc.2), if_neg fun hc => hk (h.image_slot_of hc.1 hc.2)]

end

end

end Paging

open Fallible Flags Paging Radix

/-! ## x86-64 -/

namespace X86

/-- **The tables of the kernel's space show the design.** -/
theorem BootTables.view {km : KernelMap} {pml4 : U64} {used : List U64} {mem : Mem U64}
    (h : BootTables km pml4 used mem) (hkm : Layout km)
    (hframe : ∀ k, k < imagePages km → entries.IsFrame (imageFrame km k))
    (hused : ∀ t ∈ used, entries.IsFrame t) {v : U64} (hv : Canonical v) :
    view mem pml4 v = design km v := by
  have gibs : lowGibs km = lowBytes km / 0x40000000 := by
    unfold lowGibs lowBytes GIB
    omega
  by_cases h0 : index v 3 = 0
  · rw [X86.view, h.low.view lawful reads hused h0, gibs, design_low hkm hv h0]
  by_cases hh : index v 3 = index km.hhdmOffset 3
  · rw [X86.view, h.hhdm.view lawful reads hused hh, gibs, design_hhdm hkm hv hh]
  by_cases hk : index v 3 = index km.kernelVbase 3
  · rw [X86.view, h.image.view lawful reads hkm.image hframe hused hk, design_image hkm hv hk]
  · rw [X86.view, view_absent lawful (h.rest _ h0 hh hk), design_other hkm hv h0 hh hk]

/-- What the boot protocol and the linker hand to `build_address_space`. -/
structure Handoff (km : KernelMap) : Prop where
  identity : km.identityBytes = 0x100000000
  hhdm_canonical : Canonical km.hhdmOffset
  hhdm_aligned : km.hhdmOffset.toNat % 0x8000000000 = 0
  slots : Slots km
  image_canonical : Canonical km.kernelVbase
  image_aligned : km.kernelVbase.toNat % 0x200000 = 0
  end_aligned : km.kernelVend.toNat % 4096 = 0
  image_size : km.kernelVend.toNat - km.kernelVbase.toNat ≤ 0x200000
  phys_aligned : km.kernelPhys.toNat % 4096 = 0
  phys_small : km.kernelPhys.toNat < 0x8000000000000

section

variable {km : KernelMap}

theorem Handoff.layout (h : Handoff km) : Layout km where
  low := by rw [h.identity]; decide
  hhdm_canonical := h.hhdm_canonical
  hhdm_aligned := h.hhdm_aligned
  image_canonical := h.image_canonical
  image := ⟨h.image_aligned, h.image_size⟩
  hhdm_slot := h.slots.hhdm
  image_slot := h.slots.kernel
  apart := h.slots.apart

/-- Whole pages. -/
theorem Handoff.pages (h : Handoff km) :
    4096 * imagePages km = km.kernelVend.toNat - km.kernelVbase.toNat := by
  have base := h.image_aligned
  have top := h.end_aligned
  unfold imagePages
  omega

theorem Handoff.fits (h : Handoff km) : ImageFits km where
  phys := by
    have pages := h.pages
    have size := h.image_size
    have phys := h.phys_small
    omega
  virt := by
    have pages := h.pages
    have bound := km.kernelVbase.isLt
    have top := km.kernelVend.isLt
    omega

/-- A page-aligned address below 2^52. -/
theorem isFrame_of_small {pa : U64} (ha : pa.toNat % 4096 = 0) (hs : pa.toNat < 0x10000000000000) :
    entries.IsFrame pa :=
  Entries.isFrame_of_lt (k := 52) (by decide) (by decide) ha hs

theorem Handoff.frame (h : Handoff km) {k : Nat} (hk : k < imagePages km) :
    entries.IsFrame (imageFrame km k) := by
  have pages := h.layout.image.pages
  have phys := h.phys_small
  have aligned := h.phys_aligned
  have offset : (imageAddr km k - km.kernelVbase).toNat = 4096 * k := (imageAddr_toNat h.fits hk).2
  have addr : (imageFrame km k).toNat = km.kernelPhys.toNat + 4096 * k := by
    unfold imageFrame
    rw [BitVec.toNat_add, offset]
    omega
  exact isFrame_of_small (by omega) (by omega)

end

/-- In `space`, `v` stands for `pa`, with protection `prot`. -/
def Shown (m : Machine Regs) (space : AddressSpace) (v pa : U64) (prot : Prot) : Prop :=
  translate (inSpace m space) v = some pa ∧ pageProt (inSpace m space) v = some prot.access

/-- In `space`, nothing is mapped at `v`. -/
def Unmapped (m : Machine Regs) (space : AddressSpace) (v : U64) : Prop :=
  translate (inSpace m space) v = none ∧ pageProt (inSpace m space) v = none

/-- **The kernel's space is as designed.**  With frames enough `build_address_space` returns, and
in the space it returns a canonical address stands for itself below 4 GiB, for its distance from
`hhdm_offset` within 4 GiB above that, and in the image for the image's own memory, with the
protection of the section that its page lies in; everything else is unmapped. -/
theorem kernel_space_exact (km : KernelMap) (hkm : Handoff km) (m : Machine Regs)
    (hm : backend.Supplied m) :
    Ends (buildAddressSpace km) m
      (fun space m' => ∀ v, Canonical v →
        (v.toNat < 0x100000000 → Shown m' space v v .rw) ∧
        (km.hhdmOffset.toNat ≤ v.toNat → v.toNat < km.hhdmOffset.toNat + 0x100000000 →
          Shown m' space v (v - km.hhdmOffset) .rw) ∧
        (km.kernelVbase.toNat ≤ v.toNat → v.toNat < km.kernelVend.toNat →
          Shown m' space v (km.kernelPhys + (v - km.kernelVbase)) (sectionProt km (pageAlign v))) ∧
        (¬ v.toNat < 0x100000000 →
          ¬ (km.hhdmOffset.toNat ≤ v.toNat ∧ v.toNat < km.hhdmOffset.toNat + 0x100000000) →
          ¬ (km.kernelVbase.toNat ≤ v.toNat ∧ v.toNat < km.kernelVend.toNat) → Unmapped m' space v))
      (fun e _ => e = .outOfFrames ∧ m.supply.length < bootFrames km) := by
  refine (buildAddressSpace_spec hm.nodup km hkm.slots).imp (fun space m' hQ v hv =>
    ?_) (fun e _ he => ?_)
  case refine_2 =>
    rcases he with he | ⟨_, hc⟩
    · exact he
    · exact absurd hkm.fits hc
  obtain ⟨pml4, pdpt, pds, used, rfl, built, tables, _⟩ := hQ
  have frames : ∀ t ∈ used, entries.IsFrame t := fun t ht =>
    hm.frame t (by rw [built.supply]; exact List.mem_append_left _ ht)
  have root : pml4 &&& ADDR_MASK = pml4 := frames pml4 (built.tables pml4 List.mem_cons_self)
  have shows := tables.view hkm.layout (fun k => hkm.frame) frames hv
  have read := walk_view (inSpace m' ⟨pml4, 0⟩) v
  change translate _ v = (view m'.mem (pml4 &&& ADDR_MASK) v).map _ ∧
    pageProt _ v = (view m'.mem (pml4 &&& ADDR_MASK) v).map _ at read
  rw [root, shows] at read
  -- the ranges of the design, in the words of the statement
  have low : lowBytes km = 0x100000000 := by
    unfold lowBytes GIB
    rw [hkm.identity]
    decide
  have pages := hkm.pages
  have direct : (km.hhdmOffset ≤ v ∧ (v - km.hhdmOffset).toNat < lowBytes km) ↔
      (km.hhdmOffset.toNat ≤ v.toNat ∧ v.toNat < km.hhdmOffset.toNat + 0x100000000) := by
    rw [low]
    refine and_congr_right fun le => ?_
    rw [toNat_sub_of_le le]
    omega
  have image : (km.kernelVbase ≤ v ∧ (v - km.kernelVbase).toNat < 4096 * imagePages km) ↔
      (km.kernelVbase.toNat ≤ v.toNat ∧ v.toNat < km.kernelVend.toNat) := by
    rw [pages]
    refine and_congr_right fun le => ?_
    have le' : km.kernelVbase.toNat ≤ v.toNat := le
    rw [toNat_sub_of_le le]
    omega
  have slot := hkm.layout
  have lowBytes_le := slot.lowBytes_le
  refine ⟨fun h => ?_, fun h1 h2 => ?_, fun h1 h2 => ?_, fun h1 h2 h3 => ?_⟩
  · have shown : design km v = some (v, Prot.rw.access) := if_pos (by rw [low]; exact h)
    rw [shown] at read
    exact read
  · have there := direct.mpr ⟨h1, h2⟩
    have away : ¬ v.toNat < lowBytes km := fun hc =>
      slot.hhdm_slot ((slot.hhdm_slot_of hv there.1 there.2).symm.trans
      ((slot_zero hv).mpr (by omega)))
    have shown : design km v = some (v - km.hhdmOffset, Prot.rw.access) :=
      (if_neg away).trans (if_pos there)
    rw [shown] at read
    exact read
  · have there := image.mpr ⟨h1, h2⟩
    have here := slot.image_slot_of there.1 there.2
    have away : ¬ v.toNat < lowBytes km :=
      fun hc => slot.image_slot (here.symm.trans ((slot_zero hv).mpr (by omega)))
    have shown : design km v = some (km.kernelPhys + (v - km.kernelVbase),
      (sectionProt km (pageAlign v)).access) := (if_neg away).trans ((if_neg fun hc =>
      slot.apart ((slot.hhdm_slot_of hv hc.1 hc.2).symm.trans here)).trans (if_pos there))
    rw [shown] at read
    exact read
  · have shown : design km v = none :=
      (if_neg (by rw [low]; exact h1)).trans ((if_neg fun hc => h2 (direct.mp hc)).trans
        (if_neg fun hc => h3 (image.mp hc)))
    rw [shown] at read
    exact read

theorem plainMap_handoff : Handoff plainMap where
  identity := rfl
  hhdm_canonical := by decide
  hhdm_aligned := by decide
  slots := plainMap_slots
  image_canonical := by decide
  image_aligned := by decide
  end_aligned := by decide
  image_size := by decide
  phys_aligned := by decide
  phys_small := by decide

/-- A data address of the image, and one past its end. -/
theorem kernel_space_exact_plain :
    ∃ space m', buildAddressSpace plainMap plainMachine = .ok space m' ∧
    Shown m' space 0xffffffff80001234 0x201234 .rw ∧ Unmapped m' space 0xffffffff80002000 := by
  have exact := kernel_space_exact plainMap plainMap_handoff plainMachine plainMachine_supplied
  have frames : plainMachine.supply.length = 600 := by simp [plainMachine, plainFrames]
  obtain ⟨space, m', hbuild, shown⟩ := exact.returns fun e t he => by
    rw [frames] at he
    exact absurd he.2 (by decide)
  refine ⟨space, m', hbuild, ?_, ?_⟩
  · exact (shown 0xffffffff80001234 (by decide)).2.2.1 (by decide) (by decide)
  · exact (shown 0xffffffff80002000 (by decide)).2.2.2 (by decide) (by decide) (by decide)

end X86

end Praesidium
