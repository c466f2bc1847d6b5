import Praesidium.Kernel.PagingBoot
import Praesidium.Kernel.PagingEdit

/-!
What a space shows: the physical address and the protection of every virtual one, as
`translate` and `page_prot` of either backend report them.

`Entries.Reads` says how the leaves that the programs write are read back: a leaf gives the
address and the protection it was made of, and a split leaf page by page what it gave before.
With it the tables that are built have a closed view:

    mapLow      under entry i, the low 39 bits of v, for the gibibytes that are mapped
        (LowArea.view)
    mapKernel   the page of the image, or nothing
        (ImageArea.view)

and an edit shows on its page, and nowhere else (Edited.view_page, Edited.view_rest).
-/

namespace Praesidium

/-- `(writable, executable)` -/
def Prot.access : Prot → Bool × Bool
  | .ro => (false, false)
  | .rw => (true, false)
  | .rx => (false, true)

namespace Paging

open Flags Radix

/-! ## Views -/

/-- The address that a leaf at a level gives `v`. -/
def Entries.target (d : Entries) (v : U64) (level : Nat) (e : U64) : U64 :=
  (e &&& d.addrMask &&& ~~~offsetMask level) + (v &&& offsetMask level)

/-- What a leaf shows at `v`. -/
def Entries.leafView (d : Entries)
    (access : U64 → Bool × Bool) (v : U64) (leaf : Option (Nat × U64)) :
    Option (U64 × (Bool × Bool)) := leaf.map fun (level, e) => (d.target v level e, access e)

/-- What the tables under a root show at `v`. -/
def Entries.view (d : Entries) (access : U64 → Bool × Bool) (mem : Mem U64) (root v : U64) :
    Option (U64 × (Bool × Bool)) := d.leafView access v (walk d.format mem (index v) 3 root)

/-- The address of leaf `j` of gibibyte `g`. -/
def lowAddr (g j : Nat) : U64 := BitVec.ofNat 64 g <<< 30 ||| BitVec.ofNat 64 j <<< 21

/-- How leaves are read back. -/
structure Entries.Reads (d : Entries) (access : U64 → Bool × Bool) : Prop where
  mask_page : d.addrMask &&& ~~~0xfff = d.addrMask
  present_low : ∀ g j, g < 512 → j < 512 → d.present (d.lowLeaf g j) = true
  isLeaf_low : ∀ g j, g < 512 → j < 512 → d.isLeaf 1 (d.lowLeaf g j) = true
  addr_low : ∀ g j, g < 512 → j < 512 → d.lowLeaf g j &&& d.addrMask &&& ~~~0x1fffff = lowAddr g j
  access_low : ∀ g j, g < 512 → j < 512 → access (d.lowLeaf g j) = Prot.rw.access
  present_page : ∀ pa prot, d.present (d.page pa prot) = true
  addr_page : ∀ pa prot, d.IsFrame pa → d.page pa prot &&& d.addrMask = pa
  access_page : ∀ pa prot, d.IsFrame pa → access (d.page pa prot) = prot.access
  present_split : ∀ e j, j < 512 → d.present e = true → d.present (d.split e j) = true
  addr_split : ∀ e j, j < 512 →
    d.split e j &&& d.addrMask = (e &&& d.addrMask &&& ~~~0x1fffff) + BitVec.ofNat 64 j * PAGE
  access_split : ∀ e j, j < 512 → access (d.split e j) = access e

/-! ## Words -/

theorem toNat_low21 (v : U64) : (v &&& 0x1fffff).toNat = v.toNat % 0x200000 := by
  rw [BitVec.toNat_and]
  exact Nat.and_two_pow_sub_one_eq_mod v.toNat 21

variable {j k g : Nat} {pa e : U64}

/-- The offset of page `j` of a 2 MiB region. -/
theorem toNat_pageOf (hj : j < 512) : (BitVec.ofNat 64 j * PAGE).toNat = 4096 * j := by
  have hpage : PAGE.toNat = 4096 := by decide
  rw [BitVec.toNat_mul, BitVec.toNat_ofNat, hpage]
  omega

theorem and_page_of_aligned {x : U64} (hx : x.toNat % 4096 = 0) : x &&& ~~~0xfff = x := by
  apply BitVec.eq_of_toNat_eq
  have whole := toNat_split_mask x 0xfff
  rw [toNat_pageOffset] at whole
  omega

/-- The page of an address that fits the bits of the mask. -/
theorem Entries.frame_of_lt {d : Entries} (hk : k < 64)
    (hmask : BitVec.ofNat 64 (2 ^ k - 1) &&& ~~~0xfff = d.addrMask) (hs : pa.toNat < 2 ^ k) :
    pa &&& d.addrMask = pageAlign pa := by
  have bits : 2 ^ k < 2 ^ 64 := Nat.pow_lt_pow_right (by decide) hk
  have small : pa &&& BitVec.ofNat 64 (2 ^ k - 1) = pa := by
    apply BitVec.eq_of_toNat_eq
    rw [BitVec.toNat_and, BitVec.toNat_ofNat, Nat.mod_eq_of_lt (by omega),
      Nat.and_two_pow_sub_one_eq_mod]
    exact Nat.mod_eq_of_lt hs
  rw [← hmask, ← BitVec.and_assoc, small]
  rfl

theorem Entries.isFrame_of_lt {d : Entries} (hk : k < 64)
    (hmask : BitVec.ofNat 64 (2 ^ k - 1) &&& ~~~0xfff = d.addrMask) (ha : pa.toNat % 4096 = 0)
    (hs : pa.toNat < 2 ^ k) : d.IsFrame pa := by
  show pa &&& d.addrMask = pa
  rw [Entries.frame_of_lt hk hmask hs]
  exact and_page_of_aligned ha

theorem lowAddr_masked (hg : g < 512) (hj : j < 512) :
    lowAddr g j &&& 0x7fffe00000 = lowAddr g j := by
  have high : ∀ g < 512, (BitVec.ofNat 64 g <<< 30 : U64) &&& (0x7fffe00000 : U64) =
    BitVec.ofNat 64 g <<< 30 := by
    decide +kernel
  have low : ∀ j < 512, (BitVec.ofNat 64 j <<< 21 : U64) &&& (0x7fffe00000 : U64) =
    BitVec.ofNat 64 j <<< 21 := by
    decide +kernel
  exact or_masked (high g hg) (low j hj)

theorem lowAddr_kept {mask : U64} (hg : g < 512) (hj : j < 512)
    (hmask : 0x7fffe00000 &&& mask = 0x7fffe00000) : lowAddr g j &&& mask = lowAddr g j := by
  rw [← lowAddr_masked hg hj, BitVec.and_assoc, hmask]

theorem toNat_lowAddr (hg : g < 512) (hj : j < 512) :
    (lowAddr g j).toNat = 0x40000000 * g + 0x200000 * j := by
  unfold lowAddr
  have high : (BitVec.ofNat 64 g <<< 30 : U64).toNat = g <<< 30 := by
    rw [BitVec.toNat_shiftLeft, BitVec.toNat_ofNat, Nat.shiftLeft_eq, Nat.shiftLeft_eq]
    omega
  have low : (BitVec.ofNat 64 j <<< 21 : U64).toNat = 0x200000 * j := by
    rw [BitVec.toNat_shiftLeft, BitVec.toNat_ofNat, Nat.shiftLeft_eq]
    omega
  rw [BitVec.toNat_or, high, low, ← Nat.shiftLeft_add_eq_or_of_lt (by omega), Nat.shiftLeft_eq]
  omega

/-! ## Single leaves -/

variable {d : Entries} {access : U64 → Bool × Bool}

/-- The low 39 bits of an address. -/
def lowPart (v : U64) : U64 := v &&& 0x7fffffffff

theorem toNat_lowPart (v : U64) : (lowPart v).toNat = v.toNat % 0x8000000000 := by
  unfold lowPart
  rw [BitVec.toNat_and]
  exact Nat.and_two_pow_sub_one_eq_mod v.toNat 39

/-- A leaf of the physical map. -/
theorem Entries.Reads.target_low (hr : d.Reads access) (v : U64) :
    d.target v 1 (d.lowLeaf (index v 2) (index v 1)) = lowPart v := by
  show (d.lowLeaf (index v 2) (index v 1) &&& d.addrMask &&& ~~~0x1fffff) + (v &&& 0x1fffff) = _
  rw [hr.addr_low _ _ (index_lt v 2) (index_lt v 1)]
  apply BitVec.eq_of_toNat_eq
  rw [BitVec.toNat_add, toNat_lowAddr (index_lt v 2) (index_lt v 1), toNat_low21, toNat_lowPart]
  simp only [index_eq, Nat.reduceAdd, Nat.reduceMul, Nat.reducePow]
  omega

/-- A page. -/
theorem Entries.Reads.view_present (hr : d.Reads access) (hp : d.present e = true)
    (ha : e &&& d.addrMask = pa) (v : U64) :
    d.leafView access v (d.pageAt e) = some (pa + (v &&& 0xfff), access e) := by
  have addr : e &&& d.addrMask &&& ~~~0xfff = pa := by rw [BitVec.and_assoc, hr.mask_page, ha]
  unfold Entries.pageAt
  rw [if_pos hp]
  exact congrArg (fun a => some (a + (v &&& 0xfff), access e)) addr

theorem Entries.Reads.view_page (hr : d.Reads access) (hpa : d.IsFrame pa) (prot : Prot) (v : U64) :
    d.leafView access v (d.pageAt (d.page pa prot)) = some (pa + (v &&& 0xfff), prot.access) := by
  rw [hr.view_present (hr.present_page pa prot) (hr.addr_page pa prot hpa),
    hr.access_page pa prot hpa]

/-- **A split leaf shows what it showed.** -/
theorem Entries.Reads.view_split (hr : d.Reads access) (he : d.present e = true) (v : U64) :
    d.leafView access v (d.pageAt (d.split e (index v 0))) = d.leafView access v (some (1, e)) := by
  have hj := index_lt v 0
  have offset : BitVec.ofNat 64 (index v 0) * PAGE + (v &&& 0xfff) = v &&& 0x1fffff := by
    apply BitVec.eq_of_toNat_eq
    rw [BitVec.toNat_add, toNat_pageOf hj, toNat_pageOffset, toNat_low21, index_eq]
    simp only [Nat.mul_zero, Nat.add_zero, Nat.reducePow]
    omega
  have addr : d.split e (index v 0) &&& d.addrMask &&& ~~~0xfff =
      (e &&& d.addrMask &&& ~~~0x1fffff) + BitVec.ofNat 64 (index v 0) * PAGE := by
    rw [BitVec.and_assoc, hr.mask_page, hr.addr_split e _ hj]
  unfold Entries.pageAt
  rw [if_pos (hr.present_split e _ hj he)]
  show some ((d.split e (index v 0) &&& d.addrMask &&& ~~~0xfff) + (v &&& 0xfff),
    access (d.split e (index v 0))) =
    some ((e &&& d.addrMask &&& ~~~0x1fffff) + (v &&& 0x1fffff), access e)
  rw [addr, hr.access_split e _ hj, BitVec.add_assoc, offset]

/-! ## Edits -/

section

variable {R ω : Type} {O : Owners ω} {leaf link : Place ω → Nat → U64 → Prop}
  {ty : U64 → Option (Place ω)} {m m' : Machine R} {s : ω} {root v e : U64}

variable {w t : U64} {s' : ω}

variable (hd : d.Lawful) (hk : d.Keeps (O.shape 3 leaf link))
  (h : Heap d (O.shape 3 leaf link) ty m) (hroot : ty root = some (O.place s []))

include hd hk h hroot

/-- A region that is one leaf. -/
theorem Entries.Mapped.view_block (hm : d.Mapped m.mem root v)
    (hl : d.isLeaf 1 (d.pdeOf m.mem root v) = true) (hw : region w = region v) :
    d.view access m.mem root w = d.leafView access w (some (1, d.pdeOf m.mem root v)) := by
  obtain ⟨mapped, _, _, pde⟩ := hm.of_region hw
  have link4 := root_entry_link hk h.typed hroot rfl (index_lt w 3) mapped.pml4e
  unfold Entries.view
  rw [mapped.walk_block hd link4 (by rw [pde]; exact hl), pde]

theorem Edited.view_page (he : Edited d root v e m m') (hw : path w = path v) :
    d.view access m'.mem root w = d.leafView access w (d.pageAt e) := by
  unfold Entries.view
  rw [he.walk_page hd hk h hroot hw]

/-- **An edit shows on its page only**, whether or not a leaf is split. -/
theorem Edited.view_rest (hr : d.Reads access) (he : Edited d root v e m m')
    (hw : path w ≠ path v) :
    d.view access m'.mem root w = d.view access m.mem root w := by
  by_cases hreg : region w = region v
  case neg => exact congrArg _ (he.walk_off hd hk h hroot (.inl hreg) h.typed)
  by_cases hl : d.isLeaf 1 (d.pdeOf m.mem root v) = true
  · rw [he.1.view_block hd hk h hroot hl hreg]
    unfold Entries.view
    rw [he.walk_split hd hk h hroot hreg hw hl]
    exact hr.view_split he.1.pde w
  · exact congrArg _ (he.walk_off hd hk h hroot (.inr ⟨hw, eq_false_of_ne_true hl⟩) h.typed)

/-- From a root that shares no tables there, it does not show at all. -/
theorem Edited.view_other (he : Edited d root v e m m') (ht : ty t = some (O.place s' []))
    (hne : ∀ p, O.own s' p ≠ O.own s p) (w : U64) :
    d.view access m'.mem t w = d.view access m.mem t w :=
  congrArg _ (he.walk_same hd hk h hroot ht (fun hc => absurd hc (hne _)) (fun hc =>
  absurd hc (hne _)) h.typed)

/-- Making sure of a table of pages changes nothing that is shown, from its root or from one that
shares no tables with it. -/
theorem Ensured.view_eq (hr : d.Reads access) (hm : d.Mapped m.mem root v) {pt : U64}
    (he : Ensured d root v m pt m') (ht : ty t = some (O.place s' []))
    (hcase : t = root ∨ ∀ p, O.own s' p ≠ O.own s p) (w : U64) :
    d.view access m'.mem t w = d.view access m.mem t w := by
  have pd := (hm.places hd hk h hroot).2
  have apart : ∀ rest, m.supply = pt :: rest → pt ≠ d.pdOf m.mem root v := fun rest hs hc =>
    h.not_free pd (by rw [hs, hc]; exact List.mem_cons_self)
  have split : ∀ rest, d.isLeaf 1 (d.pdeOf m.mem root v) = true → m.supply = pt :: rest →
      d.view access m'.mem t w = d.view access m.mem t w := fun rest hl hs => by
    have edited := he.edited hm hl (apart rest hs)
    rcases hcase with rfl | hne
    · by_cases hpath : path w = path v
      · obtain ⟨hregion, i0⟩ := region_of_path hpath
        rw [edited.view_page hd hk h hroot hpath, hm.view_block hd hk h hroot hl hregion, ← i0]
        exact hr.view_split hm.pde w
      · exact edited.view_rest hd hk h hroot hr hpath
    · exact edited.view_other hd hk h hroot ht hne w
  cases he with
  | found _ => rfl
  | split hl hs => exact split _ hl hs

end

/-! ## The tables that are built -/

section

variable {mem : Mem U64} {root v : U64} {used : List U64}

theorem view_absent (hd : d.Lawful) (h : mem root (index v 3) = 0) :
    d.view access mem root v = none := by
  unfold Entries.view
  rw [walk_absent (by rw [h]; exact hd.present_zero)]
  rfl

variable {n : Nat} {km : KernelMap}

/-- A walk through a link that was written. -/
theorem walk_table (hd : d.Lawful) {t f : U64} (hf : d.IsFrame f)
    (he : mem t (index v (n + 1)) = f ||| d.tableBits) :
    walk d.format mem (index v) (n + 1) t = walk d.format mem (index v) n f := by
  have present : d.format.present (mem t (index v (n + 1))) = true := by
    rw [he]; exact hd.present_table f hf
  have link : d.format.isLeaf (n + 1) (mem t (index v (n + 1))) = false := by
    rw [he]; exact hd.isLeaf_table _ f hf
  rw [walk_link present link, he, hd.next_table hf]

/-- **The low physical map.** -/
theorem LowArea.view (hd : d.Lawful) (hr : d.Reads access) {i gibs : Nat}
    (h : LowArea d root i gibs used mem) (hused : ∀ t ∈ used, d.IsFrame t) (hv : index v 3 = i) :
    d.view access mem root v = if index v 2 < gibs then some (lowPart v, Prot.rw.access)
      else none := by
  obtain ⟨pdpt, pds, hlen, hmem, tables⟩ := h
  have frames : ∀ t ∈ pdpt :: pds, d.IsFrame t := fun t ht => hused t (hmem t ht)
  unfold Entries.view
  rw [walk_table hd (frames pdpt List.mem_cons_self) (by rw [hv]; exact tables.root_entry)]
  by_cases hg : index v 2 < gibs
  · have some_pd : ∃ pd, pds[index v 2]? = some pd := ⟨_, List.getElem?_eq_getElem (by omega)⟩
    obtain ⟨pd, hpd⟩ := some_pd
    have pd_frame := frames pd (List.mem_cons_of_mem _ (List.mem_of_getElem? hpd))
    have entry : mem pd (index v 1) = d.lowLeaf (index v 2) (index v 1) := by
      rw [tables.pd_entries _ pd hpd, full_of_lt _ (index_lt v 1)]
    have present : d.format.present (mem pd (index v 1)) = true := by
      rw [entry]; exact hr.present_low _ _ (index_lt v 2) (index_lt v 1)
    have leaf : d.format.isLeaf 1 (mem pd (index v 1)) = true := by
      rw [entry]; exact hr.isLeaf_low _ _ (index_lt v 2) (index_lt v 1)
    rw [if_pos hg, walk_table hd pd_frame (tables.pdpt_entry _ pd hpd),
      walk_leaf present leaf, entry]
    show some (d.target v 1 _, access _) = _
    rw [hr.target_low, hr.access_low _ _ (index_lt v 2) (index_lt v 1)]
  · have absent : d.format.present (mem pdpt (index v 2)) = false := by
      rw [tables.pdpt_other _ (by omega)]; exact hd.present_zero
    rw [if_neg hg, walk_absent absent]
    rfl

/-- The image fits in the region of its table. -/
structure ImageAligned (km : KernelMap) : Prop where
  base : km.kernelVbase.toNat % 0x200000 = 0
  size : km.kernelVend.toNat - km.kernelVbase.toNat ≤ 0x200000

theorem ImageAligned.pages (hkm : ImageAligned km) : imagePages km ≤ 512 := by
  have size := hkm.size
  unfold imagePages
  omega

theorem ImageAligned.addr (hkm : ImageAligned km) {k : Nat} (hk : k < 512) :
    (imageAddr km k).toNat = km.kernelVbase.toNat + 4096 * k := by
  have base := hkm.base
  have bound := km.kernelVbase.isLt
  unfold imageAddr
  rw [BitVec.toNat_add, toNat_pageOf hk]
  omega

/-- Page by page, the table of an aligned image. -/
theorem imageTable_eq (hkm : ImageAligned km) (hn : n ≤ 512) (i : Nat) :
    d.imageTable km n i = if i < n then d.imageLeaf km i else 0 := by
  induction n with
  | zero => rfl
  | succ n ih =>
    have slot : index (imageAddr km n) 0 = n := by
      have base := hkm.base
      rw [index_eq, hkm.addr (by omega)]
      simp only [Nat.mul_zero, Nat.add_zero, Nat.reducePow]
      omega
    rw [Entries.imageTable, slot]
    by_cases hi : i = n
    · subst hi
      rw [Function.update_self, if_pos (Nat.lt_succ_self i)]
    · rw [Function.update_of_ne hi, ih (by omega)]
      by_cases hlt : i < n
      · rw [if_pos hlt, if_pos (Nat.lt_succ_of_lt hlt)]
      · rw [if_neg hlt, if_neg (by omega)]

/-- The frame of page `k` of the image. -/
def imageFrame (km : KernelMap) (k : Nat) : U64 := km.kernelPhys + (imageAddr km k - km.kernelVbase)

/-- An address of the region of the image, by its page there. -/
def inImage (km : KernelMap) (v : U64) : Prop :=
  index v 2 = index km.kernelVbase 2 ∧ index v 1 = index km.kernelVbase 1 ∧
    index v 0 < imagePages km

instance (km : KernelMap) (v : U64) : Decidable (inImage km v) :=
  inferInstanceAs (Decidable (_ ∧ _))

/-- **The image.** -/
theorem ImageArea.view (hd : d.Lawful) (hr : d.Reads access) (hkm : ImageAligned km)
    (hframe : ∀ k, k < imagePages km → d.IsFrame (imageFrame km k))
    (h : ImageArea d root km used mem) (hused : ∀ t ∈ used, d.IsFrame t)
    (hv : index v 3 = index km.kernelVbase 3) :
    d.view access mem root v =
      if inImage km v then
        some (imageFrame km (index v 0) + (v &&& 0xfff),
          (sectionProt km (imageAddr km (index v 0))).access)
      else none := by
  obtain ⟨pdpt, pd, pt, ⟨hpdpt, hpd, hpt⟩, tables⟩ := h
  unfold Entries.view
  rw [walk_table hd (hused pdpt hpdpt) (by rw [hv]; exact tables.root_entry)]
  by_cases h2 : index v 2 = index km.kernelVbase 2
  case neg =>
    have absent : d.format.present (mem pdpt (index v 2)) = false := by
      rw [tables.pdpt_entries, Function.update_of_ne h2]; exact hd.present_zero
    rw [if_neg fun hc => h2 hc.1, walk_absent absent]
    rfl
  rw [walk_table hd (hused pd hpd) (by rw [tables.pdpt_entries, h2, Function.update_self])]
  by_cases h1 : index v 1 = index km.kernelVbase 1
  case neg =>
    have absent : d.format.present (mem pd (index v 1)) = false := by
      rw [tables.pd_entries, Function.update_of_ne h1]; exact hd.present_zero
    rw [if_neg fun hc => h1 hc.2.1, walk_absent absent]
    rfl
  rw [walk_table hd (hused pt hpt) (by rw [tables.pd_entries, h1, Function.update_self])]
  have entry : mem pt (index v 0) = if index v 0 < imagePages km then d.imageLeaf km (index v 0)
    else 0 := by
    rw [tables.pt_entries, imageTable_eq hkm hkm.pages]
  show d.leafView access v (d.pageAt (mem pt (index v 0))) = _
  rw [entry]
  by_cases h0 : index v 0 < imagePages km
  · rw [if_pos h0, if_pos (show inImage km v from ⟨h2, h1, h0⟩)]
    exact hr.view_page (hframe _ h0) _ v
  · rw [if_neg h0, if_neg fun hc => h0 hc.2.2]
    rw [hd.pageAt_zero]
    rfl

end

end Paging

open Flags Paging Radix

/-! ## x86-64 -/

namespace X86

def access (e : U64) : Bool × Bool := (has e WRITABLE, !has e NX)

/-- What the tables under a root show. -/
abbrev view (mem : Mem U64) (root v : U64) : Option (U64 × (Bool × Bool)) :=
  entries.view access mem root v

theorem walk_view (m : Machine Regs) (v : U64) :
    translate m v = (view m.mem (m.regs.cr3 &&& ADDR_MASK) v).map Prod.fst ∧
      pageProt m v = (view m.mem (m.regs.cr3 &&& ADDR_MASK) v).map Prod.snd := by
  unfold translate pageProt walk view Entries.view Entries.leafView
  rw [walkFrom_eq, Entries.walkFrom, Option.map_map, Option.map_map, Option.map_map, Option.map_map]
  exact ⟨rfl, rfl⟩

theorem access_leafBits (prot : Prot) :
    (has (leafBits prot) WRITABLE, !has (leafBits prot) NX) = prot.access := by
  decide +revert

theorem reads : entries.Reads access where
  mask_page := by decide
  present_low g j _ _ := present_block _
  isLeaf_low g j _ _ := isLeaf_block _
  addr_low g j hg hj := by
    show (lowAddr g j ||| PRESENT ||| WRITABLE ||| HUGE ||| NX) &&& ADDR_MASK &&& ~~~0x1fffff = _
    have masked : lowAddr g j &&& (ADDR_MASK &&& ~~~0x1fffff) = lowAddr g j :=
      lowAddr_kept hg hj (by decide)
    rw [BitVec.and_assoc, BitVec.or_assoc, BitVec.or_assoc, BitVec.or_assoc]
    exact or_and_of_masked masked (by decide)
  access_low g j _ _ := by
    have writable : has (entries.lowLeaf g j) WRITABLE = true := by
      show has (_ ||| PRESENT ||| WRITABLE ||| HUGE ||| NX) WRITABLE = true
      exact has_or_left _ (has_or_left _ (has_or_right _ (by decide)))
    have closed : has (entries.lowLeaf g j) NX = true := by
      show has (_ ||| PRESENT ||| WRITABLE ||| HUGE ||| NX) NX = true
      exact has_or_right _ (by decide)
    unfold access
    rw [writable, closed]
    rfl
  present_page pa prot := by
    show has (pa ||| leafBits prot) PRESENT = true
    refine has_or_right _ ?_
    decide +revert
  addr_page pa prot hpa := by
    refine or_and_of_masked hpa ?_
    decide +revert
  access_page pa prot hpa := by
    show (has (pa ||| leafBits prot) WRITABLE, !has (pa ||| leafBits prot) NX) = _
    rw [has_or, has_or, Entries.has_frame hpa (by decide), Entries.has_frame hpa (by decide),
      Bool.false_or, Bool.false_or]
    exact access_leafBits prot
  present_split e j hj he := by
    show has (entries.split e j) PRESENT = true
    rw [has_split e hj (by decide) (by decide)]
    exact he
  addr_split e j hj := by
    have frame := splitAddr_frame (d := entries) (by decide) e hj
    have outside : ~~~ADDR_MASK &&& ~~~HUGE &&& ADDR_MASK = 0 := by decide
    have flags : e &&& ~~~ADDR_MASK &&& ~~~HUGE &&& ADDR_MASK = 0 := by
      rw [BitVec.and_assoc e, BitVec.and_assoc e, outside]
      exact BitVec.and_zero
    exact or_and_of_masked frame flags
  access_split e j hj := by
    unfold access
    rw [has_split e hj (by decide) (by decide), has_split e hj (by decide) (by decide)]

end X86

/-! ## aarch64 -/

namespace Aarch64

def access (e : U64) : Bool × Bool := (!has e AP_RO, !has e PXN)

/-- What the tables under a root show. -/
abbrev view (mem : Mem U64) (root v : U64) : Option (U64 × (Bool × Bool)) :=
  entries.view access mem root v

theorem walk_view (m : Machine Regs) (v : U64) :
    translate m v = (view m.mem (rootFor m.regs v) v).map Prod.fst ∧
      pageProt m v = (view m.mem (rootFor m.regs v) v).map Prod.snd := by
  unfold translate pageProt view Entries.view Entries.leafView
  rw [walk_eq, Entries.walkFrom, Option.map_map, Option.map_map, Option.map_map, Option.map_map]
  exact ⟨rfl, rfl⟩

/-- The attributes of a leaf of the physical map, of device memory or of RAM. -/
def blockBits (pa : U64) : U64 :=
  if pa < RAM_BASE then AF ||| ATTR_DEVICE ||| BLOCK ||| PXN ||| UXN
  else AF ||| SH_INNER ||| ATTR_NORMAL ||| BLOCK ||| PXN ||| UXN

theorem blockDesc_eq (pa : U64) : blockDesc pa = pa ||| blockBits pa := by
  unfold blockDesc blockBits
  split
  · simp only [BitVec.or_assoc]
  · simp only [BitVec.or_assoc]

/-- The attributes of a page. -/
def pageBits : Prot → U64
  | .rx => AF ||| SH_INNER ||| ATTR_NORMAL ||| TABLE ||| UXN ||| AP_RO
  | .ro => AF ||| SH_INNER ||| ATTR_NORMAL ||| TABLE ||| UXN ||| AP_RO ||| PXN
  | .rw => AF ||| SH_INNER ||| ATTR_NORMAL ||| TABLE ||| UXN ||| PXN

theorem pageDesc_eq (pa : U64) (prot : Prot) : pageDesc pa prot = pa ||| pageBits prot := by
  unfold pageDesc pageBits
  cases prot with
  | ro | rw | rx => simp only [BitVec.or_assoc]

theorem present_blockDesc (pa : U64) : entries.present (entries.block pa) = true := by
  show has (blockDesc pa) VALID = true
  rw [blockDesc_eq]
  refine has_or_right _ ?_
  unfold blockBits
  split
  · decide
  · decide

theorem reads : entries.Reads access where
  mask_page := by decide
  present_low g j _ _ := present_blockDesc _
  isLeaf_low g j hg hj := by
    show (kind (blockDesc (lowAddr g j)) == BLOCK) = true
    have low : kind (lowAddr g j) = 0 := by
      have mask : (0x7fffe00000 : U64) &&& 3 = 0 := by decide
      unfold kind
      rw [← lowAddr_masked hg hj, BitVec.and_assoc, mask]
      exact BitVec.and_zero
    rw [blockDesc_eq, kind_or, low]
    unfold blockBits
    split
    · decide
    · decide
  addr_low g j hg hj := by
    show blockDesc (lowAddr g j) &&& ADDR_MASK &&& ~~~0x1fffff = _
    have masked : lowAddr g j &&& (ADDR_MASK &&& ~~~0x1fffff) = lowAddr g j :=
      lowAddr_kept hg hj (by decide)
    rw [blockDesc_eq, BitVec.and_assoc]
    refine or_and_of_masked masked ?_
    unfold blockBits
    split
    · decide
    · decide
  access_low g j hg hj := by
    have readOnly : has (lowAddr g j) AP_RO = false :=
      has_of_masked (lowAddr_masked hg hj) (by decide)
    show (!has (blockDesc (lowAddr g j)) AP_RO, !has (blockDesc (lowAddr g j)) PXN) = _
    rw [blockDesc_eq, has_or, has_or, readOnly]
    unfold blockBits
    split
    · simp only [show has (AF ||| ATTR_DEVICE ||| BLOCK ||| PXN ||| UXN) AP_RO = false by decide,
        show has (AF ||| ATTR_DEVICE ||| BLOCK ||| PXN ||| UXN) PXN = true by decide]
      rw [Bool.or_true]
      rfl
    · simp only [show has (AF ||| SH_INNER ||| ATTR_NORMAL ||| BLOCK ||| PXN ||| UXN) AP_RO =
        false by decide,
        show has (AF ||| SH_INNER ||| ATTR_NORMAL ||| BLOCK ||| PXN ||| UXN) PXN = true by decide]
      rw [Bool.or_true]
      rfl
  present_page pa prot := by
    show has (pageDesc pa prot) VALID = true
    rw [pageDesc_eq]
    refine has_or_right _ ?_
    decide +revert
  addr_page pa prot hpa := by
    show pageDesc pa prot &&& ADDR_MASK = pa
    rw [pageDesc_eq]
    refine or_and_of_masked hpa ?_
    decide +revert
  access_page pa prot hpa := by
    show (!has (pageDesc pa prot) AP_RO, !has (pageDesc pa prot) PXN) = _
    rw [pageDesc_eq, has_or, has_or, Entries.has_frame hpa (by decide),
      Entries.has_frame hpa (by decide), Bool.false_or, Bool.false_or]
    decide +revert
  present_split e j _ _ := by
    show has (_ ||| TABLE) VALID = true
    exact has_or_right _ (by decide)
  addr_split e j hj := by
    have frame := splitAddr_frame (d := entries) (by decide) e hj
    have outside : ~~~ADDR_MASK &&& ~~~3 &&& ADDR_MASK = 0 := by decide
    have table : TABLE &&& ADDR_MASK = 0 := by decide
    have flags : ((e &&& ~~~ADDR_MASK &&& ~~~3) ||| TABLE) &&& ADDR_MASK = 0 := by
      rw [or_and, table, BitVec.and_assoc e, BitVec.and_assoc e, outside]
      simp
    show (_ ||| (e &&& ~~~ADDR_MASK &&& ~~~3) ||| TABLE) &&& ADDR_MASK = _
    rw [BitVec.or_assoc]
    exact or_and_of_masked frame flags
  access_split e j hj := by
    unfold access
    rw [has_split e hj (by decide) (by decide) (by decide),
      has_split e hj (by decide) (by decide) (by decide)]

end Aarch64

end Praesidium
