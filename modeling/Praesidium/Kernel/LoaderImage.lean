import Praesidium.Kernel.LoaderAuthority

/-!
What a loaded process is: its capabilities, its memory and its page mapping.

The capabilities are exactly the manifest's (`load_exact`).  The frames of a segment hold its
file bytes and then zeros, for every image (`Segments.contents`).  Its pages are mapped to those
frames unless a later segment lies over them, since a mapping call overwrites:

    every page is mapped as declared ↔ no two segments share a page              (load_maps)
-/

namespace Praesidium

open Fallible CSpace

/-! ## Capabilities -/

/-- What the process holds for entry `j`. -/
def HeldFor (p : Pex) (s t : LoadState) (j : Nat) (c : RawCap) : Prop :=
  c.rights = (p.manifestAt j).rights ∧
    (((p.manifestAt j).capType = MANIFEST_SCHED ∧ c.capType = .sched ∧ c.badge = 0 ∧
    c.size = p.amount j) ∨ ((p.manifestAt j).capType = MANIFEST_ENDPOINT ∧ c.capType = .endpoint ∧
        c.objref = (s.loader.slot L_ENDPOINT).cap.objref ∧ c.badge = (p.manifestAt j).param0) ∨
      ((p.manifestAt j).capType = MANIFEST_FRAME ∧ c.badge = 0 ∧
      ∃ i, (p.manifestAt j).param0.toNat = i ∧ i < p.segCount ∧
        c.capType = .frame ∧ c.objref = (t.loader.slot (s.scratch + i)).cap.objref ∧
        c.size.toNat = p.pages i))

section Done

variable {s u t : LoadState} {arch : U16} {image : List U8} {user : Option U64} {k n : Nat}

theorem granted_heldFor (hw : WellFormed image arch) (hinv : LoaderInv s.loader s.scratch)
    (hu : Segments (Pex.view image) user s (Pex.view image).segCount u)
    (ht : Drawn (Pex.view image) u n t) {j : Nat} (hk : (Pex.view image).Known j) :
    HeldFor (Pex.view image) s t j (s.granted (Pex.view image) j) := by
  rcases hk with hs | he | ⟨hf, hlt⟩
  · rw [granted_sched hs]
    exact ⟨rfl, Or.inl ⟨hs, rfl, rfl, rfl⟩⟩
  · obtain ⟨objref, hep⟩ := hinv.endpoint
    rw [granted_endpoint he]
    exact ⟨rfl, Or.inr (Or.inl ⟨he, by rw [hep]; rfl, rfl, rfl⟩)⟩
  · rw [granted_frame hf]
    refine ⟨rfl, Or.inr (Or.inr ⟨hf, rfl, _, rfl, hlt, rfl, ?_, pages_toNat hw hlt⟩)⟩
    rw [ht.frame hinv.low hu hlt]

end Done

/-- **A loaded process holds exactly its manifest's capabilities.** -/
theorem load_exact {s t : LoadState} {l : Loaded} (arch : U16) (image : List U8) (domainId : U64)
    (userAccessible : Bool) (hr : Reached s.loader s.scratch) (hempty : ∀ d, ¬ s.proc.Live d)
    (hl : load arch image domainId userAccessible s = .ok l t) :
    Pex.parse image arch () = .ok (Pex.view image) () ∧
    (∀ j, j < (Pex.view image).manCount → (Pex.view image).dest j < PROCESS_SLOTS) ∧
    (∀ i j, i < j → j < (Pex.view image).manCount →
      (Pex.view image).dest i ≠ (Pex.view image).dest j) ∧
    (∀ d, t.proc.Live d ↔ ∃ j, j < (Pex.view image).manCount ∧ (Pex.view image).dest j = d) ∧
    (∀ j, j < (Pex.view image).manCount →
      HeldFor (Pex.view image) s t j (t.proc.slot ((Pex.view image).dest j)).cap) ∧
    (t.loader.slot L_SCHED).cap.size.toNat + (Pex.view image).drawn (Pex.view image).manCount =
      (s.loader.slot L_SCHED).cap.size.toNat ∧
    (∀ i, i < (Pex.view image).segCount → ¬ s.loader.Live (s.scratch + i) ∧
      t.loader.slot (s.scratch + i) = ⟨s.frameCap (Pex.view image) i, some L_UNTYPED⟩) := by
  have hinv := reached_inv hr
  obtain ⟨hw, hdone⟩ := (load_spec image arch domainId userAccessible hinv).ok hl
  obtain ⟨u, hu, ht⟩ := hdone.drawn
  have hd := hdone.delivered
  refine ⟨?_, hd.inRange, hd.distinct, fun d => ⟨fun hlive => ?_, ?_⟩, fun j hj =>
    ?_, ?_, fun i hi => ⟨?_, ?_⟩⟩
  · cases hp : Pex.parse image arch () with
    | ok p u =>
      obtain ⟨-, rfl⟩ := (parse_spec image arch).ok hp
      rfl
    | error f u => exact absurd hw ((parse_spec image arch).error hp).2
  · by_contra hno
    have hrest := hd.rest d fun j hj he => hno ⟨j, hj, he⟩
    unfold Live at hlive
    rw [hrest] at hlive
    exact hempty d hlive
  · rintro ⟨j, hj, rfl⟩
    unfold Live
    rw [hd.slots j hj]
    exact granted_isNull hinv j
  · rw [hd.slots j hj]
    exact granted_heldFor hw hinv hu ht (hd.known j hj)
  · obtain ⟨size, hsize, hslot⟩ := ht.time
    rw [hslot, ← hu.fixed hinv (d := L_SCHED) (by decide) (by decide)]
    exact hsize
  · exact hinv.free _ (Nat.le_add_right _ _)
  · exact ht.frame hinv.low hu hi

theorem demoImage_view :
    (Pex.view demoImage).manCount = 3 ∧ (Pex.view demoImage).dest 2 = 2 ∧
      (Pex.view demoImage).segCount = 2 ∧
      ((Pex.view demoImage).segmentAt 0).vaddr.toNat + ((Pex.view demoImage).segmentAt
        0).memSize.toNat ≤
        ((Pex.view demoImage).segmentAt 1).vaddr.toNat := by
  decide +kernel

/-- The third entry of `demoImage` is a frame of its second segment, read-only. -/
theorem load_exact_demoImage :
    ∃ l t, load ARCH_X86_64 demoImage 0 false bootState = .ok l t ∧
      (∀ d, t.proc.Live d ↔ ∃ j, j < 3 ∧ (Pex.view demoImage).dest j = d) ∧
      HeldFor (Pex.view demoImage) bootState t 2 (t.proc.slot 2).cap := by
  obtain ⟨l, t, hl, -⟩ := demoImage_loads
  obtain ⟨hcount, hdest, -⟩ := demoImage_view
  obtain ⟨-, -, -, hiff, hheld, -⟩ :=
    load_exact ARCH_X86_64 demoImage 0 false bootState_reached bootState_empty hl
  rw [hcount] at hiff hheld
  have hlast := hheld 2 (by decide)
  rw [hdest] at hlast
  exact ⟨l, t, hl, hiff, hlast⟩

/-! ## Memory -/

theorem zeroFrames_apply (ram : Nat → U8) (f n a : Nat) (hfit : f + n ≤ 2 ^ 32) (hn : n < 2 ^ 32) :
    zeroFrames ram (BitVec.ofNat 64 f) (BitVec.ofNat 32 n) a =
      if f ≤ a / PAGE_SIZE ∧ a / PAGE_SIZE < f + n then 0 else ram a := by
  have hcast : (BitVec.ofNat 32 n).toNat = n := by rw [BitVec.toNat_ofNat, Nat.mod_eq_of_lt hn]
  have hframe : ∀ i, i < n → ((BitVec.ofNat 64 f + BitVec.ofNat 64 i).setWidth 32).toNat =
    f + i := by
    intro i hi
    rw [BitVec.toNat_setWidth, ← BitVec.ofNat_add, BitVec.toNat_ofNat,
      Nat.mod_eq_of_lt (by omega : f + i < 2 ^ 64), Nat.mod_eq_of_lt (by omega)]
  have hiff : (∃ i, i < n ∧ a / PAGE_SIZE =
    ((BitVec.ofNat 64 f + BitVec.ofNat 64 i).setWidth 32).toNat) ↔
      f ≤ a / PAGE_SIZE ∧ a / PAGE_SIZE < f + n := by
    constructor
    · rintro ⟨i, hi, ha⟩
      rw [hframe i hi] at ha
      omega
    · rintro ⟨h1, h2⟩
      refine ⟨a / PAGE_SIZE - f, by omega, ?_⟩
      rw [hframe _ (by omega)]
      omega
  unfold zeroFrames
  rw [hcast]
  by_cases h : f ≤ a / PAGE_SIZE ∧ a / PAGE_SIZE < f + n
  · rw [if_pos (hiff.mpr h), if_pos h]
  · rw [if_neg (fun h' => h (hiff.mp h')), if_neg h]

theorem pagesUpTo_le (p : Pex) {i k : Nat} (h : i ≤ k) : p.pagesUpTo i ≤ p.pagesUpTo k := by
  induction k with
  | zero => rw [Nat.le_zero.mp h]
  | succ k ih =>
    rcases Nat.le_succ_iff.mp h with h | rfl
    · rw [Pex.pagesUpTo_succ]
      exact Nat.le_trans (ih h) (Nat.le_add_right _ _)
    · exact Nat.le_refl _

section Contents

variable {s u : LoadState} {arch : U16} {image : List U8} {user : Option U64} {k : Nat}

variable {i : Nat}

/-- The objects follow each other. -/
theorem frameAt_le (s : LoadState) (p : Pex) {j : Nat} (h : i < j) :
    s.frameAt p i + p.pages i ≤ s.frameAt p j := by
  have hle := pagesUpTo_le p (Nat.succ_le_of_lt h)
  rw [Pex.pagesUpTo_succ] at hle
  unfold LoadState.frameAt
  omega

/-- Every frame of an object has a 32-bit number. -/
theorem Segments.frames_lt {p : Pex} (hinv : LoaderInv s.loader s.scratch)
    (hu : Segments p user s k u) (hi : i < k) : s.frameAt p i + p.pages i ≤ 2 ^ 32 := by
  obtain ⟨base, watermark, hroot, hbase, -⟩ := hinv.memory
  have hbudget := hu.budget
  have hle := pagesUpTo_le p (Nat.succ_le_of_lt hi)
  rw [Pex.pagesUpTo_succ] at hle
  unfold LoadState.frameAt
  rw [hroot] at hbudget ⊢
  change watermark.toNat + _ ≤ 64 at hbudget
  change base.toNat + watermark.toNat + _ + _ ≤ _
  omega

theorem dataAt_length (hw : WellFormed image arch) (hi : i < (Pex.view image).segCount) :
    ((Pex.view image).dataAt i).length ≤ (Pex.view image).pages i * PAGE_SIZE := by
  obtain ⟨hok, hfile⟩ := hw.segments i hi
  have hlen : ((Pex.view image).dataAt i).length = ((Pex.view image).segmentAt i).fileSize.toNat :=
    Bytes.slice_length _ _ _ hfile
  have hmem := memSize_eq hw hi
  have := hok.file_le
  omega

/-- **The frames of a segment** hold its file bytes, then zeros; the later segments do not touch
them. -/
theorem filled_apply (hw : WellFormed image arch) (s : LoadState)
    (hfit : ∀ i, i < k → s.frameAt (Pex.view image) i + (Pex.view image).pages i ≤ 2 ^ 32)
    (hk : k ≤ (Pex.view image).segCount) {off : Nat} (hi : i < k)
    (hoff : off < (Pex.view image).pages i * PAGE_SIZE) :
    s.filled (Pex.view image) k (s.frameAt (Pex.view image) i * PAGE_SIZE + off) =
      ((Pex.view image).dataAt i)[off]?.getD 0 := by
  induction k with
  | zero => omega
  | succ k ih =>
    have hpages := pages_le hw (show k < _ by omega)
    have hdata := dataAt_length hw (show k < _ by omega)
    have hk32 := hfit k (Nat.lt_succ_self k)
    unfold PAGE_SIZE at hoff hdata ⊢
    rw [LoadState.filled]
    unfold copyBytes PAGE_SIZE
    rw [zeroFrames_apply _ _ _ _ hk32 (by omega)]
    unfold PAGE_SIZE
    rcases Nat.lt_succ_iff_lt_or_eq.mp hi with hik | rfl
    · -- an earlier segment: both writes are further up
      have hle := frameAt_le s (Pex.view image) hik
      rw [if_neg (by omega), if_neg (by omega)]
      exact ih (fun j hj => hfit j (Nat.lt_succ_of_lt hj)) (by omega) hik
    · by_cases hin : off < ((Pex.view image).dataAt i).length
      · rw [if_pos (by omega), Nat.add_sub_cancel_left]
      · rw [if_neg (by omega), if_pos (by omega), List.getElem?_eq_none (by omega)]
        rfl

end Contents

/-! ## Page mapping -/

/-- The mapping of a page after some calls: the last one counts. -/
def mapping (calls : List MapCall) (page : Nat) : Option MapCall :=
  calls.reverse.find? fun c => c.va.toNat / PAGE_SIZE = page

/-- No two segments share a page. -/
def Pex.Disjoint (p : Pex) : Prop :=
  ∀ i j, i < j → j < p.segCount →
    (p.segmentAt i).vaddr.toNat + (p.segmentAt i).memSize.toNat ≤ (p.segmentAt j).vaddr.toNat ∨
      (p.segmentAt j).vaddr.toNat + (p.segmentAt j).memSize.toNat ≤ (p.segmentAt i).vaddr.toNat

theorem mapping_eq_some {calls : List MapCall} {c : MapCall} (hc : c ∈ calls)
    (hunique : ∀ c' ∈ calls, c'.va.toNat / PAGE_SIZE = c.va.toNat / PAGE_SIZE → c' = c) :
    mapping calls (c.va.toNat / PAGE_SIZE) = some c := by
  unfold mapping
  cases hf : calls.reverse.find? fun c' => c'.va.toNat / PAGE_SIZE = c.va.toNat / PAGE_SIZE with
  | none =>
    have hnone := List.find?_eq_none.mp hf c (List.mem_reverse.mpr hc)
    simp at hnone
  | some c' =>
    have hpage := List.find?_some hf
    have hmem := List.mem_of_find?_eq_some hf
    rw [hunique c' (List.mem_reverse.mp hmem) (of_decide_eq_true hpage)]

section Mapping

variable {s u t : LoadState} {arch : U16} {image : List U8} {user : Option U64}

variable {n i k : Nat} {p : Pex}

theorem mem_segCalls {c : MapCall} (h : c ∈ (List.range n).flatMap (s.segCalls p user)) :
    ∃ i k, i < n ∧ k < p.pages i ∧ c = segCall (p.segmentAt i) (s.frameAt p i) user k := by
  obtain ⟨i, hi, hc⟩ := List.mem_flatMap.mp h
  obtain ⟨k, hk, rfl⟩ := List.mem_map.mp hc
  exact ⟨i, k, List.mem_range.mp hi, List.mem_range.mp hk, rfl⟩

theorem segCall_mem (hi : i < n) (hk : k < p.pages i) :
    segCall (p.segmentAt i) (s.frameAt p i) user k ∈ (List.range n).flatMap (s.segCalls p user) :=
  List.mem_flatMap.mpr ⟨i, List.mem_range.mpr hi, List.mem_map.mpr ⟨k, List.mem_range.mpr hk, rfl⟩⟩

section

variable (hw : WellFormed image arch) (hinv : LoaderInv s.loader s.scratch)

include hw hinv

/-- The address and the frame of a mapping call. -/
theorem segCall_toNat (hu : Segments (Pex.view image) user s n u)
    (hn : n ≤ (Pex.view image).segCount) (hi : i < n) (hk : k < (Pex.view image).pages i) :
    (segCall ((Pex.view image).segmentAt i) (s.frameAt (Pex.view image) i) user k).va.toNat =
        ((Pex.view image).segmentAt i).vaddr.toNat + k * PAGE_SIZE ∧
      (segCall ((Pex.view image).segmentAt i) (s.frameAt (Pex.view image) i) user k).pa.toNat =
        (s.frameAt (Pex.view image) i + k) * PAGE_SIZE := by
  have hwin := hu.window i hi
  have hmem := memSize_eq hw (Nat.lt_of_lt_of_le hi hn)
  have hfit := hu.frames_lt hinv hi
  unfold PROC_VA_END at hwin
  unfold segCall PAGE_SIZE at *
  dsimp only
  rw [BitVec.toNat_ofNat, Nat.mod_eq_of_lt (by omega), BitVec.toNat_ofNat,
    Nat.mod_eq_of_lt (by omega)]
  exact ⟨rfl, rfl⟩

theorem segCall_page (hu : Segments (Pex.view image) user s (Pex.view image).segCount u)
    (hi : i < (Pex.view image).segCount) (hk : k < (Pex.view image).pages i) :
    (segCall ((Pex.view image).segmentAt i) (s.frameAt (Pex.view image) i) user k).va.toNat
      / PAGE_SIZE =
      ((Pex.view image).segmentAt i).vaddr.toNat / PAGE_SIZE + k := by
  have hal := (hw.segments i hi).1.vaddr_aligned
  rw [(segCall_toNat hw hinv hu (Nat.le_refl _) hi hk).1]
  unfold PAGE_SIZE
  omega

/-- **Every page is mapped as declared exactly when no two segments share one.** -/
theorem mapped_iff_disjoint (hu : Segments (Pex.view image) user s (Pex.view image).segCount u) :
    (∀ i k, i < (Pex.view image).segCount → k < (Pex.view image).pages i →
      ∃ c, mapping ((List.range (Pex.view image).segCount).flatMap
        (s.segCalls (Pex.view image) user))
          (((Pex.view image).segmentAt i).vaddr.toNat / PAGE_SIZE + k) = some c ∧
        c.pa.toNat = (s.frameAt (Pex.view image) i + k) * PAGE_SIZE ∧
        c.prot = permToProt ((Pex.view image).segmentAt i).perm ∧ c.user = user) ↔
      (Pex.view image).Disjoint := by
  have hbounds : ∀ i, i < (Pex.view image).segCount →
    ((Pex.view image).segmentAt i).vaddr.toNat % 4096 = 0 ∧
      ((Pex.view image).segmentAt i).memSize.toNat = (Pex.view image).pages i * 4096 ∧
      0 < (Pex.view image).pages i :=
    fun i hi => ⟨(hw.segments i hi).1.vaddr_aligned, memSize_eq hw hi, hu.pages_pos i hi⟩
  constructor
  · intro hall i j hij hj
    have hi : i < (Pex.view image).segCount := Nat.lt_trans hij hj
    obtain ⟨hai, hmi, hpi⟩ := hbounds i hi
    obtain ⟨haj, hmj, hpj⟩ := hbounds j hj
    by_contra hover
    rw [not_or, Nat.not_le, Nat.not_le] at hover
    -- a page in both: the higher of the two first pages
    obtain ⟨ki, kj, hki, hkj, hsame⟩ : ∃ ki kj, ki < (Pex.view image).pages i ∧
      kj < (Pex.view image).pages j ∧ ((Pex.view image).segmentAt i).vaddr.toNat / PAGE_SIZE + ki =
          ((Pex.view image).segmentAt j).vaddr.toNat / PAGE_SIZE + kj := by
      unfold PAGE_SIZE
      by_cases hle : ((Pex.view image).segmentAt i).vaddr.toNat ≤
        ((Pex.view image).segmentAt j).vaddr.toNat
      · exact ⟨((Pex.view image).segmentAt j).vaddr.toNat
          / 4096 - ((Pex.view image).segmentAt i).vaddr.toNat / 4096, 0, by omega, hpj, by omega⟩
      · exact ⟨0, ((Pex.view image).segmentAt i).vaddr.toNat
          / 4096 - ((Pex.view image).segmentAt j).vaddr.toNat / 4096, hpi, by omega, by omega⟩
    obtain ⟨ci, hci, hpai, -⟩ := hall i ki hi hki
    obtain ⟨cj, hcj, hpaj, -⟩ := hall j kj hj hkj
    rw [hsame, hcj] at hci
    rw [← Option.some.inj hci, hpaj] at hpai
    have hle := frameAt_le s (Pex.view image) hij
    unfold PAGE_SIZE at hpai
    omega
  · intro hdis i k hi hk
    refine ⟨_, ?_, (segCall_toNat hw hinv hu (Nat.le_refl _) hi hk).2, rfl, rfl⟩
    rw [← segCall_page hw hinv hu hi hk]
    refine mapping_eq_some (segCall_mem hi hk) (fun c' hc' hpage => ?_)
    obtain ⟨j, k', hj, hk', rfl⟩ := mem_segCalls hc'
    rw [segCall_page hw hinv hu hi hk, segCall_page hw hinv hu hj hk'] at hpage
    obtain ⟨hai, hmi, hpi⟩ := hbounds i hi
    obtain ⟨haj, hmj, hpj⟩ := hbounds j hj
    unfold PAGE_SIZE at hpage
    rcases Nat.lt_trichotomy i j with hij | rfl | hij
    · have := hdis i j hij hj
      omega
    · rw [show k' = k by omega]
    · have := hdis j i hij hi
      omega

end

end Mapping

/-- Segment `i` is mapped as declared: each page to its own page of the segment's `Frame` object,
with the declared protection and contents. -/
def SegmentMapped (p : Pex) (s t : LoadState) (i : Nat) : Prop :=
  ∀ k, k < p.pages i → ∃ c,
    mapping (t.maps.drop s.maps.length) ((p.segmentAt i).vaddr.toNat / PAGE_SIZE + k) = some c ∧
      c.pa.toNat = ((t.loader.slot (s.scratch + i)).cap.objref.toNat + k) * PAGE_SIZE ∧
      c.prot = permToProt (p.segmentAt i).perm ∧
      ∀ off, off < PAGE_SIZE → t.ram (c.pa.toNat + off) = (p.dataAt i)[k * PAGE_SIZE + off]?.getD 0

/-- **When a loaded image is mapped as declared**: exactly when no two segments share a page, and
then the entry point
is mapped executable. -/
theorem load_maps {s t : LoadState} {l : Loaded} (arch : U16) (image : List U8) (domainId : U64)
    (userAccessible : Bool) (hr : Reached s.loader s.scratch)
    (hl : load arch image domainId userAccessible s = .ok l t) :
    ((∀ i, i < (Pex.view image).segCount → SegmentMapped (Pex.view image) s t i) ↔
      (Pex.view image).Disjoint) ∧
      ((Pex.view image).Disjoint → ∃ i, i < (Pex.view image).segCount ∧
        ((Pex.view image).segmentAt i).Runs l.entry ∧
        ∃ c, mapping (t.maps.drop s.maps.length) (l.entry.toNat / PAGE_SIZE) = some c ∧
          c.prot = .rx) := by
  have hinv := reached_inv hr
  obtain ⟨hw, hdone⟩ := (load_spec image arch domainId userAccessible hinv).ok hl
  obtain ⟨u, hu, ht⟩ := hdone.drawn
  have hcalls : t.maps.drop s.maps.length = (List.range (Pex.view image).segCount).flatMap
      (s.segCalls (Pex.view image) (if userAccessible then some domainId else none)) := by
    rw [ht.maps, hu.maps, List.drop_left]
  have hobj : ∀ i, i < (Pex.view image).segCount →
      (t.loader.slot (s.scratch + i)).cap.objref.toNat = s.frameAt (Pex.view image) i := by
    intro i hi
    have hlt := hu.frames_lt hinv hi
    rw [ht.frame hinv.low hu hi]
    show (BitVec.ofNat 64 _).toNat = _
    rw [BitVec.toNat_ofNat, Nat.mod_eq_of_lt (by omega)]
  have hbytes : ∀ i k off, i < (Pex.view image).segCount → k < (Pex.view image).pages i →
    off < PAGE_SIZE → t.ram ((s.frameAt (Pex.view image) i + k) * PAGE_SIZE + off) =
        ((Pex.view image).dataAt i)[k * PAGE_SIZE + off]?.getD 0 := by
    intro i k off hi hk hoff
    rw [ht.ram, hu.ram, Nat.add_mul, Nat.add_assoc]
    refine filled_apply hw s (fun j hj => hu.frames_lt hinv hj) (Nat.le_refl _) hi ?_
    have hmul := Nat.mul_le_mul_right PAGE_SIZE (Nat.succ_le_of_lt hk)
    rw [Nat.succ_mul] at hmul
    omega
  have hiff := mapped_iff_disjoint hw hinv hu
  refine ⟨Iff.trans ?_ hiff, fun hdis => ?_⟩
  · rw [← hcalls]
    constructor
    · intro h i k hi hk
      obtain ⟨c, hc, hpa, hprot, -⟩ := h i hi k hk
      rw [hobj i hi] at hpa
      refine ⟨c, hc, hpa, hprot, ?_⟩
      have hmem := List.mem_of_find?_eq_some hc
      rw [hcalls] at hmem
      obtain ⟨_, _, -, -, rfl⟩ := mem_segCalls (List.mem_reverse.mp hmem)
      rfl
    · intro h i hi k hk
      obtain ⟨c, hc, hpa, hprot, -⟩ := h i k hi hk
      refine ⟨c, hc, by rw [hobj i hi]; exact hpa, hprot, fun off hoff => ?_⟩
      rw [hpa]
      exact hbytes i k off hi hk hoff
  · obtain ⟨i, hi, hruns⟩ := hw.entry
    have hentry : l.entry = (Pex.view image).entry := by rw [hdone.loaded]
    rw [hentry]
    refine ⟨i, hi, hruns, ?_⟩
    obtain ⟨hx, hlo, hhi⟩ := hruns
    have hal := (hw.segments i hi).1.vaddr_aligned
    have hmem := memSize_eq hw hi
    unfold PAGE_SIZE at hmem
    obtain ⟨c, hc, -, hprot, -⟩ := hiff.mpr hdis i
      ((Pex.view image).entry.toNat / PAGE_SIZE - ((Pex.view image).segmentAt i).vaddr.toNat
      / PAGE_SIZE) hi (by unfold PAGE_SIZE; omega)
    rw [Nat.add_sub_cancel' (Nat.div_le_div_right hlo)] at hc
    refine ⟨c, by rw [hcalls]; exact hc, ?_⟩
    rw [hprot]
    exact if_pos (bne_iff_ne.mp hx)

theorem demoImage_disjoint : (Pex.view demoImage).Disjoint := by
  obtain ⟨-, -, hcount, hbelow⟩ := demoImage_view
  intro i j hij hj
  rw [hcount] at hj
  have hi : i = 0 := by omega
  have hj' : j = 1 := by omega
  subst hi hj'
  exact Or.inl hbelow

/-- The segments of `demoImage` are mapped as declared. -/
theorem load_maps_demoImage :
    ∃ l t, load ARCH_X86_64 demoImage 0 false bootState = .ok l t ∧
      SegmentMapped (Pex.view demoImage) bootState t 1 := by
  obtain ⟨l, t, hl, -⟩ := demoImage_loads
  obtain ⟨-, -, hcount, -⟩ := demoImage_view
  have h := load_maps ARCH_X86_64 demoImage 0 false bootState_reached hl
  exact ⟨l, t, hl, h.1.mpr demoImage_disjoint 1 (by rw [hcount]; decide)⟩

/-- Code, and a read-only page at the same address. -/
def overlapImage : List U8 :=
  imageOf [⟨0x40000000, 0x1000, PERM_R ||| PERM_X, [0x0f, 0x05]⟩,
    ⟨0x40000000, 0x1000, PERM_R, []⟩] []

/-- The second segment of `overlapImage` replaces the first one's page: the entry point is mapped to
a zeroed page that is not executable. -/
theorem overlapImage_replaced :
    ∃ l t, load ARCH_X86_64 overlapImage 0 false bootState = .ok l t ∧
      ¬ SegmentMapped (Pex.view overlapImage) bootState t 0 ∧
      ∃ c, mapping (t.maps.drop bootState.maps.length) (l.entry.toNat / PAGE_SIZE) = some c ∧
        c.prot = .ro := by
  obtain ⟨l, t, hl, hentry, hmap, hobj, hpages, hpage⟩ :=
    loadResult_any overlapImage (fun r => r.1.entry = 0x40000000 ∧
      mapping (r.2.maps.drop bootState.maps.length) (0x40000000 / PAGE_SIZE) = some ⟨0x40000000,
      0x102000, .ro, none⟩ ∧ (r.2.loader.slot (bootState.scratch + 0)).cap.objref = 0x101 ∧
      0 < (Pex.view overlapImage).pages 0 ∧
      ((Pex.view overlapImage).segmentAt 0).vaddr.toNat / PAGE_SIZE + 0 = 0x40000000 / PAGE_SIZE)
      (by decide +kernel)
  refine ⟨l, t, hl, fun hmapped => ?_, ⟨_, by rw [hentry]; exact hmap, rfl⟩⟩
  obtain ⟨c, hc, hpa, -⟩ := hmapped 0 hpages
  rw [hpage, hmap] at hc
  rw [← Option.some.inj hc, hobj] at hpa
  revert hpa
  decide

end Praesidium
