import Mathlib.Algebra.GroupWithZero.Nat
import Praesidium.Abi.Encode
import Praesidium.Abi.PexSpec

/-!
The encoder writes what the parser reads.

All of `encode` is one list of writes into a zeroed buffer (`imageWrites`): the header
fields, a record and the data of each segment, and the manifest records.  No two of
them overlap, so each survives (`Bytes.patches_spec`):

    Ends (encode arch entry segs man) out (Encoded out …) (None, with out unchanged)  (encode_spec)
    Image b arch entry segs man → b is well formed, with the given records
        (Image.wellFormed)

and a valid description comes back from `Pex.parse` as it was (`encode_parse`).
-/

namespace Praesidium

open Fallible Bytes

/-! ## The layout -/

def dataLen (segs : List SegmentSpec) : Nat := (segs.map (·.data.length)).sum

def manOffset (segs : List SegmentSpec) : Nat := HEADER_LEN + segs.length * SEGMENT_LEN

def dataOffset (segs : List SegmentSpec) (man : List ManifestSpec) : Nat :=
  manOffset segs + man.length * MANIFEST_LEN

/-- The length of the image: header, tables and data. -/
def imageLen (segs : List SegmentSpec) (man : List ManifestSpec) : Nat :=
  dataOffset segs man + dataLen segs

def headerWrites (arch : U16) (entry : BitVec 64) (total segCount manOff manCount : Nat) :
    List Write :=
  [(0, wordBytes PEX_MAGIC), (4, wordBytes PEX_VERSION), (6, wordBytes arch), (8, wordBytes entry),
    (16, wordBytes (BitVec.ofNat 32 total)), (20, wordBytes (BitVec.ofNat 32 HEADER_LEN)),
    (24, wordBytes (BitVec.ofNat 16 segCount)), (26, wordBytes (BitVec.ofNat 16 manCount)),
    (28, wordBytes (BitVec.ofNat 32 manOff))]

def recordWrites (slot cursor : Nat) (s : SegmentSpec) : List Write :=
  [(slot, wordBytes (BitVec.ofNat 32 cursor)),
    (slot + 4, wordBytes (BitVec.ofNat 32 s.data.length)),
    (slot + 8, wordBytes s.vaddr), (slot + 16, wordBytes s.memSize), (slot + 24, [s.perm]),
    (cursor, s.data)]

def segmentWrites : List SegmentSpec → Nat → Nat → List Write
  | [], _, _ => []
  | s :: segs, slot, cursor =>
    recordWrites slot cursor s ++ segmentWrites segs (slot + 32) (cursor + s.data.length)

def entryWrites (slot : Nat) (m : ManifestSpec) : List Write :=
  [(slot, [m.capType]), (slot + 2, wordBytes m.destSlot), (slot + 4, wordBytes m.rights),
    (slot + 8, wordBytes m.param0), (slot + 16, wordBytes m.param1)]

def manifestWrites : List ManifestSpec → Nat → List Write
  | [], _ => []
  | m :: man, slot => entryWrites slot m ++ manifestWrites man (slot + 32)

def imageWrites (arch : U16) (entry : BitVec 64) (segs : List SegmentSpec)
    (man : List ManifestSpec) : List Write :=
  headerWrites arch entry (imageLen segs man) segs.length (manOffset segs) man.length ++
    (segmentWrites segs HEADER_LEN (dataOffset segs man) ++ manifestWrites man (manOffset segs))

/-! ## Where the writes go -/

theorem dataLen_cons (s : SegmentSpec) (segs : List SegmentSpec) :
    dataLen (s :: segs) = s.data.length + dataLen segs := by
  unfold dataLen
  rw [List.map_cons, List.sum_cons]

theorem headerWrites_in (arch : U16) (entry : BitVec 64) (total segCount manOff manCount : Nat) :
    ∀ w ∈ headerWrites arch entry total segCount manOff manCount, w.In 0 32 := by
  simp only [headerWrites, List.forall_mem_cons, Write.In, wordBytes_length]
  simp

theorem recordWrites_in (slot cursor : Nat) (s : SegmentSpec) :
    ∀ w ∈ recordWrites slot cursor s, w.In slot (slot + 32) ∨
      w.In cursor (cursor + s.data.length) := by
  simp only [recordWrites, List.forall_mem_cons, Write.In, wordBytes_length, List.length_singleton]
  refine ⟨?_, ?_, ?_, ?_, ?_, Or.inr ⟨Nat.le_refl _, Nat.le_refl _⟩, fun w hw => by cases hw⟩ <;>
    left <;> omega

theorem segmentWrites_in (segs : List SegmentSpec) (slot cursor : Nat) :
    ∀ w ∈ segmentWrites segs slot cursor,
      w.In slot (slot + segs.length * 32) ∨ w.In cursor (cursor + dataLen segs) := by
  induction segs generalizing slot cursor with
  | nil => intro w hw; cases hw
  | cons s segs ih =>
    intro w hw
    rw [dataLen_cons, List.length_cons]
    rcases List.mem_append.mp hw with hw | hw
    · rcases recordWrites_in slot cursor s w hw with h | h <;> unfold Write.In at h ⊢ <;> omega
    · rcases ih (slot + 32) (cursor + s.data.length) w hw with h | h <;> unfold Write.In at h ⊢
        <;> omega

theorem entryWrites_in (slot : Nat) (m : ManifestSpec) :
    ∀ w ∈ entryWrites slot m, w.In slot (slot + 32) := by
  simp only [entryWrites, List.forall_mem_cons, Write.In, wordBytes_length, List.length_singleton]
  refine ⟨?_, ?_, ?_, ?_, ?_, fun w hw => by cases hw⟩ <;> omega

theorem manifestWrites_in (man : List ManifestSpec) (slot : Nat) :
    ∀ w ∈ manifestWrites man slot, w.In slot (slot + man.length * 32) := by
  induction man generalizing slot with
  | nil => intro w hw; cases hw
  | cons m man ih =>
    intro w hw
    rw [List.length_cons]
    rcases List.mem_append.mp hw with hw | hw
    · have h := entryWrites_in slot m w hw
      unfold Write.In at h ⊢
      omega
    · have h := ih (slot + 32) w hw
      unfold Write.In at h ⊢
      omega

/-! ## No two writes overlap -/

theorem headerWrites_apart (arch : U16) (entry : BitVec 64) (total segCount manOff manCount : Nat) :
    (headerWrites arch entry total segCount manOff manCount).Pairwise Write.Apart := by
  simp only [headerWrites, List.pairwise_cons, List.forall_mem_cons, Write.Apart, Apart,
    wordBytes_length]
  simp

theorem recordWrites_apart (slot cursor : Nat) (s : SegmentSpec) (h : slot + 32 ≤ cursor) :
    (recordWrites slot cursor s).Pairwise Write.Apart := by
  simp only [recordWrites, List.pairwise_cons, List.forall_mem_cons, Write.Apart, Apart,
    wordBytes_length, List.length_singleton]
  simp
  omega

/-- The table ends before the data begins. -/
theorem segmentWrites_apart (segs : List SegmentSpec) (slot cursor : Nat)
    (h : slot + segs.length * 32 ≤ cursor) :
    (segmentWrites segs slot cursor).Pairwise Write.Apart := by
  induction segs generalizing slot cursor with
  | nil => exact List.Pairwise.nil
  | cons s segs ih =>
    rw [List.length_cons] at h
    refine List.pairwise_append.mpr ⟨recordWrites_apart slot cursor s (by omega), ih _ _ (by omega),
      fun v hv w hw => ?_⟩
    rcases recordWrites_in slot cursor s v hv with h1 | h1 <;>
      rcases segmentWrites_in segs _ _ w hw with h2 | h2 <;> exact h1.apart h2 (by omega)

theorem entryWrites_apart (slot : Nat) (m : ManifestSpec) :
    (entryWrites slot m).Pairwise Write.Apart := by
  simp only [entryWrites, List.pairwise_cons, List.forall_mem_cons, Write.Apart, Apart,
    wordBytes_length, List.length_singleton]
  simp

theorem manifestWrites_apart (man : List ManifestSpec) (slot : Nat) :
    (manifestWrites man slot).Pairwise Write.Apart := by
  induction man generalizing slot with
  | nil => exact List.Pairwise.nil
  | cons m man ih =>
    refine List.pairwise_append.mpr ⟨entryWrites_apart slot m, ih _, fun v hv w hw => ?_⟩
    exact (entryWrites_in slot m v hv).apart (manifestWrites_in man _ w hw) (by omega)

section

variable (arch : U16) (entry : BitVec 64) (segs : List SegmentSpec) (man : List ManifestSpec)

theorem image_offsets :
    manOffset segs = 48 + segs.length * 32 ∧
      dataOffset segs man = manOffset segs + man.length * 32 ∧
      imageLen segs man = dataOffset segs man + dataLen segs := ⟨rfl, rfl, rfl⟩

/-- **The layout has no overlaps.** -/
theorem imageWrites_apart : (imageWrites arch entry segs man).Pairwise Write.Apart := by
  obtain ⟨hman, hdata, -⟩ := image_offsets segs man
  refine List.pairwise_append.mpr ⟨headerWrites_apart _ _ _ _ _ _, List.pairwise_append.mpr
    ⟨segmentWrites_apart segs _ _ ?_, manifestWrites_apart man _, fun v hv w hw => ?_⟩,
    fun v hv w hw => ?_⟩
  · show 48 + segs.length * 32 ≤ _
    omega
  · have h2 := manifestWrites_in man _ w hw
    rcases segmentWrites_in segs _ _ v hv with h1 | h1
    · exact h1.apart h2 (Or.inl (Nat.le_of_eq hman.symm))
    · exact h1.apart h2 (Or.inr (Nat.le_of_eq hdata.symm))
  · have h1 := headerWrites_in _ _ _ _ _ _ v hv
    rcases List.mem_append.mp hw with hw | hw
    · rcases segmentWrites_in segs _ _ w hw with h2 | h2
      · exact h1.apart h2 (Or.inl (by show 32 ≤ 48; omega))
      · exact h1.apart h2 (Or.inl (by omega))
    · exact h1.apart (manifestWrites_in man _ w hw) (Or.inl (by omega))

theorem imageWrites_fit :
    ∀ w ∈ imageWrites arch entry segs man, w.1 + w.2.length ≤ imageLen segs man := by
  obtain ⟨hman, hdata, hlen⟩ := image_offsets segs man
  intro w hw
  rcases List.mem_append.mp hw with hw | hw
  · have := (headerWrites_in _ _ _ _ _ _ w hw).2
    omega
  rcases List.mem_append.mp hw with hw | hw
  · rcases segmentWrites_in segs _ _ w hw with h | h
    · have : w.1 + w.2.length ≤ 48 + segs.length * 32 := h.2
      omega
    · have := h.2
      omega
  · have := (manifestWrites_in man _ w hw).2
    omega

end

/-! ## What `encode` does -/

section Writes

variable {b : List U8} {E : Halt → List U8 → Prop}

variable {Q : Unit → List U8 → Prop}

theorem ends_store (off : Nat) (xs : List U8) (h : off + xs.length ≤ b.length) :
    Ends (store off xs) b Q E ↔ Q () (patch b off xs) := by
  unfold store
  rw [ends_bind, ends_get, ends_bind, ends_refuseIf]
  exact ⟨fun hh => hh.2 (by omega), fun hq => ⟨fun hlt => by omega, fun _ => hq⟩⟩

theorem ends_tryU32 {Q : BitVec 32 → List U8 → Prop} (n : Nat) (h : n < 2 ^ 32) :
    Ends (tryU32 n) b Q E ↔ Q (BitVec.ofNat 32 n) b := by
  unfold tryU32 Word.tryFrom
  rw [if_pos h]
  exact ends_pure _

/-- One write after the other. -/
def stores : List Write → Encode Unit
  | [] => pure ()
  | w :: ws => do
    store w.1 w.2
    stores ws

theorem ends_stores (ws : List Write) (h : ∀ w ∈ ws, w.1 + w.2.length ≤ b.length) :
    Ends (stores ws) b Q E ↔ Q () (patches b ws) := by
  induction ws generalizing b with
  | nil => exact Iff.rfl
  | cons w ws ih =>
    have hw : w.1 + w.2.length ≤ b.length := h w List.mem_cons_self
    rw [stores, ends_bind, ends_store w.1 w.2 hw, ih (fun v hv => ?_)]
    · exact Iff.rfl
    · rw [patch_length b w.1 w.2 hw]
      exact h v (List.mem_cons_of_mem w hv)

theorem ends_writeHeader (arch : U16) (entry : BitVec 64) (total segCount manOff manCount : Nat)
    (hb : 32 ≤ b.length) (hman : manOff < 2 ^ 32) :
    Ends (writeHeader arch entry total HEADER_LEN segCount manOff manCount) b Q E ↔
      Q () (patches b (headerWrites arch entry total segCount manOff manCount)) := by
  refine Iff.trans ?_ (ends_stores (E := E) _ (fun w hw => ?_))
  · have hseg : HEADER_LEN < 2 ^ 32 := by decide
    simp only [writeHeader, wrU16, wrU32, wrU64, headerWrites, stores, ends_bind, ends_pure,
      ends_tryU32 _ hseg, ends_tryU32 _ hman]
  · have := (headerWrites_in _ _ _ _ _ _ w hw).2
    omega

theorem ends_writeSegment {Q : Nat → List U8 → Prop} (slot cursor : Nat) (s : SegmentSpec)
    (hslot : slot + 32 ≤ b.length) (hdata : cursor + s.data.length ≤ b.length)
    (hb : b.length < 2 ^ 32) :
    Ends (writeSegment slot cursor s) b Q E ↔
      Q (cursor + s.data.length) (patches b (recordWrites slot cursor s)) := by
  refine Iff.trans ?_ (ends_stores (E := E) (Q := fun _ => Q (cursor + s.data.length)) _
    (fun w hw => ?_))
  · simp only [writeSegment, wrU32, wrU64, recordWrites, stores, ends_bind, ends_pure,
      ends_tryU32 s.data.length (by omega), ends_tryU32 cursor (by omega)]
  · rcases recordWrites_in slot cursor s w hw with h | h <;> have := h.2 <;> omega

theorem ends_writeManifestEntry (slot : Nat) (m : ManifestSpec) (hslot : slot + 32 ≤ b.length) :
    Ends (writeManifestEntry slot m) b Q E ↔ Q () (patches b (entryWrites slot m)) := by
  refine Iff.trans ?_ (ends_stores (E := E) _ (fun w hw => ?_))
  · simp only [writeManifestEntry, wrU16, wrU32, wrU64, entryWrites, stores, ends_bind, ends_pure]
  · have := (entryWrites_in slot m w hw).2
    omega

theorem ends_writeSegments {Q : Nat → List U8 → Prop} (segs : List SegmentSpec) (i cursor : Nat)
    (htable : HEADER_LEN + i * SEGMENT_LEN + segs.length * 32 ≤ b.length)
    (hdata : cursor + dataLen segs ≤ b.length) (hb : b.length < 2 ^ 32) :
    Ends (writeSegments HEADER_LEN segs i cursor) b Q E ↔
      Q (cursor + dataLen segs) (patches b (segmentWrites segs (HEADER_LEN + i * SEGMENT_LEN)
        cursor)) := by
  induction segs generalizing b i cursor with
  | nil => exact Iff.rfl
  | cons s segs ih =>
    rw [dataLen_cons] at hdata ⊢
    rw [List.length_cons] at htable
    have hlen : (patches b (recordWrites (HEADER_LEN + i * SEGMENT_LEN) cursor s)).length =
      b.length := by
      refine patches_length b _ (fun w hw => ?_)
      rcases recordWrites_in _ cursor s w hw with h | h <;> have := h.2 <;> omega
    have hnext : HEADER_LEN + (i + 1) * SEGMENT_LEN = HEADER_LEN + i * SEGMENT_LEN + 32 := by
      rw [Nat.add_mul, Nat.one_mul, Nat.add_assoc]
      rfl
    rw [writeSegments, ends_bind, ends_writeSegment _ cursor s (by omega) (by omega) hb,
      ih (i + 1) (cursor + s.data.length) (by rw [hnext, hlen]; omega) (by rw [hlen]; omega)
      (by rw [hlen]; exact hb), hnext, segmentWrites, patches_append, Nat.add_assoc]

theorem ends_writeManifest (man : List ManifestSpec) (manOff i : Nat)
    (htable : manOff + i * MANIFEST_LEN + man.length * 32 ≤ b.length) :
    Ends (writeManifest manOff man i) b Q E ↔
      Q () (patches b (manifestWrites man (manOff + i * MANIFEST_LEN))) := by
  induction man generalizing b i with
  | nil => exact Iff.rfl
  | cons m man ih =>
    rw [List.length_cons] at htable
    have hlen : (patches b (entryWrites (manOff + i * MANIFEST_LEN) m)).length = b.length := by
      refine patches_length b _ (fun w hw => ?_)
      have := (entryWrites_in _ m w hw).2
      omega
    have hnext : manOff + (i + 1) * MANIFEST_LEN = manOff + i * MANIFEST_LEN + 32 := by
      rw [Nat.add_mul, Nat.one_mul, Nat.add_assoc]
      rfl
    rw [writeManifest, ends_bind, ends_writeManifestEntry _ m (by omega),
      ih (i + 1) (by rw [hnext, hlen]; omega), hnext, manifestWrites, patches_append]

end Writes

/-- The length `encoded_len` computes, unless it refuses. -/
theorem foldlM_narrow (segs : List SegmentSpec) (len n : Nat) (hlen : len < 2 ^ 64) :
    segs.foldlM (fun len s => Word.narrow 64 (len + s.data.length)) len = some n ↔
      n = len + dataLen segs ∧ n < 2 ^ 64 := by
  induction segs generalizing len with
  | nil =>
    show some len = some n ↔ _
    rw [Option.some.injEq]
    exact ⟨fun h => ⟨h.symm, h ▸ hlen⟩, fun h => h.1.symm⟩
  | cons s segs ih =>
    rw [List.foldlM_cons, dataLen_cons]
    by_cases hfit : len + s.data.length < 2 ^ 64
    · rw [show Word.narrow 64 (len + s.data.length) = some _ from if_pos hfit]
      show List.foldlM _ (len + s.data.length) segs = some n ↔ _
      rw [ih _ hfit, Nat.add_assoc]
    · rw [show Word.narrow 64 (len + s.data.length) = none from if_neg hfit]
      exact ⟨fun h => (by cases h), fun h => by omega⟩

theorem encodedLen_eq_some (segs : List SegmentSpec) (man : List ManifestSpec) (n : Nat) :
    encodedLen segs man = some n ↔
      segs.length ≤ MAX_SEGMENTS ∧ man.length ≤ MAX_MANIFEST ∧ n = imageLen segs man ∧ n <
        2 ^ 64 := by
  unfold encodedLen
  by_cases hc : MAX_SEGMENTS < segs.length ∨ MAX_MANIFEST < man.length
  · rw [if_pos hc]
    exact ⟨fun h => (by cases h), fun h => by omega⟩
  · rw [if_neg hc]
    rw [not_or, Nat.not_lt, Nat.not_lt] at hc
    obtain ⟨h1, h2⟩ := hc
    have h1' : segs.length ≤ 16 := h1
    have h2' : man.length ≤ 32 := h2
    have e1 : segs.length * SEGMENT_LEN = segs.length * 32 := rfl
    have e2 : man.length * MANIFEST_LEN = man.length * 32 := rfl
    have e3 : HEADER_LEN = 48 := rfl
    have n1 : Word.narrow 64 (segs.length * SEGMENT_LEN) = some _ := if_pos (by omega)
    have n2 : Word.narrow 64 (HEADER_LEN + segs.length * SEGMENT_LEN) = some _ := if_pos (by omega)
    have n3 : Word.narrow 64 (man.length * MANIFEST_LEN) = some _ := if_pos (by omega)
    have n4 : Word.narrow 64 (HEADER_LEN + segs.length * SEGMENT_LEN + man.length * MANIFEST_LEN) =
      some _ := if_pos (by omega)
    simp only [n1, n2, n3, n4, Option.bind_eq_bind, Option.bind_some]
    rw [foldlM_narrow segs _ n (by omega)]
    exact ⟨fun h => ⟨h1, h2, h.1, h.2⟩, fun h => h.2.2⟩

/-- The bytes of an image: every write stands, over zeros. -/
structure Image (b : List U8) (arch : U16) (entry : BitVec 64) (segs : List SegmentSpec)
    (man : List ManifestSpec) :
    Prop where
  length : b.length = imageLen segs man
  holds : ∀ w ∈ imageWrites arch entry segs man, Holds b w.1 w.2
  zeros : Holds b 32 (List.replicate 16 0)

theorem image_patches (arch : U16) (entry : BitVec 64) (segs : List SegmentSpec)
    (man : List ManifestSpec) :
    Image (patches (List.replicate (imageLen segs man) 0) (imageWrites arch entry segs man)) arch
      entry segs man := by
  obtain ⟨hman, hdata, hlen⟩ := image_offsets segs man
  obtain ⟨h1, h2, h3⟩ :=
    patches_spec (List.replicate (imageLen segs man) 0) (imageWrites arch entry segs man)
    (fun w hw => by rw [List.length_replicate]; exact imageWrites_fit arch entry segs man w hw)
    (imageWrites_apart arch entry segs man)
  refine ⟨by rw [h1, List.length_replicate], h2, h3 32 _ (holds_zeros _ 32 16 (by omega))
    (fun w hw => ?_)⟩
  -- the header fields end at 32, the tables and the data begin at 48
  rw [List.length_replicate]
  unfold Apart
  rcases List.mem_append.mp hw with hw | hw
  · have := (headerWrites_in _ _ _ _ _ _ w hw).2
    omega
  rcases List.mem_append.mp hw with hw | hw
  · rcases segmentWrites_in segs _ _ w hw with h | h
    · have : 48 ≤ w.1 := h.1
      omega
    · have := h.1
      omega
  · have := (manifestWrites_in man _ w hw).1
    omega

/-- When `encode` succeeds. -/
def Encodable (segs : List SegmentSpec) (man : List ManifestSpec) (out : List U8) : Prop :=
  segs.length ≤ MAX_SEGMENTS ∧ man.length ≤ MAX_MANIFEST ∧ imageLen segs man < 2 ^ 32 ∧
    imageLen segs man ≤ out.length

/-- **The encoder**, on any description and buffer. -/
theorem encode_spec (arch : U16) (entry : BitVec 64) (segs : List SegmentSpec)
    (man : List ManifestSpec) (out : List U8) :
    Ends (encode arch entry segs man) out
      (fun n out' => Encodable segs man out ∧ n = imageLen segs man ∧
        Image (out'.take n) arch entry segs man ∧
        out'.drop n = out.drop n ∧ out'.length = out.length)
      (fun f out' => f = .none ∧ out' = out ∧ ¬ Encodable segs man out) := by
  unfold encode
  rw [ends_bind, ends_okOr]
  refine ⟨fun hnone => ⟨rfl, rfl, fun he => ?_⟩, fun total htotal => ?_⟩
  · have hsome :=
      (encodedLen_eq_some segs man _).mpr ⟨he.1, he.2.1, rfl, by have := he.2.2.1; omega⟩
    rw [hsome] at hnone
    cases hnone
  obtain ⟨hs, hm, rfl, -⟩ := (encodedLen_eq_some segs man total).mp htotal
  rw [ends_bind, ends_get, ends_bind, ends_refuseIf, Word.tryFrom_eq_none]
  refine ⟨fun hbad => ⟨rfl, rfl, fun he => by unfold Encodable at he; omega⟩, fun hgood => ?_⟩
  rw [not_or, Nat.not_lt, Nat.not_le] at hgood
  obtain ⟨hman, hdata, hlen⟩ := image_offsets segs man
  have htake : (out.take (imageLen segs man)).length = imageLen segs man := by
    rw [List.length_take]
    omega
  dsimp only
  rw [show HEADER_LEN + segs.length * SEGMENT_LEN + man.length * MANIFEST_LEN =
    dataOffset segs man from rfl,
    show HEADER_LEN + segs.length * SEGMENT_LEN = manOffset segs from rfl]
  unfold onPrefix
  rw [ends_zoom, ends_bind, ends_modify, htake]
  have hzero : (List.replicate (imageLen segs man) (0 : U8)).length = imageLen segs man :=
    List.length_replicate
  have hhead : (patches (List.replicate (imageLen segs man) 0)
    (headerWrites arch entry (imageLen segs man) segs.length
      (manOffset segs) man.length)).length = imageLen segs man := by
    rw [patches_length _ _ (fun w hw => ?_), hzero]
    have := (headerWrites_in _ _ _ _ _ _ w hw).2
    omega
  have hsegs : (patches (patches (List.replicate (imageLen segs man) 0)
    (headerWrites arch entry (imageLen segs man) segs.length (manOffset segs) man.length))
      (segmentWrites segs HEADER_LEN (dataOffset segs man))).length =
        imageLen segs man := by
    rw [patches_length _ _ (fun w hw => ?_), hhead]
    rw [hhead]
    exact imageWrites_fit arch entry segs man w
      (List.mem_append_right _ (List.mem_append_left _ hw))
  rw [ends_bind, ends_writeHeader _ _ _ _ _ _ (by omega) (by show manOffset segs < _; omega),
    ends_bind, ends_writeSegments segs 0 (dataOffset segs man)
    (by rw [hhead]; show 48 + 0 * 32 + segs.length * 32 ≤ _; omega)
      (by rw [hhead]; omega) (by rw [hhead]; exact hgood.2)]
  rw [ends_bind, ends_writeManifest man (manOffset segs) 0 (by
    rw [show HEADER_LEN + 0 * SEGMENT_LEN = HEADER_LEN from rfl, hsegs]
    show manOffset segs + 0 * 32 + man.length * 32 ≤ _
    omega), ends_pure]
  have hslot : HEADER_LEN + 0 * SEGMENT_LEN = HEADER_LEN := rfl
  have himage := image_patches arch entry segs man
  unfold imageWrites at himage
  rw [patches_append, patches_append] at himage
  rw [hslot, Nat.zero_mul, Nat.add_zero]
  refine ⟨⟨hs, hm, hgood.2, hgood.1⟩, rfl, ?_, ?_, ?_⟩
  · rw [List.take_left' himage.length]
    exact himage
  · rw [List.drop_left' himage.length]
  · rw [List.length_append, List.length_drop, himage.length]
    omega

/-! ## The image, read back -/

/-- A segment description that can be loaded. -/
structure SegmentSpec.Ok (s : SegmentSpec) : Prop where
  known : s.perm &&& ~~~(PERM_R ||| PERM_W ||| PERM_X) = 0
  readable : s.perm &&& PERM_R ≠ 0
  notWx : ¬ (s.perm &&& PERM_W ≠ 0 ∧ s.perm &&& PERM_X ≠ 0)
  vaddr_aligned : s.vaddr.toNat % 4096 = 0
  mem_aligned : s.memSize.toNat % 4096 = 0
  data_le : s.data.length ≤ s.memSize.toNat
  mem_le : s.memSize.toNat ≤ 16 * 1024 * 1024
  ends : s.vaddr.toNat + s.memSize.toNat < 2 ^ 64

/-- The address lies inside the executable segment that `s` describes. -/
def SegmentSpec.Runs (s : SegmentSpec) (addr : BitVec 64) : Prop :=
  s.perm &&& PERM_X ≠ 0 ∧ s.vaddr.toNat ≤ addr.toNat ∧ addr.toNat < s.vaddr.toNat + s.memSize.toNat

/-- The record of `s`, its data at `cursor`. -/
def SegmentSpec.record (s : SegmentSpec) (cursor : Nat) : Segment :=
  ⟨BitVec.ofNat 32 cursor, BitVec.ofNat 32 s.data.length, s.vaddr, s.memSize, s.perm⟩

def ManifestSpec.entry (m : ManifestSpec) : ManifestEntry :=
  ⟨m.capType, m.destSlot, m.rights, m.param0, m.param1⟩

/-- Where the data of segment `i` begins. -/
def dataStart (segs : List SegmentSpec) (man : List ManifestSpec) (i : Nat) : Nat :=
  dataOffset segs man + dataLen (segs.take i)

variable {segs : List SegmentSpec} {i : Nat} {s : SegmentSpec} {w : Write}

theorem recordWrites_mem (h : segs[i]? = some s) (slot cursor : Nat)
    (hw : w ∈ recordWrites (slot + i * 32) (cursor + dataLen (segs.take i)) s) :
    w ∈ segmentWrites segs slot cursor := by
  induction segs generalizing i slot cursor with
  | nil => cases h
  | cons s' segs ih =>
    cases i with
    | zero =>
      cases h
      refine List.mem_append_left _ ?_
      rwa [Nat.zero_mul] at hw
    | succ i =>
      refine List.mem_append_right _ (ih h _ _ ?_)
      rwa [List.take_succ_cons, dataLen_cons, Nat.add_mul, Nat.one_mul, Nat.add_comm (i * 32),
        ← Nat.add_assoc, ← Nat.add_assoc] at hw

theorem entryWrites_mem {man : List ManifestSpec} {m : ManifestSpec} (h : man[i]? = some m)
    (slot : Nat) (hw : w ∈ entryWrites (slot + i * 32) m) : w ∈ manifestWrites man slot := by
  induction man generalizing i slot with
  | nil => cases h
  | cons m' man ih =>
    cases i with
    | zero =>
      cases h
      refine List.mem_append_left _ ?_
      rwa [Nat.zero_mul] at hw
    | succ i =>
      refine List.mem_append_right _ (ih h _ ?_)
      rwa [Nat.add_mul, Nat.one_mul, Nat.add_comm (i * 32), ← Nat.add_assoc] at hw

theorem dataLen_take_le (h : segs[i]? = some s) :
    dataLen (segs.take i) + s.data.length ≤ dataLen segs := by
  induction segs generalizing i with
  | nil => cases h
  | cons s' segs ih =>
    cases i with
    | zero =>
      cases h
      rw [dataLen_cons, List.take_zero]
      show 0 + s.data.length ≤ _
      omega
    | succ i =>
      rw [List.take_succ_cons, dataLen_cons, dataLen_cons]
      have := ih h
      omega

namespace Image

variable {b : List U8} {arch : U16} {entry : BitVec 64} {segs : List SegmentSpec}
  {man : List ManifestSpec}

/-- The header fields. -/
theorem header (h : Image b arch entry segs man) (he : Encodable segs man b) :
    word 32 b 0 = PEX_MAGIC ∧ word 16 b 4 = PEX_VERSION ∧ word 16 b 6 = arch ∧
      (word 32 b 16).toNat = b.length ∧
      Pex.view b = ⟨b, entry, HEADER_LEN, segs.length, manOffset segs, man.length⟩ := by
  have hw : ∀ w ∈ headerWrites arch entry (imageLen segs man) segs.length (manOffset segs)
    man.length,
      Holds b w.1 w.2 := fun w hw => h.holds w (List.mem_append_left _ hw)
  simp only [headerWrites, List.forall_mem_cons] at hw
  obtain ⟨h0, h4, h6, h8, h16, h20, h24, h26, h28, -⟩ := hw
  obtain ⟨hs, hm, hlt, -⟩ := he
  have hs' : segs.length ≤ 16 := hs
  have hm' : man.length ≤ 32 := hm
  have hman : manOffset segs ≤ imageLen segs man :=
    Nat.le_trans (Nat.le_add_right _ _) (Nat.le_add_right _ _)
  refine ⟨h0.word rfl, h4.word rfl, h6.word rfl, ?_, ?_⟩
  · rw [h16.word rfl, BitVec.toNat_ofNat, Nat.mod_eq_of_lt hlt, h.length]
  · unfold Pex.view
    rw [h8.word rfl, h20.word rfl, h24.word rfl, h26.word rfl, h28.word rfl]
    simp only [BitVec.toNat_ofNat]
    rw [Nat.mod_eq_of_lt (show segs.length < 2 ^ 16 by omega),
      Nat.mod_eq_of_lt (show man.length < 2 ^ 16 by omega),
      Nat.mod_eq_of_lt (show manOffset segs < 2 ^ 32 by omega)]
    rfl

variable {i : Nat} {s : SegmentSpec}

/-- The record and the data of a segment. -/
theorem segment (h : Image b arch entry segs man) (he : Encodable segs man b)
    (hi : segs[i]? = some s) :
    (Pex.view b).segmentAt i = s.record (dataStart segs man i) ∧
      Holds b (dataStart segs man i) s.data := by
  have hw : ∀ w ∈ recordWrites (HEADER_LEN + i * 32) (dataStart segs man i) s, Holds b w.1 w.2 :=
    fun w hw =>
    h.holds w (List.mem_append_right _ (List.mem_append_left _ (recordWrites_mem hi _ _ hw)))
  simp only [recordWrites, List.forall_mem_cons] at hw
  obtain ⟨h0, h4, h8, h16, h24, hd, -⟩ := hw
  refine ⟨?_, hd⟩
  obtain ⟨-, -, -, -, hview⟩ := h.header he
  unfold Pex.segmentAt
  rw [hview]
  show Segment.mk (word 32 b (HEADER_LEN + i * 32)) (word 32 b (HEADER_LEN + i * 32 + 4))
    (word 64 b (HEADER_LEN + i * 32 + 8)) (word 64 b (HEADER_LEN + i * 32 + 16))
    (b[HEADER_LEN + i * 32 + 24]?.getD 0) = _
  rw [h0.word rfl, h4.word rfl, h8.word rfl, h16.word rfl, h24.byte]
  rfl

theorem manifest (h : Image b arch entry segs man) (he : Encodable segs man b) {m : ManifestSpec}
    (hi : man[i]? = some m) : (Pex.view b).manifestAt i = m.entry := by
  have hw : ∀ w ∈ entryWrites (manOffset segs + i * 32) m, Holds b w.1 w.2 := fun w hw =>
    h.holds w (List.mem_append_right _ (List.mem_append_right _ (entryWrites_mem hi _ hw)))
  simp only [entryWrites, List.forall_mem_cons] at hw
  obtain ⟨h0, h2, h4, h8, h16, -⟩ := hw
  obtain ⟨-, -, -, -, hview⟩ := h.header he
  unfold Pex.manifestAt
  rw [hview]
  show ManifestEntry.mk (b[manOffset segs + i * 32]?.getD 0)
    (word 16 b (manOffset segs + i * 32 + 2))
    (word 32 b (manOffset segs + i * 32 + 4)) (word 64 b (manOffset segs + i * 32 + 8))
    (word 64 b (manOffset segs + i * 32 + 16)) = _
  rw [h0.byte, h2.word rfl, h4.word rfl, h8.word rfl, h16.word rfl]
  rfl

/-- The data of every segment lies in the image. -/
theorem file_le (he : Encodable segs man b) (hi : segs[i]? = some s) :
    (s.record (dataStart segs man i)).fileOff.toNat = dataStart segs man i ∧
      (s.record (dataStart segs man i)).fileSize.toNat = s.data.length ∧
        dataStart segs man i + s.data.length ≤ imageLen segs man := by
  have hle : dataStart segs man i + s.data.length ≤ imageLen segs man := by
    have := dataLen_take_le hi
    unfold dataStart imageLen
    omega
  have hlt := he.2.2.1
  refine ⟨?_, ?_, hle⟩
  · show (BitVec.ofNat 32 _).toNat = _
    rw [BitVec.toNat_ofNat, Nat.mod_eq_of_lt (by omega)]
  · show (BitVec.ofNat 32 _).toNat = _
    rw [BitVec.toNat_ofNat, Nat.mod_eq_of_lt (by omega)]

theorem record_ok (he : Encodable segs man b) (hi : segs[i]? = some s) (hok : s.Ok) :
    (s.record (dataStart segs man i)).Ok where
  known := hok.known
  readable := hok.readable
  notWx := hok.notWx
  vaddr_aligned := hok.vaddr_aligned
  mem_aligned := hok.mem_aligned
  file_le := by
    rw [(file_le he hi).2.1]
    exact hok.data_le
  mem_le := hok.mem_le
  ends := hok.ends

/-- **The image of a valid description is well formed.** -/
theorem wellFormed (h : Image b arch entry segs man) (he : Encodable segs man b)
    (hok : ∀ s ∈ segs, s.Ok) (hruns : ∃ s ∈ segs, s.Runs entry) : WellFormed b arch := by
  obtain ⟨hmagic, hversion, harch, htotal, hview⟩ := h.header he
  have hlen := h.length
  have hzero : word 32 b 36 = 0 := by
    have hz : Holds b 36 (wordBytes (0 : BitVec 32)) := h.zeros.zeros_sub 4 4 (by decide)
    exact hz.word rfl
  refine ⟨?_, hmagic, hversion, harch, htotal, ?_, ?_, ?_, ?_, ?_, fun hne => absurd hzero hne,
    fun i hi => ?_, ?_⟩
  · rw [hlen]
    exact Nat.le_trans (Nat.le_add_right _ _)
      (Nat.le_trans (Nat.le_add_right _ _) (Nat.le_add_right _ _))
  · exact (h.zeros.zeros_sub 8 8 (by decide)).slice
  · rw [hview]
    exact he.1
  · rw [hview]
    exact he.2.1
  · rw [hview, hlen]
    exact Nat.le_trans (Nat.le_add_right _ _) (Nat.le_add_right _ _)
  · rw [hview, hlen]
    exact Nat.le_add_right _ _
  · have hi' : i < segs.length := by rwa [hview] at hi
    have hs : segs[i]? = some segs[i] := List.getElem?_eq_getElem hi'
    obtain ⟨hfo, hfs, hle⟩ := file_le he hs
    rw [(h.segment he hs).1, hfo, hfs, hlen]
    exact ⟨record_ok he hs (hok _ (List.getElem_mem hi')), hle⟩
  · obtain ⟨s, hs, hx, hlo, hhi⟩ := hruns
    obtain ⟨i, hi⟩ := List.mem_iff_getElem?.mp hs
    refine ⟨i, ?_, ?_⟩
    · rw [hview]
      exact (List.getElem?_eq_some_iff.mp hi).1
    · rw [(h.segment he hi).1, hview]
      exact ⟨bne_iff_ne.mpr hx, hlo, hhi⟩

end Image

/-- **Encode, then parse.**  `encode` succeeds exactly when the image fits, and a valid description
comes back. -/
theorem encode_parse (arch : U16) (entry : BitVec 64) (segs : List SegmentSpec)
    (man : List ManifestSpec) (out : List U8) :
    (∀ f out', encode arch entry segs man out = .error f out' → f = .none ∧ out' = out) ∧
    (∀ n, (∃ out', encode arch entry segs man out = .ok n out') ↔
      segs.length ≤ MAX_SEGMENTS ∧ man.length ≤ MAX_MANIFEST ∧ encodedLen segs man = some n ∧
        n < 2 ^ 32 ∧
        n ≤ out.length) ∧
    (∀ n out', encode arch entry segs man out = .ok n out' →
      out'.length = out.length ∧ out'.drop n = out.drop n ∧
      ((∀ s ∈ segs, s.Ok) → (∃ s ∈ segs, s.Runs entry) →
        ∃ p, Pex.parse (out'.take n) arch () = .ok p () ∧ p.entry = entry ∧
          p.segCount = segs.length ∧
          p.manCount = man.length ∧
          (∀ i s, segs[i]? = some s → ∃ r, p.segment i () = .ok r () ∧ r.vaddr = s.vaddr ∧
            r.memSize = s.memSize ∧
            r.perm = s.perm ∧ p.segmentData i () = .ok s.data ()) ∧
          ∀ i m, man[i]? = some m → p.manifest i () = .ok m.entry ())) := by
  have hspec := encode_spec arch entry segs man out
  refine ⟨fun f out' hf => ⟨(hspec.error hf).1, (hspec.error hf).2.1⟩, fun n => ⟨?_, fun hn => ?_⟩,
    fun n out' ho => ?_⟩
  · rintro ⟨out', ho⟩
    obtain ⟨⟨hs, hm, hlt, hfit⟩, rfl, -⟩ := hspec.ok ho
    exact ⟨hs, hm, (encodedLen_eq_some segs man _).mpr ⟨hs, hm, rfl, by omega⟩, hlt, hfit⟩
  · obtain ⟨hs, hm, hn, hlt, hfit⟩ := hn
    obtain ⟨-, -, rfl, -⟩ := (encodedLen_eq_some segs man n).mp hn
    cases he : encode arch entry segs man out with
    | ok k out' =>
      obtain ⟨-, rfl, -⟩ := hspec.ok he
      exact ⟨out', rfl⟩
    | error f out' => exact absurd ⟨hs, hm, hlt, hfit⟩ (hspec.error he).2.2
  · obtain ⟨⟨hs, hm, hlt, hfit⟩, rfl, himage, hdrop, hlen⟩ := hspec.ok ho
    refine ⟨hlen, hdrop, fun hok hruns => ?_⟩
    -- what holds of the buffer holds of the image in it
    have he : Encodable segs man (out'.take (imageLen segs man)) :=
      ⟨hs, hm, hlt, Nat.le_of_eq himage.length.symm⟩
    have hwf := himage.wellFormed he hok hruns
    obtain ⟨-, -, -, -, hview⟩ := himage.header he
    have hin := hwf.within
    refine ⟨Pex.view (out'.take (imageLen segs man)), ?_, ?_⟩
    · cases hp : Pex.parse (out'.take (imageLen segs man)) arch () with
      | ok p u =>
        obtain ⟨-, rfl⟩ := (parse_spec _ arch).ok hp
        rfl
      | error f u => exact absurd hwf ((parse_spec _ arch).error hp).2
    · refine ⟨by rw [hview], by rw [hview], by rw [hview], fun i s hi => ?_, fun i m hi => ?_⟩
      · have hlti : i < (Pex.view (out'.take (imageLen segs man))).segCount := by
          rw [hview]
          exact (List.getElem?_eq_some_iff.mp hi).1
        obtain ⟨hrec, hdata⟩ := himage.segment he hi
        obtain ⟨hfo, hfs, -⟩ := Image.file_le he hi
        refine ⟨_, eq_ok_of_ends ((ends_segment hin hlti).mpr
          rfl), by rw [hrec]; rfl, by rw [hrec]; rfl, by rw [hrec]; rfl, ?_⟩
        rw [eq_ok_of_ends ((ends_segmentData hin hlti (hwf.segments i hlti).2).mpr rfl)]
        unfold Pex.dataAt
        rw [hrec, hfo, hfs]
        exact congrArg (fun d => EStateM.Result.ok d ()) hdata.slice
      · have hlti : i < (Pex.view (out'.take (imageLen segs man))).manCount := by
          rw [hview]
          exact (List.getElem?_eq_some_iff.mp hi).1
        rw [eq_ok_of_ends ((ends_manifest hin hlti).mpr rfl), himage.manifest he hi]

/-- One executable page that begins with two bytes of code. -/
def codePage : SegmentSpec := ⟨0x40000000, 4096, PERM_R ||| PERM_X, [0x0f, 0x05]⟩

theorem codePage_ok : codePage.Ok := by
  constructor <;> decide

/-- A description that is encoded into a buffer of 200 bytes and read back. -/
theorem encode_parse_codePage :
    ∃ n out' p, encode ARCH_X86_64 0x40000000 [codePage] [⟨MANIFEST_SCHED, 0, 1, 5, 0⟩]
      (List.replicate 200 0xff) =
        .ok n out' ∧ Pex.parse (out'.take n) ARCH_X86_64 () = .ok p () ∧
          p.segmentData 0 () = .ok [0x0f, 0x05] () ∧
      p.manifest 0 () = .ok ⟨MANIFEST_SCHED, 0, 1, 5, 0⟩ () := by
  obtain ⟨-, hiff, hround⟩ :=
    encode_parse ARCH_X86_64 0x40000000 [codePage] [⟨MANIFEST_SCHED, 0, 1, 5, 0⟩]
    (List.replicate 200 0xff)
  obtain ⟨out', ho⟩ := (hiff 114).mpr
    ⟨by decide, by decide, by decide, by decide, by rw [List.length_replicate]; omega⟩
  have hruns : codePage.Runs 0x40000000 := ⟨by decide, by decide, by decide⟩
  obtain ⟨p, hp, -, -, -, hseg, hman⟩ := (hround 114 out' ho).2.2 (by simpa using codePage_ok)
    ⟨_, List.mem_singleton_self _, hruns⟩
  obtain ⟨r, -, -, -, -, hdata⟩ := hseg 0 codePage rfl
  exact ⟨114, out', p, ho, hp, hdata, hman 0 _ rfl⟩

end Praesidium
