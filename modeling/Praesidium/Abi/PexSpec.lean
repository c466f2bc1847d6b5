import Praesidium.Abi.Pex

/-!
What the `.pex` parser accepts.

`WellFormed b arch` says in terms of the bytes what a well-formed image is; `Pex.view b`
and the records `segmentAt`, `manifestAt` are the fields at their places.

    Ends (Pex.parse b arch) () (b is well formed, and the value is Pex.view b)
      (refused with some PexError, and b is not well formed)                  (parse_spec)

So the parser accepts exactly the well-formed images, never panics, and the accessors
of an accepted image read what stands there (`parse_exact`).
-/

namespace Praesidium

open Fallible Bytes

/-! ## The fields of an image -/

namespace Pex

/-- The header fields of `b`. -/
def view (b : List U8) : Pex where
  bytes := b
  entry := word 64 b 8
  segOff := (word 32 b 20).toNat
  segCount := (word 16 b 24).toNat
  manOff := (word 32 b 28).toNat
  manCount := (word 16 b 26).toNat

/-- The segment record `i`. -/
def segmentAt (p : Pex) (i : Nat) : Segment where
  fileOff := word 32 p.bytes (p.segOff + i * SEGMENT_LEN)
  fileSize := word 32 p.bytes (p.segOff + i * SEGMENT_LEN + 4)
  vaddr := word 64 p.bytes (p.segOff + i * SEGMENT_LEN + 8)
  memSize := word 64 p.bytes (p.segOff + i * SEGMENT_LEN + 16)
  perm := p.bytes[p.segOff + i * SEGMENT_LEN + 24]?.getD 0

/-- The manifest record `i`. -/
def manifestAt (p : Pex) (i : Nat) : ManifestEntry where
  capType := p.bytes[p.manOff + i * MANIFEST_LEN]?.getD 0
  destSlot := word 16 p.bytes (p.manOff + i * MANIFEST_LEN + 2)
  rights := word 32 p.bytes (p.manOff + i * MANIFEST_LEN + 4)
  param0 := word 64 p.bytes (p.manOff + i * MANIFEST_LEN + 8)
  param1 := word 64 p.bytes (p.manOff + i * MANIFEST_LEN + 16)

end Pex

/-- A segment that can be loaded. -/
structure Segment.Ok (s : Segment) : Prop where
  known : s.perm &&& ~~~(PERM_R ||| PERM_W ||| PERM_X) = 0
  readable : s.perm &&& PERM_R ≠ 0
  notWx : ¬ (s.perm &&& PERM_W ≠ 0 ∧ s.perm &&& PERM_X ≠ 0)
  vaddr_aligned : s.vaddr.toNat % 4096 = 0
  mem_aligned : s.memSize.toNat % 4096 = 0
  file_le : s.fileSize.toNat ≤ s.memSize.toNat
  mem_le : s.memSize.toNat ≤ 16 * 1024 * 1024
  ends : s.vaddr.toNat + s.memSize.toNat < 2 ^ 64

/-- The address lies inside the executable segment `s`. -/
def Segment.Runs (s : Segment) (addr : BitVec 64) : Prop :=
  s.isExec = true ∧ s.vaddr.toNat ≤ addr.toNat ∧ addr.toNat < s.vaddr.toNat + s.memSize.toNat

instance (s : Segment) (addr : BitVec 64) : Decidable (s.Runs addr) :=
  inferInstanceAs (Decidable (_ ∧ _))

/-- A well-formed image for `arch`. -/
structure WellFormed (b : List U8) (arch : U16) : Prop where
  header : HEADER_LEN ≤ b.length
  magic : word 32 b 0 = PEX_MAGIC
  version : word 16 b 4 = PEX_VERSION
  arch : word 16 b 6 = arch
  total : (word 32 b 16).toNat = b.length
  reserved : slice b 40 8 = List.replicate 8 0
  segCount : (Pex.view b).segCount ≤ MAX_SEGMENTS
  manCount : (Pex.view b).manCount ≤ MAX_MANIFEST
  segTable : (Pex.view b).segOff + (Pex.view b).segCount * SEGMENT_LEN ≤ b.length
  manTable : (Pex.view b).manOff + (Pex.view b).manCount * MANIFEST_LEN ≤ b.length
  integrity : word 32 b 36 ≠ 0 → (word 32 b 32).toNat + (word 32 b 36).toNat ≤ b.length
  segments : ∀ i, i < (Pex.view b).segCount → ((Pex.view b).segmentAt i).Ok ∧
    ((Pex.view b).segmentAt i).fileOff.toNat + ((Pex.view b).segmentAt i).fileSize.toNat ≤ b.length
  entry : ∃ i, i < (Pex.view b).segCount ∧ ((Pex.view b).segmentAt i).Runs (Pex.view b).entry

/-! ## Reads -/

section Reads

variable {α : Type} {u : Unit} {E : PexFault → Unit → Prop} {b : List U8} {off : Nat}

variable {Q : Nat → Unit → Prop}

theorem ends_plus (a c : Nat) (h : a + c < 2 ^ 64) : Ends (plus a c) u Q E ↔ Q (a + c) u := by
  unfold plus Word.narrow
  rw [if_pos h]
  exact ends_pure _

theorem ends_times (a c : Nat) (h : a * c < 2 ^ 64) : Ends (times a c) u Q E ↔ Q (a * c) u := by
  unfold times Word.narrow
  rw [if_pos h]
  exact ends_pure _

theorem ends_rd (n : Nat) (h : off + n ≤ b.length) (hn : off + n < 2 ^ 64) :
    Ends (rd n b off) u Q E ↔ Q (leNat (slice b off n)) u := by
  have hr : range b off (off + n) = some (slice b off n) := by
    rw [range_eq_some]
    exact ⟨by omega, h, by rw [Nat.add_sub_cancel_left]⟩
  unfold rd
  rw [ends_bind, ends_plus off n hn, ends_bind, hr]
  exact Iff.rfl

theorem ends_rdU16 {Q : U16 → Unit → Prop} (h : off + 2 ≤ b.length) (hn : off + 2 < 2 ^ 64) :
    Ends (rdU16 b off) u Q E ↔ Q (word 16 b off) u := by
  unfold rdU16
  rw [ends_bind, ends_rd 2 h hn]
  exact Iff.rfl

theorem ends_rdU32 {Q : BitVec 32 → Unit → Prop} (h : off + 4 ≤ b.length) (hn : off + 4 < 2 ^ 64) :
    Ends (rdU32 b off) u Q E ↔ Q (word 32 b off) u := by
  unfold rdU32
  rw [ends_bind, ends_rd 4 h hn]
  exact Iff.rfl

theorem ends_rdU64 {Q : BitVec 64 → Unit → Prop} (h : off + 8 ≤ b.length) (hn : off + 8 < 2 ^ 64) :
    Ends (rdU64 b off) u Q E ↔ Q (word 64 b off) u := by
  unfold rdU64
  rw [ends_bind, ends_rd 8 h hn]
  exact Iff.rfl

/-- `*b.get(off)?` in range -/
theorem ends_byte {Q : U8 → Unit → Prop} {f : PexFault} (h : off < b.length) :
    Ends (okOr b[off]? f : Parse U8) u Q E ↔ Q (b[off]?.getD 0) u := by
  rw [List.getElem?_eq_getElem h]
  exact ends_pure _

end Reads

/-! ## Records -/

section Records

variable {u : Unit} {E : PexFault → Unit → Prop} {p : Pex} {i : Nat}

/-- A table of the image ends inside it. -/
def Pex.Within (p : Pex) : Prop :=
  p.bytes.length < 2 ^ 64 ∧ p.segOff + p.segCount * SEGMENT_LEN ≤ p.bytes.length ∧
    p.manOff + p.manCount * MANIFEST_LEN ≤ p.bytes.length

theorem record_end (off count len i : Nat) (hi : i < count) :
    off + i * len + len ≤ off + count * len := by
  have hmul : (i + 1) * len ≤ count * len := Nat.mul_le_mul_right len hi
  rw [Nat.add_mul, Nat.one_mul] at hmul
  omega

variable {Q : Segment → Unit → Prop}

theorem ends_segmentRaw (h : p.Within) (hi : i < p.segCount) :
    Ends (p.segmentRaw i) u Q E ↔ Q (p.segmentAt i) u := by
  obtain ⟨hlen, hseg, -⟩ := h
  have hend := record_end p.segOff p.segCount SEGMENT_LEN i hi
  rw [show SEGMENT_LEN = 32 from rfl] at hend hseg
  unfold Pex.segmentRaw
  simp (disch := (simp only [SEGMENT_LEN]; omega)) only [ends_bind, ends_times, ends_plus,
    ends_rdU32, ends_rdU64, ends_byte, ends_pure]
  exact Iff.rfl

theorem ends_manifestRaw {Q : ManifestEntry → Unit → Prop} (h : p.Within) (hi : i < p.manCount) :
    Ends (p.manifestRaw i) u Q E ↔ Q (p.manifestAt i) u := by
  obtain ⟨hlen, -, hman⟩ := h
  have hend := record_end p.manOff p.manCount MANIFEST_LEN i hi
  rw [show MANIFEST_LEN = 32 from rfl] at hend hman
  unfold Pex.manifestRaw
  simp (disch := (simp only [MANIFEST_LEN]; omega)) only [ends_bind, ends_times, ends_plus,
    ends_rdU16, ends_rdU32, ends_rdU64, ends_byte, ends_pure]
  exact Iff.rfl

theorem ends_segment (h : p.Within) (hi : i < p.segCount) :
    Ends (p.segment i) u Q E ↔ Q (p.segmentAt i) u := by
  unfold Pex.segment Pex.expect
  rw [ends_bind, ends_refuseIf, ends_zoom, ends_segmentRaw h hi]
  exact ⟨fun hh => hh.2 (by omega), fun hq => ⟨fun hle => by omega, fun _ => hq⟩⟩

theorem ends_manifest {Q : ManifestEntry → Unit → Prop} (h : p.Within) (hi : i < p.manCount) :
    Ends (p.manifest i) u Q E ↔ Q (p.manifestAt i) u := by
  unfold Pex.manifest Pex.expect
  rw [ends_bind, ends_refuseIf, ends_zoom, ends_manifestRaw h hi]
  exact ⟨fun hh => hh.2 (by omega), fun hq => ⟨fun hle => by omega, fun _ => hq⟩⟩

/-- The file bytes of segment `i`. -/
def Pex.dataAt (p : Pex) (i : Nat) : List U8 :=
  slice p.bytes (p.segmentAt i).fileOff.toNat (p.segmentAt i).fileSize.toNat

theorem ends_segmentData {Q : List U8 → Unit → Prop} (h : p.Within) (hi : i < p.segCount)
    (hfile : (p.segmentAt i).fileOff.toNat + (p.segmentAt i).fileSize.toNat ≤ p.bytes.length) :
    Ends (p.segmentData i) u Q E ↔ Q (p.dataAt i) u := by
  have hr : range p.bytes (p.segmentAt i).fileOff.toNat
      ((p.segmentAt i).fileOff.toNat + (p.segmentAt i).fileSize.toNat) = some (p.dataAt i) := by
    rw [range_eq_some]
    exact ⟨by omega, hfile, by rw [Nat.add_sub_cancel_left]; rfl⟩
  have hlen := h.1
  unfold Pex.segmentData
  rw [ends_bind, ends_segment h hi, ends_bind, ends_plus _ _ (by omega), hr]
  exact ends_pure _

end Records

/-! ## Validation -/

theorem tableFits_iff (total off count recLen : Nat) (ht : total < 2 ^ 64) :
    tableFits total off count recLen = true ↔ off + count * recLen ≤ total := by
  unfold tableFits Word.narrow
  by_cases h1 : count * recLen < 2 ^ 64
  · rw [if_pos h1, Option.bind_some]
    by_cases h2 : off + count * recLen < 2 ^ 64
    · rw [if_pos h2]
      exact decide_eq_true_iff
    · rw [if_neg h2]
      exact ⟨fun h => (by cases h), fun h => by omega⟩
  · rw [if_neg h1]
    exact ⟨fun h => (by cases h), fun h => by omega⟩

/-- **One round of the segment loop**: it refuses a segment that is not loadable, and
otherwise notes whether the segment holds the entry point. -/
theorem checkSegment_spec (p : Pex) (i : Nat) (entryOk : Bool) (h : p.Within)
    (hi : i < p.segCount) : Ends (checkSegment p i entryOk) () (fun ok _ => ((p.segmentAt i).Ok ∧
        (p.segmentAt i).fileOff.toNat + (p.segmentAt i).fileSize.toNat ≤ p.bytes.length) ∧
        (ok = true ↔ entryOk = true ∨ (p.segmentAt i).Runs p.entry))
      (fun f _ => (∃ e, f = .err e) ∧ ¬ ((p.segmentAt i).Ok ∧
        (p.segmentAt i).fileOff.toNat + (p.segmentAt i).fileSize.toNat ≤ p.bytes.length)) := by
  have hmask : ∀ a : BitVec 64, a &&& 0xfff = 0 ↔ a.toNat % 4096 = 0 :=
    fun a => Word.and_mask_eq_zero a _ 12 rfl
  have hshift : ((p.segmentAt i).memSize >>> 12).toNat = (p.segmentAt i).memSize.toNat / 4096 := by
    rw [BitVec.toNat_ushiftRight, Nat.shiftRight_eq_div_pow]
  have hlen := h.1
  unfold checkSegment validatePerm
  simp only [ends_bind, ends_segmentRaw h hi, ends_refuseIf, ends_okOr, ends_ite, ends_pure,
    Word.narrow_eq_some, Word.narrow_eq_none, Word.checkedAdd_eq_some, Word.checkedAdd_eq_none]
  simp only [hshift, MAX_SEGMENT_PAGES, ne_eq, hmask]
  refine ⟨fun hp => ⟨⟨_, rfl⟩, fun ho => ?_⟩, fun hp =>
    ⟨fun ha => ⟨⟨_, rfl⟩, fun ho => ?_⟩, fun ha =>
    ⟨fun hf => ⟨⟨_, rfl⟩, fun ho => ?_⟩, fun hf => ⟨fun hl => ⟨⟨_, rfl⟩, fun ho => ?_⟩, fun hl =>
    ⟨fun hfe => ⟨⟨_, rfl⟩, fun ho => by omega⟩, fun fileEnd hfe =>
    ⟨fun hb => ⟨⟨_, rfl⟩, fun ho => by omega⟩, fun hb =>
    ⟨fun hs => ⟨⟨_, rfl⟩, fun ho => ?_⟩, fun segEnd hse => ?_⟩⟩⟩⟩⟩⟩⟩
  · rcases hp with hp | hp | hp
    · exact hp ho.1.known
    · exact ho.1.readable hp
    · exact ho.1.notWx hp
  · have h1 := ho.1.vaddr_aligned
    have h2 := ho.1.mem_aligned
    omega
  · have := ho.1.file_le
    omega
  · have := ho.1.mem_le
    omega
  · have := ho.1.ends
    omega
  · rw [not_or, not_or, not_not] at hp
    have hlt := segEnd.isLt
    have hok : (p.segmentAt i).Ok :=
      ⟨hp.1, hp.2.1, hp.2.2, by omega, by omega, by omega, by omega, by omega⟩
    have hrun : ((p.segmentAt i).isExec = true ∧ (p.segmentAt i).vaddr.toNat ≤ p.entry.toNat ∧
        p.entry.toNat < segEnd.toNat) ↔ (p.segmentAt i).Runs p.entry := by
      unfold Segment.Runs
      rw [hse]
    rw [hrun]
    exact ⟨fun hr => ⟨⟨hok, by omega⟩, by simp [hr]⟩, fun hr => ⟨⟨hok, by omega⟩, by simp [hr]⟩⟩

variable {b : List U8} {arch : U16}

/-- A refused image. -/
theorem refused_pex (e : PexError) (h : ¬ WellFormed b arch) :
    (∃ e', PexFault.err e = .err e') ∧ ¬ WellFormed b arch := ⟨⟨e, rfl⟩, h⟩

/-- The segment and manifest loops of `parse`. -/
theorem parse_loops (hin : (Pex.view b).Within)
    (hrest : (∃ i, i < (Pex.view b).segCount ∧ ((Pex.view b).segmentAt i).Runs (Pex.view b).entry) →
      (∀ i, i < (Pex.view b).segCount → ((Pex.view b).segmentAt i).Ok ∧
      ((Pex.view b).segmentAt i).fileOff.toNat + ((Pex.view b).segmentAt i).fileSize.toNat ≤
      b.length) → WellFormed b arch) :
    Ends (do
        let entryOk ← foldRange (checkSegment (Pex.view b)) (Pex.view b).segCount false
        refuseIf (¬ entryOk) (.err .entryNotExecutable)
        forRange (fun i => do let _ ← (Pex.view b).manifestRaw i) (Pex.view b).manCount
        pure (Pex.view b) : Parse Pex) ()
      (fun p _ => WellFormed b arch ∧ p = Pex.view b) (fun f _ => (∃ e, f = .err e) ∧
        ¬ WellFormed b arch) := by
  rw [ends_bind]
  -- after `k` rounds the first `k` segments are loadable, and the flag says if one holds the entry
  refine (ends_foldRange (fun k ok _ => (∀ i, i < k → ((Pex.view b).segmentAt i).Ok ∧
      ((Pex.view b).segmentAt i).fileOff.toNat + ((Pex.view b).segmentAt i).fileSize.toNat ≤
      b.length) ∧
      (ok = true ↔ ∃ i, i < k ∧ ((Pex.view b).segmentAt i).Runs (Pex.view b).entry)) _ _ false
    ⟨fun i hi => by omega, by simp⟩ (fun k ok _ hk hI => ?_)).imp_ok fun ok _ hI => ?_
  · obtain ⟨hall, hentry⟩ := hI
    refine (checkSegment_spec _ k ok hin hk).imp (fun ok' _ hok => ⟨fun i hi => ?_, ?_⟩)
      (fun f _ hf => ⟨hf.1, fun hw => hf.2 (hw.segments k hk)⟩)
    · rcases Nat.lt_succ_iff_lt_or_eq.mp hi with hi | rfl
      · exact hall i hi
      · exact hok.1
    · rw [hok.2, hentry]
      constructor
      · rintro (⟨i, hi, hr⟩ | hr)
        · exact ⟨i, by omega, hr⟩
        · exact ⟨k, by omega, hr⟩
      · rintro ⟨i, hi, hr⟩
        rcases Nat.lt_succ_iff_lt_or_eq.mp hi with hi | rfl
        · exact Or.inl ⟨i, hi, hr⟩
        · exact Or.inr hr
  · obtain ⟨hall, hentry⟩ := hI
    rw [ends_bind, ends_refuseIf]
    refine ⟨fun hno => refused_pex _ fun hw => hno (hentry.mpr hw.entry), fun hyes => ?_⟩
    have hw : WellFormed b arch := hrest (hentry.mp (by simpa using hyes)) hall
    rw [ends_bind]
    refine (ends_forRange (fun _ _ => True) _ _ trivial (fun k t hk _ => ?_)).imp_ok fun _ _ _ =>
      ⟨hw, rfl⟩
    rw [ends_bind, ends_manifestRaw hin hk]
    trivial

/-- **The parser**, on any bytes. -/
theorem parse_spec (b : List U8) (arch : U16) :
    Ends (Pex.parse b arch) () (fun p _ => WellFormed b arch ∧ p = Pex.view b)
      (fun f _ => (∃ e, f = .err e) ∧ ¬ WellFormed b arch) := by
  unfold Pex.parse
  rw [ends_bind, ends_refuseIf]
  refine ⟨fun hs => refused_pex _ fun hw => by have := hw.header; omega, fun hs => ?_⟩
  have hlen : 48 ≤ b.length := by
    unfold HEADER_LEN at hs
    omega
  simp (disch := omega) only [ends_bind, ends_rdU16, ends_rdU32, ends_rdU64, ends_refuseIf]
  refine ⟨fun h => refused_pex _ fun hw => h hw.magic, fun hmagic =>
    ⟨fun h => refused_pex _ fun hw => h hw.version,
    fun hver => ⟨fun h => refused_pex _ fun hw => h hw.arch, fun harch =>
    ⟨fun h => refused_pex _ fun hw => h hw.total,
    fun htotal => ⟨fun h => refused_pex _ fun hw => h ?_, fun hres =>
    ⟨fun h => refused_pex _ fun hw => ?_, fun hcount =>
    ⟨fun h => refused_pex _ fun hw => ?_, fun hfit => ?_⟩⟩⟩⟩⟩⟩⟩
  · unfold word
    rw [hw.reserved]
    rfl
  · have h1 := hw.segCount
    have h2 := hw.manCount
    rcases h with h | h
    · exact absurd h (Nat.not_lt.mpr h1)
    · exact absurd h (Nat.not_lt.mpr h2)
  · have hb : b.length < 2 ^ 64 := by
      have := (word 32 b 16).isLt
      have := hw.total
      omega
    rw [tableFits_iff _ _ _ _ hb, tableFits_iff _ _ _ _ hb] at h
    exact h.elim (fun h => h hw.segTable) (fun h => h hw.manTable)
  · rw [not_not] at hmagic hver harch htotal hres
    have hb : b.length < 2 ^ 64 := by
      have := (word 32 b 16).isLt
      omega
    rw [tableFits_iff _ _ _ _ hb, tableFits_iff _ _ _ _ hb, not_or, not_not, not_not] at hfit
    rw [not_or, Nat.not_lt, Nat.not_lt] at hcount
    have hin : (Pex.view b).Within := ⟨hb, hfit.1, hfit.2⟩
    have hreserved : slice b 40 8 = List.replicate 8 0 := by
      have hl : (slice b 40 8).length = 8 := slice_length b 40 8 (by omega)
      have hz : leNat (slice b 40 8) = 0 := by
        have hlt := leNat_lt (slice b 40 8)
        rw [hl] at hlt
        have hnat := congrArg BitVec.toNat hres
        unfold word at hnat
        rw [BitVec.toNat_ofNat, Nat.mod_eq_of_lt (by simpa using hlt)] at hnat
        exact hnat
      rw [leNat_eq_zero, hl] at hz
      exact hz
    have hparsed :=
      fun (hi : word 32 b 36 ≠ 0 → (word 32 b 32).toNat + (word 32 b 36).toNat ≤ b.length) =>
      parse_loops hin (fun he hsegs =>
        ⟨hlen, hmagic, hver, harch, htotal, hreserved, hcount.1, hcount.2, hfit.1, hfit.2, hi,
        hsegs, he⟩)
    rw [ends_ite]
    refine ⟨fun hi => ?_, fun hi => ?_⟩
    · rw [ends_bind, ends_okOr]
      refine ⟨fun hnone => refused_pex _ fun hw => ?_, fun stop hstop => ?_⟩
      · have := hw.integrity hi
        rw [Word.narrow_eq_none] at hnone
        omega
      · rw [Word.narrow_eq_some] at hstop
        rw [ends_bind, ends_refuseIf]
        refine ⟨fun hout => refused_pex _ fun hw => ?_, fun hle => ?_⟩
        · have := hw.integrity hi
          omega
        · exact hparsed (fun _ => by omega)
    · exact hparsed (fun h => absurd h hi)

/-! ## Accepted images -/

theorem eq_ok_of_ends {α : Type} {m : Parse α} {x : α}
    (h : Ends m () (fun a _ => a = x) (fun _ _ => False)) : m () = .ok x () := by
  obtain ⟨a, u, hm, rfl⟩ := h.exists_ok
  exact hm

theorem WellFormed.within (h : WellFormed b arch) : (Pex.view b).Within := by
  refine ⟨?_, h.segTable, h.manTable⟩
  have hlt := (word 32 b 16).isLt
  have htotal := h.total
  show b.length < 2 ^ 64
  omega

/-- **The parser accepts exactly the well-formed images.**  On no bytes does it panic, and
every accessor of an accepted image returns the record fields, or the file bytes, that
stand in the image. -/
theorem parse_exact (b : List U8) (arch : U16) :
    (∀ f u, Pex.parse b arch () = .error f u → ∃ e, f = .err e) ∧
    ((∃ p u, Pex.parse b arch () = .ok p u) ↔ WellFormed b arch) ∧
    (∀ p u, Pex.parse b arch () = .ok p u → p = Pex.view b ∧
      (∀ i, i < p.segCount → p.segment i () = .ok (p.segmentAt i) () ∧
        p.segmentData i () = .ok (p.dataAt i) () ∧
        (p.dataAt i).length = (p.segmentAt i).fileSize.toNat) ∧
      (∀ i, i < p.manCount → p.manifest i () = .ok (p.manifestAt i) ())) := by
  refine ⟨fun f u hf => ((parse_spec b arch).error hf).1, ⟨?_, fun hw => ?_⟩, fun p u hp => ?_⟩
  · rintro ⟨p, u, hp⟩
    exact ((parse_spec b arch).ok hp).1
  · cases hp : Pex.parse b arch () with
    | ok p u => exact ⟨p, u, rfl⟩
    | error f u => exact absurd hw ((parse_spec b arch).error hp).2
  · obtain ⟨hw, rfl⟩ := (parse_spec b arch).ok hp
    have hin := hw.within
    refine ⟨rfl, fun i hi => ?_, fun i hi => eq_ok_of_ends ((ends_manifest hin hi).mpr rfl)⟩
    obtain ⟨-, hfile⟩ := hw.segments i hi
    refine ⟨eq_ok_of_ends ((ends_segment hin hi).mpr rfl),
      eq_ok_of_ends ((ends_segmentData hin hi hfile).mpr rfl), ?_⟩
    exact slice_length _ _ _ hfile

end Praesidium
