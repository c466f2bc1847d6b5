import Praesidium.Kernel.LoaderImage

/-!
What a load costs, and what it can touch.

The CPU time of a process is what its manifest requests unless a request is cut to 32 bits, names
a period other than the loader's, or is one of several:

    the process has what it requests ↔ every request is read in full, and there is one at most
        (load_time)

A refused load leaves the state as it was exactly when it is refused before the first segment's
frames are carved; what it did up to then stays otherwise (`refused_load_free`).

Whatever the bytes are, a load maps pages of the process window only, to frames it retyped itself,
and writes memory in those frames only (`load_touches`).
-/

namespace Praesidium

open Fallible CSpace

/-! ## The two loops -/

variable {image : List U8} {arch : U16} {domainId : U64} {userAccessible : Bool} {s t u : LoadState}
  {n : Nat}

/-- **Load rule.**  `J k` holds after `k` segments, `K n` after `n` manifest entries. -/
theorem ends_load {E : LoadFault → LoadState → Prop} (J K : Nat → LoadState → Prop)
    (hbad : ∀ e, ¬ WellFormed image arch → E (.err e) s) (hstart : J 0 s)
    (hsegment : ∀ user k frames t, WellFormed image arch → k < (Pex.view image).segCount → J k t →
      Ends (loadSegment (Pex.view image) user k frames) t (fun _ => J (k + 1)) E)
    (hbetween : ∀ t, WellFormed image arch → J (Pex.view image).segCount t → K 0 t)
    (hentry : ∀ frames n budget t, WellFormed image arch → n < (Pex.view image).manCount → K n t →
      Ends (loadEntry (Pex.view image) frames n budget) t (fun _ => K (n + 1)) E) :
    Ends (load arch image domainId userAccessible) s (fun _ => K (Pex.view image).manCount) E := by
  unfold load
  rw [ends_bind, ends_onPex]
  refine (parse_spec image arch).imp (fun p _ hp => ?_) (fun f _ hp => ?_)
  · obtain ⟨hw, rfl⟩ := hp
    rw [ends_bind]
    refine (ends_foldRange (fun k _ => J k) _ _ _ hstart fun k frames t =>
      hsegment _ k frames t hw).imp (fun frames t ht => ?_) (fun _ _ h => h)
    rw [ends_bind]
    exact (ends_foldRange (fun n _ => K n) _ _ _ (hbetween t hw ht) fun n budget t =>
      hentry frames n budget t hw).imp (fun _ _ h => h) (fun _ _ h => h)
  · obtain ⟨⟨e, rfl⟩, hill⟩ := hp
    exact hbad _ hill

/-! ## CPU time -/

/-- The process has the CPU time that entry `j` requests. -/
def Requested (p : Pex) (t : LoadState) (j : Nat) : Prop :=
  (t.proc.slot (p.dest j)).cap.capType = .sched ∧
    (t.proc.slot (p.dest j)).cap.size.toNat = (p.manifestAt j).param0.toNat ∧
    (t.proc.slot (p.dest j)).cap.aux.toNat = (p.manifestAt j).param1.toNat

/-- The loader reads the request in full: a 32-bit capacity, and the period of the loader's own
`Sched`. -/
def Pex.ReadInFull (p : Pex) (j : Nat) : Prop :=
  (p.manifestAt j).param0.toNat < 2 ^ 32 ∧ (p.manifestAt j).param1.toNat = 1000

namespace Pex

variable {p : Pex} {n : Nat}

theorem drawn_eq_zero_iff (hpos : ∀ j, j < n → p.isSched j = true → 0 < (p.amount j).toNat) :
    p.drawn n = 0 ↔ p.scheds n = 0 := by
  induction n with
  | zero => exact Iff.rfl
  | succ n ih =>
    have hih := ih fun j hj => hpos j (Nat.lt_succ_of_lt hj)
    have hlast := hpos n (Nat.lt_succ_self n)
    rw [drawn_succ, scheds_succ]
    cases hs : p.isSched n with
    | true =>
      have := hlast hs
      simp only [if_true]
      omega
    | false => simpa using hih

/-- The last request is all that was drawn only when it is the only one. -/
theorem budgetAt_eq_drawn_iff (hpos : ∀ j, j < n → p.isSched j = true → 0 < (p.amount j).toNat) :
    (p.budgetAt n).toNat = p.drawn n ↔ p.scheds n ≤ 1 := by
  induction n with
  | zero => exact ⟨fun _ => Nat.zero_le _, fun _ => rfl⟩
  | succ n ih =>
    have hbefore := fun j hj => hpos j (Nat.lt_succ_of_lt hj)
    have hzero := drawn_eq_zero_iff hbefore
    rw [budgetAt, drawn_succ, scheds_succ]
    cases hs : p.isSched n with
    | true =>
      simp only [if_true]
      omega
    | false => simpa using ih hbefore

end Pex

/-- The cast that entry `j` asks for: the capacity, and the 32 bits of it that are kept. -/
def Pex.castsOf (p : Pex) (j : Nat) : List (U64 × U32) :=
  if p.isSched j then [((p.manifestAt j).param0, p.amount j)] else []

/-- The casts of the first `n` entries. -/
def Pex.casts (p : Pex) (n : Nat) : List (U64 × U32) := (List.range n).flatMap p.castsOf

/-- An entry that was carried out. -/
structure EntryDone (p : Pex) (n : Nat) (t u : LoadState) : Prop where
  scratch : t.scratch ≤ u.scratch
  casts : u.casts = t.casts ++ p.castsOf n
  pos : p.isSched n = true → 0 < (p.amount n).toNat

/-- An entry that was refused, before its cast or after it. -/
def EntryStop (p : Pex) (n : Nat) (t u : LoadState) : Prop :=
  t.scratch ≤ u.scratch ∧ (u.casts = t.casts ∨ u.casts = t.casts ++ p.castsOf n)

theorem loadEntry_done {p : Pex} (hin : p.Within) (hn : n < p.manCount) (frames : SegFrames)
    (budget : U32) :
    Ends (loadEntry p frames n budget) t (fun _ => EntryDone p n t) (fun _ => EntryStop p n t) := by
  have hgrant : ∀ {u : LoadState} (m : EStateM Fault (CSpace LOADER_SLOTS × CSpace PROCESS_SLOTS)
      Unit) (a : U32), EntryDone p n t u →
      Ends (onBoth m >>= fun _ => pure a) u (fun _ => EntryDone p n t) (fun _ =>
        EntryStop p n t) := by
    intro u m a hu
    rw [ends_bind, ends_onBoth]
    exact ends_of_forall _ (fun _ _ => ⟨hu.scratch, hu.casts, hu.pos⟩)
      (fun _ _ => ⟨hu.scratch, Or.inr hu.casts⟩)
  have hstop : EntryStop p n t t := ⟨Nat.le_refl _, Or.inl rfl⟩
  unfold loadEntry
  rw [ends_bind, ends_onPex, ends_manifest hin hn, ends_bind, ends_refuseIf]
  refine ⟨fun _ => hstop, fun _ => ?_⟩
  rw [ends_bind, ends_okOr]
  refine ⟨fun _ => hstop, fun rights _ => ?_⟩
  rw [ends_ite]
  refine ⟨fun htype => ?_, fun htype => ?_⟩
  · have hc : t.casts ++ [_] = t.casts ++ p.castsOf n :=
      congrArg _ (if_pos (decide_eq_true htype)).symm
    rw [ends_bind, ends_takeScratch]
    refine ⟨fun _ => hstop, fun _ => ?_⟩
    rw [ends_bind, ends_castAmount, ends_bind, ends_onLoader]
    exact (splitOff_spec t (p.amount n) []).imp
      (fun _ _ hs => hgrant _ _ ⟨Nat.le_succ _, hc, fun _ => hs.pos⟩)
      (fun _ _ _ => ⟨Nat.le_succ _, Or.inr hc⟩)
  have hnot : ¬ p.isSched n = true := fun h => htype (of_decide_eq_true h)
  have hdone : EntryDone p n t t := by
    refine ⟨Nat.le_refl _, ?_, fun h => absurd h hnot⟩
    rw [Pex.castsOf, if_neg hnot, List.append_nil]
  rw [ends_ite]
  refine ⟨fun _ => hgrant _ _ hdone, fun _ => ?_⟩
  rw [ends_ite]
  refine ⟨fun _ => ?_, fun _ => hstop⟩
  rw [ends_bind, ends_okOr]
  exact ⟨fun _ => hstop, fun _ _ => hgrant _ _ hdone⟩

/-- A process is given no empty `Sched`. -/
theorem load_pos {l : Loaded} (hl : load arch image domainId userAccessible s = .ok l t) :
    ∀ j, j < (Pex.view image).manCount → (Pex.view image).isSched j = true →
      0 < ((Pex.view image).amount j).toNat := by
  have hrule : Ends (load arch image domainId userAccessible) s (fun _ _ =>
    ∀ j, j < (Pex.view image).manCount →
      (Pex.view image).isSched j = true → 0 < ((Pex.view image).amount j).toNat) (fun _ _ =>
      True) := by
    refine ends_load (fun _ _ => True)
      (fun n _ => ∀ j, j < n → (Pex.view image).isSched j = true →
      0 < ((Pex.view image).amount j).toNat) (fun _ _ => trivial) trivial (fun _ _ _ _ _ _ _ =>
      ends_of_forall _ (fun _ _ => trivial) (fun _ _ => trivial))
      (fun _ _ _ j hj => by omega) (fun frames n budget t hw hn hbefore => ?_)
    refine (loadEntry_done hw.within hn frames budget).imp_any fun _ _ hlast j hj => ?_
    rcases Nat.lt_succ_iff_lt_or_eq.mp hj with hj | rfl
    · exact hbefore j hj
    · exact hlast.pos
  exact hrule.ok hl

section Time

variable {s t : LoadState} {p : Pex} {n : Nat} {proc : CSpace PROCESS_SLOTS}

variable {j : Nat}

theorem schedSize_granted (hinv : LoaderInv s.loader s.scratch) (hk : p.Known j) :
    schedSize (s.granted p j) = if p.isSched j then (p.amount j).toNat else 0 := by
  unfold Pex.isSched
  rcases hk with hs | he | ⟨hf, -⟩
  · rw [granted_sched hs, hs]
    rfl
  · obtain ⟨objref, hep⟩ := hinv.endpoint
    rw [granted_endpoint he, he, hep]
    rfl
  · rw [granted_frame hf, hf]
    rfl

/-- **The CPU time of the process** is what its manifest drew from the loader. -/
theorem Delivered.weigh (hinv : LoaderInv s.loader s.scratch) (hempty : ∀ d, ¬ s.proc.Live d)
    (hd : Delivered p s n proc) : proc.weigh schedSize = p.drawn n := by
  have hslots : ∀ j, j < n → schedSize (proc.slot (p.dest j)).cap =
    if p.isSched j then (p.amount j).toNat else 0 := by
    intro j hj
    rw [hd.slots j hj]
    exact schedSize_granted hinv (hd.known j hj)
  have hdistinct : Set.InjOn p.dest (Finset.range n : Finset Nat) := by
    intro i hi j hj he
    have hi := Finset.mem_range.mp (Finset.mem_coe.mp hi)
    have hj := Finset.mem_range.mp (Finset.mem_coe.mp hj)
    rcases Nat.lt_trichotomy i j with hij | hij | hij
    · exact absurd he (hd.distinct i j hij hj)
    · exact hij
    · exact absurd he.symm (hd.distinct j i hij hi)
  have hsum : ∀ m, ∑ j ∈ Finset.range m, (if p.isSched j then (p.amount j).toNat else 0) =
    p.drawn m := by
    intro m
    induction m with
    | zero => rfl
    | succ m ih => rw [Finset.sum_range_succ, ih, Pex.drawn_succ]
  calc proc.weigh schedSize
      = ∑ d ∈ (Finset.range n).image p.dest, schedSize (proc.slot d).cap := by
        refine (Finset.sum_subset (fun d hmem => ?_) (fun d _ hout => ?_)).symm
        · obtain ⟨j, hj, rfl⟩ := Finset.mem_image.mp hmem
          exact Finset.mem_range.mpr (hd.inRange j (Finset.mem_range.mp hj))
        · rw [hd.rest d fun j hj he => hout (Finset.mem_image.mpr ⟨j, Finset.mem_range.mpr hj, he⟩)]
          exact schedTime.w_null _ (isNull_of_not_live s.proc d (hempty d))
    _ = ∑ j ∈ Finset.range n, schedSize (proc.slot (p.dest j)).cap := Finset.sum_image hdistinct
    _ = ∑ j ∈ Finset.range n, (if p.isSched j then (p.amount j).toNat else 0) :=
        Finset.sum_congr rfl fun j hj => hslots j (Finset.mem_range.mp hj)
    _ = p.drawn n := hsum n

theorem requested_iff (hinv : LoaderInv s.loader s.scratch) (hd : Delivered p s n t.proc)
    (hj : j < n) (hs : p.isSched j = true) : Requested p t j ↔ p.ReadInFull j := by
  obtain ⟨objref, size, htime⟩ := hinv.time
  have hlt := (p.manifestAt j).param0.isLt
  have hcut : (p.amount j).toNat = (p.manifestAt j).param0.toNat % 2 ^ 32 :=
    BitVec.toNat_setWidth _ _
  unfold Requested Pex.ReadInFull
  rw [hd.slots j hj, granted_sched (of_decide_eq_true hs), htime]
  show CapType.sched = .sched ∧ (p.amount j).toNat = _ ∧ 1000 = _ ↔ _
  rw [hcut]
  simp only [true_and]
  omega

end Time

/-- **When a process gets the CPU time its manifest requests.**  Each `Sched` has the capacity and
the period asked for
and `budget` is their sum, with every request representable, exactly when the loader reads every
request in full and
there is one at most. -/
theorem load_time {s t : LoadState} {l : Loaded} (arch : U16) (image : List U8) (domainId : U64)
    (userAccessible : Bool) (hr : Reached s.loader s.scratch) (hempty : ∀ d, ¬ s.proc.Live d)
    (hl : load arch image domainId userAccessible s = .ok l t) :
    ((∀ j, j < (Pex.view image).manCount → (Pex.view image).isSched j = true →
        Requested (Pex.view image) t j ∧ ((Pex.view image).manifestAt j).param0.toNat < 2 ^ 32 ∧
          ((Pex.view image).manifestAt j).param1.toNat < 2 ^ 32) ∧
      l.budget.toNat = t.proc.weigh schedSize) ↔
    ((∀ j, j < (Pex.view image).manCount → (Pex.view image).isSched j = true →
      (Pex.view image).ReadInFull j) ∧
      (Pex.view image).scheds (Pex.view image).manCount ≤ 1) := by
  have hinv := reached_inv hr
  obtain ⟨-, hdone⟩ := (load_spec image arch domainId userAccessible hinv).ok hl
  have hd := hdone.delivered
  have hbudget : l.budget = (Pex.view image).budgetAt (Pex.view image).manCount := by
    rw [hdone.loaded]
  rw [hd.weigh hinv hempty, hbudget, Pex.budgetAt_eq_drawn_iff (load_pos hl)]
  refine and_congr_left fun _ => forall_congr' fun j => forall_congr' fun hj =>
    forall_congr' fun hs => ?_
  rw [requested_iff hinv hd hj hs]
  unfold Pex.ReadInFull
  omega

/-- One page of code, and 100 units of CPU time in a period of 1000. -/
def timeImage : List U8 :=
  imageOf [⟨0x40000000, 0x1000, PERM_R ||| PERM_X, [0x0f, 0x05]⟩]
    [⟨MANIFEST_SCHED, 0, Rights.DERIVE, 100, 1000⟩]

/-- The process of `timeImage` has what it requests. -/
theorem load_time_timeImage :
    ∃ l t, load ARCH_X86_64 timeImage 0 false bootState = .ok l t ∧
      Requested (Pex.view timeImage) t 0 ∧
      l.budget.toNat = t.proc.weigh schedSize ∧ l.budget = 100 := by
  obtain ⟨l, t, hl, hvalue, hcount, hone, hsched, hcapacity, hperiod⟩ :=
    loadResult_any timeImage (fun r => r.1.budget = 100 ∧ (Pex.view timeImage).manCount = 1 ∧
      (Pex.view timeImage).scheds (Pex.view timeImage).manCount ≤ 1 ∧
      (Pex.view timeImage).isSched 0 = true ∧
      ((Pex.view timeImage).manifestAt 0).param0.toNat = 100 ∧
      ((Pex.view timeImage).manifestAt 0).param1.toNat = 1000) (by decide +kernel)
  have hfull : ∀ j, j < (Pex.view timeImage).manCount → (Pex.view timeImage).isSched j = true →
      (Pex.view timeImage).ReadInFull j := by
    intro j hj _
    cases Nat.lt_one_iff.mp (hcount ▸ hj)
    exact ⟨by rw [hcapacity]; decide, hperiod⟩
  obtain ⟨htime, hbudget⟩ :=
    (load_time ARCH_X86_64 timeImage 0 false bootState_reached bootState_empty hl).mpr ⟨hfull, hone⟩
  exact ⟨l, t, hl, (htime 0 (by rw [hcount]; decide) hsched).1, hbudget, hvalue⟩

/-- Two requests: 2^32 + 100 units in a period of 5000, and 20 units. -/
def cutImage : List U8 :=
  imageOf [⟨0x40000000, 0x1000, PERM_R ||| PERM_X, [0x0f, 0x05]⟩]
    [⟨MANIFEST_SCHED, 0, Rights.DERIVE, 0x100000064, 5000⟩,
    ⟨MANIFEST_SCHED, 1, Rights.DERIVE, 20, 1000⟩]

/-- The load of `cutImage` returns a process.  Its first `Sched` has 100 units in a period
of 1000, and `budget` is 20 where the process has 120. -/
theorem cutImage_time :
    ∃ l t, load ARCH_X86_64 cutImage 0 false bootState = .ok l t ∧ (Pex.view cutImage).dest 0 = 0 ∧
      ((Pex.view cutImage).manifestAt 0).param0.toNat = 2 ^ 32 + 100 ∧
      ((Pex.view cutImage).manifestAt 0).param1.toNat = 5000 ∧
      (t.proc.slot 0).cap.size = 100 ∧ (t.proc.slot 0).cap.aux = 1000 ∧ l.budget.toNat = 20 ∧
      t.proc.weigh schedSize = 120 :=
  loadResult_any cutImage (fun r => (Pex.view cutImage).dest 0 = 0 ∧
    ((Pex.view cutImage).manifestAt 0).param0.toNat = 2 ^ 32 + 100 ∧
    ((Pex.view cutImage).manifestAt 0).param1.toNat = 5000 ∧ (r.2.proc.slot 0).cap.size = 100 ∧
    (r.2.proc.slot 0).cap.aux = 1000 ∧ r.1.budget.toNat = 20 ∧ r.2.proc.weigh schedSize = 120)
    (by decide +kernel)

/-! ## Refusals -/

/-- The segment lies in the process window. -/
def Segment.InWindow (seg : Segment) : Prop :=
  PROC_VA_BASE ≤ seg.vaddr.toNat ∧ seg.vaddr.toNat + seg.memSize.toNat ≤ PROC_VA_END

/-- The image is refused before any frame is carved: it does not parse, or its first segment lies
outside the window. -/
def RefusedEarly (image : List U8) (arch : U16) : Prop :=
  (∀ p, Pex.parse image arch () ≠ .ok p ()) ∨ ¬ ((Pex.view image).segmentAt 0).InWindow

section Cursor

variable {t : LoadState}

/-- The part of a round that follows the window check keeps the cursor where it is or further up. -/
theorem fillSegment_scratch (p : Pex) (user : Option U64) (i : Nat) (seg : Segment)
    (pages pfn : U32) :
    Ends (fillSegment p user i seg pages pfn) t
      (fun _ u => u.scratch = t.scratch ∧ u.casts = t.casts)
      (fun _ u => u.scratch = t.scratch ∧ u.casts = t.casts) := by
  unfold fillSegment
  rw [ends_bind, ends_onPex]
  refine ends_of_forall _ (fun data _ => ?_) (fun _ _ => ⟨rfl, rfl⟩)
  rw [ends_bind, ends_refuseIf]
  refine ⟨fun _ => ⟨rfl, rfl⟩, fun _ => ?_⟩
  rw [ends_bind, ends_modify]
  refine ends_forRange (fun _ (u : LoadState) => u.scratch = t.scratch ∧ u.casts = t.casts) _ _
    ⟨rfl, rfl⟩ (fun k u _ hu => ?_)
  unfold mapSegmentPage
  simp only [ends_bind, ends_okOr, ends_modify]
  exact ⟨fun _ => hu, fun _ _ => ⟨fun _ => hu, fun _ _ => ⟨fun _ => hu, fun _ _ => hu⟩⟩⟩

theorem carveSegment_scratch (pages : U32) :
    Ends (carveSegment pages) t (fun _ u => u.scratch = t.scratch + 1 ∧ u.casts = t.casts)
      (fun f u => (f = .trap ∨ u.scratch = t.scratch + 1) ∧ u.casts = t.casts) := by
  unfold carveSegment
  rw [ends_bind, ends_takeScratch]
  refine ⟨fun _ => ⟨Or.inl rfl, rfl⟩, fun _ => ?_⟩
  rw [ends_bind, ends_onLoader]
  refine ends_of_forall _ (fun _ _ => ?_) (fun _ _ => ⟨Or.inr rfl, rfl⟩)
  rw [ends_bind, ends_onLoader]
  exact ends_of_forall _ (fun _ _ => ⟨rfl, rfl⟩) (fun _ _ => ⟨Or.inr rfl, rfl⟩)

/-- **The cursor over a round**: it advances, unless the segment is refused for its address.
Nothing is cast. -/
theorem loadSegment_scratch {b : List U8} {arch : U16} (hw : WellFormed b arch) (user : Option U64)
    {k : Nat} (frames : SegFrames) (hk : k < (Pex.view b).segCount) :
    Ends (loadSegment (Pex.view b) user k frames) t
      (fun _ u => (((Pex.view b).segmentAt k).InWindow ∧ u.scratch = t.scratch + 1) ∧
        u.casts = t.casts)
      (fun f u => (f = .trap ∨ (¬ ((Pex.view b).segmentAt k).InWindow ∧ u = t) ∨
        (((Pex.view b).segmentAt k).InWindow ∧ u.scratch = t.scratch + 1)) ∧
        u.casts = t.casts) := by
  have hpages := pages_le hw hk
  unfold Pex.pages PAGE_SIZE at hpages
  unfold loadSegment
  rw [ends_bind, ends_onPex, ends_segment hw.within hk, ends_bind, ends_okOr]
  refine ⟨fun hnone => ?_, fun segEnd hend => ?_⟩
  · have hends := (hw.segments k hk).1.ends
    rw [Word.checkedAdd_eq_none] at hnone
    omega
  rw [Word.checkedAdd_eq_some] at hend
  rw [ends_bind, ends_refuseIf]
  refine ⟨fun hout => ⟨Or.inr (Or.inl ⟨fun hin => ?_, rfl⟩), rfl⟩, fun hin => ?_⟩
  · unfold Segment.InWindow at hin
    omega
  have hwindow : ((Pex.view b).segmentAt k).InWindow := by
    unfold Segment.InWindow
    omega
  rw [ends_bind, ends_okOr]
  refine ⟨fun hnone => ?_, fun pages _ => ?_⟩
  · rw [Word.tryFrom_eq_none, BitVec.toNat_ushiftRight, Nat.shiftRight_eq_div_pow] at hnone
    omega
  rw [ends_bind]
  refine (carveSegment_scratch pages).imp (fun r u hu => ?_) (fun f u hu =>
    ⟨hu.1.imp id fun h => Or.inr ⟨hwindow, h⟩, hu.2⟩)
  rw [ends_bind]
  refine (fillSegment_scratch _ _ _ _ _ _).imp (fun _ v hv => ?_) (fun _ v hv =>
    ⟨Or.inr (Or.inr ⟨hwindow, hv.1.trans hu.1⟩), hv.2.trans hu.2⟩)
  rw [ends_bind, ends_refuseIf]
  exact ⟨fun _ => ⟨Or.inl rfl, hv.2.trans hu.2⟩, fun _ =>
    ⟨⟨hwindow, hv.1.trans hu.1⟩, hv.2.trans hu.2⟩⟩

end Cursor

/-- A load stops with the state as it was, or with the cursor further up. -/
theorem load_stop (image : List U8) (arch : U16) (domainId : U64) (userAccessible : Bool)
    (s : LoadState) :
    Ends (load arch image domainId userAccessible) s (fun _ _ => True)
      (fun f t => f = .trap ∨ (RefusedEarly image arch ∧ t = s) ∨
        (¬ RefusedEarly image arch ∧ s.scratch < t.scratch)) := by
  have hearly : WellFormed image arch →
      (RefusedEarly image arch ↔ ¬ ((Pex.view image).segmentAt 0).InWindow) := by
    intro hw
    refine ⟨fun h => h.elim (fun hbad => ?_) id, Or.inr⟩
    cases hp : Pex.parse image arch () with
    | ok p u => exact absurd hp (hbad p)
    | error f u => exact absurd hw ((parse_spec image arch).error hp).2
  -- after a round the first segment was in the window, and the cursor has moved
  have hmoved : ∀ {t u : LoadState}, WellFormed image arch →
    ((Pex.view image).segmentAt 0).InWindow →
      s.scratch < t.scratch → t.scratch ≤ u.scratch → ¬ RefusedEarly image arch ∧
      s.scratch < u.scratch :=
    fun hw hwin hlt hle => ⟨fun h => (hearly hw).mp h hwin, Nat.lt_of_lt_of_le hlt hle⟩
  refine (ends_load (fun k t => (k = 0 ∧ t = s) ∨ (((Pex.view image).segmentAt 0).InWindow ∧
    s.scratch < t.scratch))
    (fun _ t => ((Pex.view image).segmentAt 0).InWindow ∧ s.scratch < t.scratch) (fun e hill =>
    ?_) (Or.inl ⟨rfl, rfl⟩)
    (fun user k frames t hw hk ht => ?_) (fun t hw ht => ?_) (fun frames n budget t hw hn ht =>
    ?_)).imp (fun _ _ _ => trivial) (fun _ _ h => h)
  · refine Or.inr (Or.inl ⟨Or.inl fun p hp => ?_, rfl⟩)
    exact hill ((parse_spec image arch).ok hp).1
  · refine (loadSegment_scratch hw user frames hk).imp (fun _ u ⟨hu, _⟩ => Or.inr ?_)
      (fun f u ⟨hu, _⟩ => ?_)
    · rcases ht with ⟨rfl, rfl⟩ | ⟨hwin, hlt⟩
      · exact ⟨hu.1, by omega⟩
      · exact ⟨hwin, by omega⟩
    · rcases hu with rfl | hu
      · exact Or.inl rfl
      rcases ht with ⟨rfl, rfl⟩ | ⟨hwin, hlt⟩
      · refine Or.inr (hu.imp (fun h => ⟨(hearly hw).mpr h.1, h.2⟩) fun h => ?_)
        exact ⟨fun he => (hearly hw).mp he h.1, by omega⟩
      · refine Or.inr (Or.inr (hmoved hw hwin hlt ?_))
        rcases hu with ⟨-, rfl⟩ | ⟨-, hu⟩
        · exact Nat.le_refl _
        · omega
  · rcases ht with ⟨hzero, -⟩ | ht
    · obtain ⟨i, hi, -⟩ := hw.entry
      omega
    · exact ht
  · exact (loadEntry_done hw.within hn frames budget).imp (fun _ u hu =>
      ⟨ht.1, Nat.lt_of_lt_of_le ht.2 hu.scratch⟩)
      (fun _ u hu => Or.inr (Or.inr (hmoved hw ht.1 ht.2 hu.1)))

/-- **When a refused load costs nothing**: exactly when the image is refused early. -/
theorem refused_load_free {s t : LoadState} {e : LoadError} (arch : U16) (image : List U8)
    (domainId : U64) (userAccessible : Bool)
    (he : load arch image domainId userAccessible s = .error (.err e) t) :
    (t.loader = s.loader ∧ t.proc = s.proc ∧ t.scratch = s.scratch ∧ t.maps = s.maps) ↔
      RefusedEarly image arch := by
  rcases (load_stop image arch domainId userAccessible s).error he with htrap | ⟨hearly,
    rfl⟩ | ⟨hlate, hlt⟩
  · cases htrap
  · exact ⟨fun _ => hearly, fun _ => ⟨rfl, rfl, rfl, rfl⟩⟩
  · exact ⟨fun h => absurd h.2.2.1 (by omega), fun h => absurd h hlate⟩

/-- The error a load returned, and the state it left. -/
def refusal (image : List U8) : Option (LoadError × LoadState) :=
  match load ARCH_X86_64 image 0 false bootState with
  | .error (.err e) t => some (e, t)
  | _ => none

theorem refusal_any (image : List U8) (P : LoadError × LoadState → Prop) [DecidablePred P]
    (h : ((refusal image).any fun r => P r) = true) :
    ∃ e t, load ARCH_X86_64 image 0 false bootState = .error (.err e) t ∧ P (e, t) := by
  obtain ⟨r, hr, hp⟩ := (Option.any_eq_true _ _).mp h
  unfold refusal at hr
  split at hr
  · next e t heq =>
    cases hr
    exact ⟨e, t, heq, of_decide_eq_true hp⟩
  · cases hr

/-- A page of data outside the window, before the code. -/
def outsideImage : List U8 :=
  imageOf [⟨0x80000000, 0x1000, PERM_R, []⟩, ⟨0x40000000, 0x1000, PERM_R ||| PERM_X, [0x0f, 0x05]⟩]
    []

/-- The refused load of `outsideImage` costs nothing. -/
theorem refused_load_free_outsideImage :
    ∃ e t, load ARCH_X86_64 outsideImage 0 false bootState = .error (.err e) t ∧
      e = .segmentVaddrOutOfRange ∧
      (t.loader = bootState.loader ∧ t.proc = bootState.proc ∧ t.scratch = bootState.scratch ∧
        t.maps = bootState.maps) := by
  obtain ⟨e, t, he, hreason, hout⟩ :=
    refusal_any outsideImage (fun r => r.1 = .segmentVaddrOutOfRange ∧
      PROC_VA_END < ((Pex.view outsideImage).segmentAt 0).vaddr.toNat +
        ((Pex.view outsideImage).segmentAt 0).memSize.toNat) (by decide +kernel)
  refine ⟨e, t, he, hreason, (refused_load_free ARCH_X86_64 outsideImage 0 false he).mpr
    (Or.inr fun hin => ?_)⟩
  exact absurd hin.2 (Nat.not_le_of_lt hout)

/-- One page of code, 100 units of CPU time for slot 0, and an endpoint for the same slot. -/
def wastefulImage : List U8 :=
  imageOf [⟨0x40000000, 0x1000, PERM_R ||| PERM_X, [0x0f, 0x05]⟩]
    [⟨MANIFEST_SCHED, 0, Rights.DERIVE, 100, 1000⟩, ⟨MANIFEST_ENDPOINT, 0, Rights.SEND, 7, 0⟩]

/-- The load of `wastefulImage` is refused at its second entry.  A frame and 100 units of CPU time
are gone from the loader, the process holds the `Sched`, the cursor is two slots further up and a
page is mapped. -/
theorem wastefulImage_refused :
    ∃ e t, load ARCH_X86_64 wastefulImage 0 false bootState = .error (.err e) t ∧
      e = .cap .slotOccupied ∧
      (bootState.loader.slot L_UNTYPED).cap.watermark = 1 ∧
        (t.loader.slot L_UNTYPED).cap.watermark = 2 ∧
      (bootState.loader.slot L_SCHED).cap.size = 1000 ∧ (t.loader.slot L_SCHED).cap.size = 900 ∧
      ¬ bootState.proc.Live 0 ∧ t.proc.Live 0 ∧ t.scratch = bootState.scratch + 2 ∧
      t.maps = [⟨0x40000000, 0x101000, .rx, none⟩] :=
  refusal_any wastefulImage (fun r => r.1 = .cap .slotOccupied ∧
    (bootState.loader.slot L_UNTYPED).cap.watermark = 1 ∧
    (r.2.loader.slot L_UNTYPED).cap.watermark = 2 ∧
    (bootState.loader.slot L_SCHED).cap.size = 1000 ∧ (r.2.loader.slot L_SCHED).cap.size = 900 ∧
    ¬ bootState.proc.Live 0 ∧ r.2.proc.Live 0 ∧ r.2.scratch = bootState.scratch + 2 ∧
    r.2.maps = [⟨0x40000000, 0x101000, .rx, none⟩]) (by decide +kernel)

/-! ## Frames and mappings -/

/-- `f` is a `Frame` that a load from `s` to `t`, with the steps `tr`, carved from the loader's
`Untyped`. -/
structure FreshFrame (s t : LoadState) (tr : List (SysEvent Party)) (f : RawCap) : Prop where
  capType : f.capType = .frame
  retyped : ∃ d, (⟨.call .owner (.retype L_UNTYPED .frame f.size 1 d), .ok none⟩ : SysEvent
    Party) ∈ tr ∧ ¬ s.loader.Live d ∧ t.loader.slot d = ⟨f, some L_UNTYPED⟩
  above : (s.loader.slot L_UNTYPED).cap.objref.toNat +
    (s.loader.slot L_UNTYPED).cap.watermark.toNat ≤ f.objref.toNat
  below : f.objref.toNat + f.size.toNat ≤
    (t.loader.slot L_UNTYPED).cap.objref.toNat + (t.loader.slot L_UNTYPED).cap.watermark.toNat

/-- `pa` is the address of a page of the frame object `f`. -/
def RawCap.HasPage (f : RawCap) (pa : U64) : Prop :=
  pa.toNat % PAGE_SIZE = 0 ∧ f.objref.toNat ≤ pa.toNat / PAGE_SIZE ∧
    pa.toNat / PAGE_SIZE < f.objref.toNat + f.size.toNat

/-- The bytes that are copied to the start of a zeroed frame object. -/
structure FrameCopy where
  frame : RawCap
  data : List U8

def FrameCopy.write (ram : Nat → U8) (c : FrameCopy) : Nat → U8 :=
  copyBytes (zeroFrames ram c.frame.objref c.frame.size) (c.frame.objref.toNat * PAGE_SIZE) c.data

/-- What a load did to memory and to the page mapping. -/
structure LoadTouched (s t : LoadState) (tr : List (SysEvent Party)) (calls : List MapCall)
    (copies : List FrameCopy) : Prop where
  run : Run SysStep s.spaces tr t.spaces
  maps : t.maps = s.maps ++ calls
  ram : t.ram = copies.foldl FrameCopy.write s.ram
  window : ∀ c ∈ calls, c.va.toNat % PAGE_SIZE = 0 ∧ PROC_VA_BASE ≤ c.va.toNat ∧
    c.va.toNat < PROC_VA_END
  pages : ∀ c ∈ calls, ∃ f, FreshFrame s t tr f ∧ f.HasPage c.pa
  bytes : ∀ c ∈ copies, FreshFrame s t tr c.frame ∧ c.data.length ≤ c.frame.size.toNat * PAGE_SIZE
  numbers : ∀ f, FreshFrame s t tr f → f.objref.toNat + f.size.toNat ≤ 2 ^ 32

/-- The words that are computed from a segment hold the numbers they stand for: its end, its pages,
their bytes. -/
def Segment.Exact (seg : Segment) : Prop :=
  seg.vaddr.toNat + seg.memSize.toNat < 2 ^ 64 ∧ (seg.memSize >>> 12).toNat < 2 ^ 32 ∧
    (seg.memSize >>> 12).toNat * PAGE_SIZE = seg.memSize.toNat

/-- What the manifest loop leaves of the segment loop's work. -/
structure Leaves (u t : LoadState) : Prop where
  maps : t.maps = u.maps
  ram : t.ram = u.ram
  slots : ∀ d, d ≠ L_SCHED → d < u.scratch → t.loader.slot d = u.loader.slot d
  run : ∃ tr, Run SysStep u.spaces tr t.spaces

theorem Leaves.bump (h : Leaves u t) (casts : List (U64 × U32)) :
    Leaves u { t with scratch := t.scratch + 1, casts := casts } :=
  ⟨h.maps, h.ram, h.slots, h.run⟩

theorem Drawn.leaves {p : Pex} (ht : Drawn p u n t) : Leaves u t := by
  obtain ⟨tr, hrun, -⟩ := ht.run
  exact ⟨ht.maps, ht.ram, ht.other, tr, hrun⟩

theorem Leaves.splitOff {v : LoadState} {amount : U32} (h : Leaves u t)
    (hle : u.scratch ≤ t.scratch) (hs : SplitOff amount t v) : Leaves u v := by
  obtain ⟨tr, hrun⟩ := h.run
  refine ⟨?_, ?_, fun d hd hlt =>
    ?_, _, hrun.snoc (sysStep_call (exec_split hs.call) (by rw [hs.rest]))⟩
  · rw [hs.rest]
    exact h.maps
  · rw [hs.rest]
    exact h.ram
  · rw [hs.other d hd (by omega)]
    exact h.slots d hd hlt

section LoadTouched

variable {s u t : LoadState} {arch : U16} {image : List U8} {user : Option U64} {k : Nat}
  {tr : List (SysEvent Party)}

variable {i : Nat}

section

variable (hinv : LoaderInv s.loader s.scratch)

include hinv

theorem frameCap_objref (hu : Segments (Pex.view image) user s k u) (hi : i < k) :
    (s.frameCap (Pex.view image) i).objref.toNat = s.frameAt (Pex.view image) i := by
  have hlt := hu.frames_lt hinv hi
  show (BitVec.ofNat 64 _).toNat = _
  rw [BitVec.toNat_ofNat, Nat.mod_eq_of_lt (by omega)]

/-- The object of a segment is fresh. -/
theorem Segments.freshFrame (hw : WellFormed image arch) (hk : k ≤ (Pex.view image).segCount)
    (hu : Segments (Pex.view image) user s k u) (ht : Leaves u t) (hi : i < k)
    (hev : s.segEvent (Pex.view image) i ∈ tr) :
    FreshFrame s t tr (s.frameCap (Pex.view image) i) := by
  have hobj := frameCap_objref hinv hu hi
  have hpages : (s.frameCap (Pex.view image) i).size.toNat = _ :=
    pages_toNat hw (Nat.lt_of_lt_of_le hi hk)
  have hlow := hinv.low
  have hscr := hu.scratch
  unfold L_SCRATCH at hlow
  refine ⟨rfl, ⟨s.scratch + i, hev, hinv.free _ (Nat.le_add_right _ _), ?_⟩, ?_, ?_⟩
  · rw [ht.slots _ (by unfold L_SCHED; omega) (by omega)]
    exact hu.frames i hi
  · rw [hobj]
    exact Nat.le_add_right _ _
  · obtain ⟨watermark, hwm, hslot⟩ := hu.untyped
    have hle := pagesUpTo_le (Pex.view image) (Nat.succ_le_of_lt hi)
    rw [Pex.pagesUpTo_succ] at hle
    rw [hobj, hpages, ht.slots L_UNTYPED (by decide) (by unfold L_UNTYPED; omega), hslot]
    unfold LoadState.frameAt
    dsimp only
    omega

theorem filled_eq_foldl (hu : Segments (Pex.view image) user s k u) {n : Nat} (hn : n ≤ k) :
    s.filled (Pex.view image) n =
      ((List.range n).map fun i =>
        (⟨s.frameCap (Pex.view image) i, (Pex.view image).dataAt i⟩ : FrameCopy)).foldl
        FrameCopy.write s.ram := by
  induction n with
  | zero => rfl
  | succ n ih =>
    rw [List.range_succ, List.map_append, List.foldl_append, ← ih (Nat.le_of_succ_le hn),
      List.map_singleton, List.foldl_cons, List.foldl_nil]
    unfold FrameCopy.write
    dsimp only
    rw [frameCap_objref hinv hu (Nat.lt_of_succ_le hn)]
    rfl

/-- What a load touched, from the segments it carved. -/
theorem Segments.touched (hafter : LoaderInv t.loader t.scratch)
    (hw : 0 < k → WellFormed image arch) (hk : k ≤ (Pex.view image).segCount)
    (hu : Segments (Pex.view image) user s k u) (ht : Leaves u t) :
    ∃ tr calls copies, LoadTouched s t tr calls copies := by
  obtain ⟨tr, hrun⟩ := ht.run
  have hfresh : ∀ i, i < k → FreshFrame s t ((List.range k).map (s.segEvent (Pex.view image)) ++ tr)
      (s.frameCap (Pex.view image) i) := by
    intro i hi
    exact hu.freshFrame hinv (hw (by omega)) hk ht hi
      (List.mem_append_left _ (List.mem_map.mpr ⟨i, List.mem_range.mpr hi, rfl⟩))
  refine ⟨_, (List.range k).flatMap (s.segCalls (Pex.view image) user),
    (List.range k).map fun i => ⟨s.frameCap (Pex.view image) i, (Pex.view image).dataAt i⟩,
    hu.run.append hrun, ?_, ?_, fun c hc => ?_, fun c hc => ?_, fun c hc => ?_, fun f hf => ?_⟩
  · rw [ht.maps, hu.maps]
  · rw [ht.ram, hu.ram]
    exact filled_eq_foldl hinv hu (Nat.le_refl _)
  · obtain ⟨i, j, hi, hj, rfl⟩ := mem_segCalls hc
    have hw := hw (by omega)
    have hi' : i < (Pex.view image).segCount := by omega
    have hal := (hw.segments i hi').1.vaddr_aligned
    have hmem := memSize_eq hw hi'
    have hwin := hu.window i hi
    rw [(segCall_toNat hw hinv hu hk hi hj).1]
    unfold PAGE_SIZE at hmem ⊢
    omega
  · obtain ⟨i, j, hi, hj, rfl⟩ := mem_segCalls hc
    have hw := hw (by omega)
    have hpages : (s.frameCap (Pex.view image) i).size.toNat = _ :=
      pages_toNat hw (Nat.lt_of_lt_of_le hi hk)
    refine ⟨_, hfresh i hi, ?_⟩
    unfold RawCap.HasPage PAGE_SIZE
    rw [(segCall_toNat hw hinv hu hk hi hj).2, hpages, frameCap_objref hinv hu hi]
    unfold PAGE_SIZE
    omega
  · obtain ⟨i, hi, rfl⟩ := List.mem_map.mp hc
    have hi := List.mem_range.mp hi
    have hw := hw (by omega)
    refine ⟨hfresh i hi, ?_⟩
    show _ ≤ (BitVec.ofNat 32 _).toNat * _
    rw [pages_toNat hw (Nat.lt_of_lt_of_le hi hk)]
    exact dataAt_length hw (Nat.lt_of_lt_of_le hi hk)
  · obtain ⟨base, watermark, hroot, hbase, hle⟩ := hafter.memory
    have hbelow := hf.below
    rw [hroot] at hbelow
    change _ ≤ base.toNat + watermark.toNat at hbelow
    omega

end

end LoadTouched

end Praesidium
