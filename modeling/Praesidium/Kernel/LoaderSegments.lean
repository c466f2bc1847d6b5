import Mathlib.Algebra.GroupWithZero.Nat
import Praesidium.Abi.PexSpec
import Praesidium.Kernel.Loader
import Praesidium.System.Basic

/-!
The segment loop of the loader.

`Segments p user s k t` describes the state `t` after `k` rounds from `s`: a `Frame` object for
each of the first `k` segments, one after the other from the `Untyped`'s watermark on, in the
scratch slots; their memory; and the mapping calls.

    Segments p user s k t → Ends (loadSegment p user k frames) t (Segments p user s (k + 1)) …
        (loadSegment_spec)

The spaces of the loader and the process move by steps of the two-party system, so what is
known of those runs holds of a load.
-/

namespace Praesidium

open Fallible CSpace Bytes

/-! ## The two spaces as a system -/

def loadSizes : Party → Nat
  | .owner => LOADER_SLOTS
  | .peer => PROCESS_SLOTS

/-- The loader and the process. -/
def LoadState.spaces (s : LoadState) : System loadSizes
  | .owner => s.loader
  | .peer => s.proc

variable {s t : LoadState}

theorem sysStep_call {c : Call} {v : Option U64} (h : c.exec s.loader = .ok v t.loader)
    (hp : t.proc = s.proc) : SysStep s.spaces ⟨.call .owner c, .ok v⟩ t.spaces := by
  have hret : returned (c.exec (s.spaces .owner)) = some (.ok v, t.spaces .owner) :=
    (returned_eq_ok _ _ _).mpr h
  have hupd : Function.update s.spaces .owner (t.spaces .owner) = t.spaces := by
    funext i
    cases i with
    | owner => exact Function.update_self _ _ _
    | peer =>
      rw [Function.update_of_ne (by decide)]
      exact hp.symm
  show (returned (c.exec (s.spaces .owner))).map _ = _
  rw [hret, ← hupd]
  rfl

theorem sysStep_grant {srcSlot dstSlot : Nat} {newRights : Rights} {badge : U64} {mode : GrantMode}
    (h : grant srcSlot dstSlot newRights badge mode (s.loader, s.proc) = .ok () (t.loader,
    t.proc)) : SysStep s.spaces ⟨.grant .owner .peer srcSlot dstSlot newRights badge mode, .ok none⟩
      t.spaces := by
  have hret : returned (grant srcSlot dstSlot newRights badge mode (s.spaces .owner,
    s.spaces .peer)) =
      some (.ok (), (t.spaces .owner, t.spaces .peer)) := (returned_eq_ok _ _ _).mpr h
  have hupd : Function.update (Function.update s.spaces .owner (t.spaces .owner)) .peer
    (t.spaces .peer) = t.spaces := by
    funext i
    cases i with
    | owner => exact update_two_left s.spaces (by decide) _ _
    | peer => exact update_two_right s.spaces _ _
  show (if Party.owner = Party.peer then none else (returned _).map _) = _
  rw [if_neg (by decide), hret, ← hupd]
  rfl

/-! ## Parts of the state -/

section Parts

variable {α : Type} {s : LoadState} {E : LoadFault → LoadState → Prop}

variable {Q : α → LoadState → Prop}

theorem ends_onPex (m : Parse α) :
    Ends (onPex m) s Q E ↔ Ends m () (fun a _ => Q a s) (fun f _ => E f.toLoad s) :=
  ends_zoom _ _ _ _

theorem ends_onLoader (m : Op LOADER_SLOTS α) :
    Ends (onLoader m) s Q E ↔
      Ends m s.loader (fun a t => Q a (s.withLoader t)) (fun f t => E f.toLoad (s.withLoader t)) :=
  ends_zoom _ _ _ _

theorem ends_onBoth (m : EStateM Fault (CSpace LOADER_SLOTS × CSpace PROCESS_SLOTS) α) :
    Ends (onBoth m) s Q E ↔
      Ends m (s.loader, s.proc) (fun a t => Q a { s with loader := t.1, proc := t.2 })
        (fun f t => E f.toLoad { s with loader := t.1, proc := t.2 }) :=
  ends_zoom _ _ _ _

theorem ends_castAmount {Q : U32 → LoadState → Prop} (x : U64) :
    Ends (castAmount x) s Q E ↔
      Q (x.setWidth 32) { s with casts := s.casts ++ [(x, x.setWidth 32)] } := Iff.rfl

theorem ends_takeScratch {Q : Nat → LoadState → Prop} :
    Ends takeScratch s Q E ↔ (2 ^ 64 ≤ s.scratch + 1 → E .trap s) ∧
      (s.scratch + 1 < 2 ^ 64 → Q s.scratch { s with scratch := s.scratch + 1 }) := by
  unfold takeScratch
  simp only [ends_bind, ends_get, ends_okOr, ends_modify, ends_pure, Word.narrow_eq_none,
    Word.narrow_eq_some]
  constructor
  · rintro ⟨h1, h2⟩
    exact ⟨h1, fun h => h2 _ ⟨h, rfl⟩⟩
  · rintro ⟨h1, h2⟩
    refine ⟨h1, ?_⟩
    rintro _ ⟨h, rfl⟩
    exact h2 h

/-- The memory after the hook calls `zs`. -/
theorem withLoader_ram (t : CSpace LOADER_SLOTS) (zs : List (U64 × U32))
    (h : t.zeroed = s.loader.zeroed ++ zs) :
    (s.withLoader t).ram = zs.foldl (fun ram z => zeroFrames ram z.1 z.2) s.ram := by
  unfold LoadState.withLoader
  rw [h, List.drop_left]

/-- Without a hook call the memory stays. -/
theorem withLoader_eq (t : CSpace LOADER_SLOTS) (h : t.zeroed = s.loader.zeroed) :
    s.withLoader t = { s with loader := t } := by
  unfold LoadState.withLoader
  rw [h, List.drop_length]
  rfl

end Parts

/-! ## What the image asks for -/

namespace Pex

/-- The pages of segment `i`. -/
def pages (p : Pex) (i : Nat) : Nat := (p.segmentAt i).memSize.toNat / PAGE_SIZE

/-- The pages of the first `k` segments. -/
def pagesUpTo (p : Pex) (k : Nat) : Nat := ((List.range k).map p.pages).sum

theorem pagesUpTo_succ (p : Pex) (k : Nat) : p.pagesUpTo (k + 1) = p.pagesUpTo k + p.pages k := by
  unfold pagesUpTo
  rw [List.range_succ, List.map_append, List.sum_append]
  simp

end Pex

/-- The first frame of the object for segment `i` of a load that starts in `s`. -/
def LoadState.frameAt (s : LoadState) (p : Pex) (i : Nat) : Nat :=
  (s.loader.slot L_UNTYPED).cap.objref.toNat + (s.loader.slot L_UNTYPED).cap.watermark.toNat +
    p.pagesUpTo i

/-- The capability to that object. -/
def LoadState.frameCap (s : LoadState) (p : Pex) (i : Nat) : RawCap :=
  retyped .frame (BitVec.ofNat 64 (s.frameAt p i)) (BitVec.ofNat 32 (p.pages i))

/-- The memory after the first `k` segments. -/
def LoadState.filled (s : LoadState) (p : Pex) : Nat → Nat → U8
  | 0 => s.ram
  | k + 1 =>
    copyBytes (zeroFrames (s.filled p k) (BitVec.ofNat 64 (s.frameAt p k))
    (BitVec.ofNat 32 (p.pages k))) (s.frameAt p k * PAGE_SIZE) (p.dataAt k)

/-- The call that maps page `k` of a segment whose object starts at `frame`. -/
def segCall (seg : Segment) (frame : Nat) (user : Option U64) (k : Nat) : MapCall :=
  ⟨BitVec.ofNat 64 (seg.vaddr.toNat + k * PAGE_SIZE), BitVec.ofNat 64 ((frame + k) * PAGE_SIZE),
    permToProt seg.perm, user⟩

/-- The calls for segment `i`. -/
def LoadState.segCalls (s : LoadState) (p : Pex) (user : Option U64) (i : Nat) : List MapCall :=
  (List.range (p.pages i)).map (segCall (p.segmentAt i) (s.frameAt p i) user)

/-- The `retype` for segment `i`. -/
def LoadState.segEvent (s : LoadState) (p : Pex) (i : Nat) : SysEvent Party :=
  ⟨.call .owner (.retype L_UNTYPED .frame (BitVec.ofNat 32 (p.pages i)) 1 (s.scratch + i)),
    .ok none⟩

/-! ## The loader between loads -/

/-- What holds of the loader's space and the scratch cursor between loads. -/
structure LoaderInv (cs : CSpace LOADER_SLOTS) (scratch : Nat) : Prop where
  memory : ∃ base watermark, cs.slot L_UNTYPED =
    ⟨⟨.untyped, Rights.RETYPE, base, 64, watermark, 0, 0⟩, NIL⟩ ∧
    base.toNat + 64 ≤ 2 ^ 32 ∧ watermark.toNat ≤ 64
  time : ∃ objref size, cs.slot L_SCHED = ⟨⟨.sched, Rights.DERIVE ||| Rights.GRANT, objref, size, 0,
    1000, 0⟩, NIL⟩
  ids : cs.nextObj.toNat + (cs.slot L_SCHED).cap.size.toNat ≤ 1002
  endpoint : ∃ objref, cs.slot L_ENDPOINT = ⟨retyped .endpoint objref 1, some L_UNTYPED⟩
  low : L_SCRATCH ≤ scratch
  free : ∀ d, scratch ≤ d → ¬ cs.Live d

/-! ## The loop -/

/-- The state after `k` rounds of the segment loop. -/
structure Segments (p : Pex) (user : Option U64) (s : LoadState) (k : Nat) (t : LoadState) :
    Prop where
  scratch : t.scratch = s.scratch + k
  inRange : ∀ i, i < k → s.scratch + i < LOADER_SLOTS
  proc : t.proc = s.proc
  pages_pos : ∀ i, i < k → 0 < p.pages i
  window : ∀ i, i < k → PROC_VA_BASE ≤ (p.segmentAt i).vaddr.toNat ∧
    (p.segmentAt i).vaddr.toNat + (p.segmentAt i).memSize.toNat ≤ PROC_VA_END
  budget : (s.loader.slot L_UNTYPED).cap.watermark.toNat + p.pagesUpTo k ≤ 64
  untyped : ∃ watermark : U32, watermark.toNat = (s.loader.slot L_UNTYPED).cap.watermark.toNat +
    p.pagesUpTo k ∧ t.loader.slot L_UNTYPED =
      { s.loader.slot L_UNTYPED with cap := { (s.loader.slot L_UNTYPED).cap with watermark :=
        watermark } }
  frames : ∀ i, i < k → t.loader.slot (s.scratch + i) = ⟨s.frameCap p i, some L_UNTYPED⟩
  other : ∀ d, d ≠ L_UNTYPED → (d < s.scratch ∨ s.scratch + k ≤ d) →
    t.loader.slot d = s.loader.slot d
  nextObj : t.loader.nextObj = s.loader.nextObj
  zeroed : t.loader.zeroed = s.loader.zeroed ++
    (List.range k).map fun i => (BitVec.ofNat 64 (s.frameAt p i), BitVec.ofNat 32 (p.pages i))
  ram : t.ram = s.filled p k
  maps : t.maps = s.maps ++ (List.range k).flatMap (s.segCalls p user)
  run : Run SysStep s.spaces ((List.range k).map (s.segEvent p)) t.spaces

/-- `seg_frames` after `k` rounds. -/
def FramesAt (scratch k : Nat) (frames : SegFrames) : Prop :=
  ∀ i, i < MAX_SEGMENTS → frames[i]? = some (if i < k then some (scratch + i) else none)

/-- A load that stopped in the segment loop: after whole rounds, with at most one more scratch slot
taken. -/
def SegmentsStop (p : Pex) (user : Option U64) (s : LoadState) (f : LoadFault)
    (t : LoadState) : Prop := (f = .trap ∧ 2 ^ 64 ≤ t.scratch + 1) ∨
  (∃ e, f = .err e) ∧ ∃ k u, k < p.segCount ∧ Segments p user s k u ∧
    (t = u ∨ t = { u with scratch := u.scratch + 1 })

theorem mapPages_spec (seg : Segment) (pfn : U32) (user : Option U64) (n : Nat) (t : LoadState)
    (hv : seg.vaddr.toNat + n * PAGE_SIZE ≤ PROC_VA_END) (hp : pfn.toNat + n ≤ 2 ^ 32) :
    Ends (forRange (mapSegmentPage seg pfn user) n) t
      (fun _ t' =>
        t' = { t with maps := t.maps ++ (List.range n).map (segCall seg pfn.toNat user) })
      (fun _ _ => False) := by
  unfold PAGE_SIZE PROC_VA_END at hv
  refine ends_forRange (s := t) (fun k t' =>
    t' = { t with maps := t.maps ++ (List.range k).map (segCall seg pfn.toNat user) })
    _ n (by simp) (fun k t' hk ht => ?_)
  subst ht
  have hcast : (BitVec.ofNat 64 k).toNat = k := by
    rw [BitVec.toNat_ofNat, Nat.mod_eq_of_lt (by omega)]
  have hcast32 : (BitVec.ofNat 32 k).toNat = k := by
    rw [BitVec.toNat_ofNat, Nat.mod_eq_of_lt (by omega)]
  have hpage : (0x1000 : U64).toNat = 4096 := rfl
  unfold mapSegmentPage
  simp only [ends_bind, ends_okOr, ends_modify, Word.checkedMul_eq_none, Word.checkedMul_eq_some,
    Word.checkedAdd_eq_none, Word.checkedAdd_eq_some, hcast, hcast32, hpage]
  refine ⟨fun h => by omega, fun off hoff => ⟨fun h => by omega, fun va hva => ⟨fun h => by omega,
    fun f hf => ?_⟩⟩⟩
  have hcall : (⟨va, pfnToPhys f, permToProt seg.perm, user⟩ : MapCall) = segCall seg pfn.toNat
    user k := by
    unfold segCall PAGE_SIZE
    congr 1
    · apply BitVec.eq_of_toNat_eq
      rw [BitVec.toNat_ofNat, Nat.mod_eq_of_lt (by omega)]
      omega
    · apply BitVec.eq_of_toNat_eq
      rw [pfnToPhys_toNat, BitVec.toNat_ofNat, Nat.mod_eq_of_lt (by omega), hf]
      rfl
  rw [hcall, List.range_succ, List.map_append, List.append_assoc]
  rfl

/-- One more segment: its object was carved into the next scratch slot, filled and mapped. -/
structure Carved (p : Pex) (user : Option U64) (s : LoadState) (k : Nat) (t t' : LoadState) :
    Prop where
  window : PROC_VA_BASE ≤ (p.segmentAt k).vaddr.toNat ∧
    (p.segmentAt k).vaddr.toNat + (p.segmentAt k).memSize.toNat ≤ PROC_VA_END
  call : retype L_UNTYPED .frame (BitVec.ofNat 32 (p.pages k)) 1 t.scratch t.loader =
    .ok () t'.loader
  retyped : Retyped t.loader L_UNTYPED .frame (BitVec.ofNat 32 (p.pages k)) 1 t.scratch t'.loader
  proc : t'.proc = t.proc
  scratch : t'.scratch = t.scratch + 1
  ram : t'.ram = copyBytes (zeroFrames t.ram (BitVec.ofNat 64 (s.frameAt p k))
    (BitVec.ofNat 32 (p.pages k))) (s.frameAt p k * PAGE_SIZE) (p.dataAt k)
  maps : t'.maps = t.maps ++ s.segCalls p user k

theorem exec_retype {N : Nat} {cs cs' : CSpace N} {ut dest : Nat} {newType : CapType}
    {framesPerObj count : U32} (h : retype ut newType framesPerObj count dest cs = .ok () cs') :
    (Call.retype ut newType framesPerObj count dest).exec cs = .ok none cs' := by
  show EStateM.bind _ _ _ = _
  unfold EStateM.bind
  rw [h]
  rfl

section Loop

variable {b : List U8} {arch : U16} {user : Option U64} {s t : LoadState} {k : Nat}

theorem pages_le (hw : WellFormed b arch) (hk : k < (Pex.view b).segCount) :
    (Pex.view b).pages k ≤ 4096 := by
  have hle := (hw.segments k hk).1.mem_le
  unfold Pex.pages PAGE_SIZE
  omega

theorem memSize_eq (hw : WellFormed b arch) (hk : k < (Pex.view b).segCount) :
    ((Pex.view b).segmentAt k).memSize.toNat = (Pex.view b).pages k * PAGE_SIZE := by
  have hal := (hw.segments k hk).1.mem_aligned
  unfold Pex.pages PAGE_SIZE
  omega

variable {p : Pex}

/-- The object of the next segment begins where the watermark is. -/
theorem Segments.objAt (ht : Segments p user s k t) (pages : U32) :
    objAt (t.loader.slot L_UNTYPED).cap pages 0 = BitVec.ofNat 64 (s.frameAt p k) := by
  obtain ⟨watermark, hw, hslot⟩ := ht.untyped
  unfold CSpace.objAt LoadState.frameAt
  rw [hslot]
  show BitVec.ofNat 64 ((s.loader.slot L_UNTYPED).cap.objref.toNat + watermark.toNat + _) = _
  rw [hw, Nat.zero_mul, Nat.add_zero, Nat.add_assoc]

theorem Segments.zero (p : Pex) (hinv : LoaderInv s.loader s.scratch) : Segments p user s 0 s where
  scratch := rfl
  inRange := fun i hi => by omega
  proc := rfl
  pages_pos := fun i hi => by omega
  window := fun i hi => by omega
  budget := by
    obtain ⟨base, watermark, hslot, -, hle⟩ := hinv.memory
    rw [hslot]
    exact hle
  untyped := ⟨_, rfl, rfl⟩
  frames := fun i hi => by omega
  other := fun _ _ _ => rfl
  nextObj := rfl
  zeroed := by simp
  ram := rfl
  maps := by simp
  run := .nil _

theorem withLoader_self (t : LoadState) : t.withLoader t.loader = t := withLoader_eq _ rfl

/-- The pages of segment `k` as a word. -/
theorem pages_toNat (hw : WellFormed b arch) (hk : k < (Pex.view b).segCount) :
    (BitVec.ofNat 32 ((Pex.view b).pages k)).toNat = (Pex.view b).pages k := by
  have hpages := pages_le hw hk
  rw [BitVec.toNat_ofNat, Nat.mod_eq_of_lt (by omega)]

/-- The space, the cursor and the memory once the object of segment `k` is carved. -/
structure CarvedOnly (p : Pex) (s : LoadState) (k : Nat) (t u : LoadState) : Prop where
  call : retype L_UNTYPED .frame (BitVec.ofNat 32 (p.pages k)) 1 t.scratch t.loader =
    .ok () u.loader
  retyped : Retyped t.loader L_UNTYPED .frame (BitVec.ofNat 32 (p.pages k)) 1 t.scratch u.loader
  proc : u.proc = t.proc
  scratch : u.scratch = t.scratch + 1
  ram : u.ram = zeroFrames t.ram (BitVec.ofNat 64 (s.frameAt p k)) (BitVec.ofNat 32 (p.pages k))
  maps : u.maps = t.maps

section

variable (hinv : LoaderInv s.loader s.scratch)

include hinv

theorem Segments.succ {t' : LoadState} (hpages : p.pages k ≤ 4096) (ht : Segments p user s k t)
    (hc : Carved p user s k t t') :
    Segments p user s (k + 1) t' := by
  obtain ⟨base, watermark₀, hroot, -, -⟩ := hinv.memory
  obtain ⟨watermark, hw, hslot⟩ := ht.untyped
  have hr := hc.retyped
  have hcount : (1 : U32).toNat = 1 := rfl
  have hpg : (BitVec.ofNat 32 (p.pages k)).toNat = p.pages k := by
    rw [BitVec.toNat_ofNat, Nat.mod_eq_of_lt (by omega)]
  have hscr := ht.scratch
  have hlow := hinv.low
  unfold L_SCRATCH at hlow
  have hstop := hr.stop
  have hmade := hr.made 0 (by decide)
  have hbudget := hr.budget
  rw [hslot, hroot, hpg, hcount, Nat.mul_one] at hbudget
  change watermark.toNat + p.pages k ≤ 64 at hbudget
  have hpos := hr.frames_pos
  rw [hpg] at hpos
  have hend : ∀ i, i < k + 1 → i < k ∨ i = k := fun i hi => Nat.lt_succ_iff_lt_or_eq.mp hi
  constructor
  case scratch => rw [hc.scratch, hscr]; rfl
  case inRange =>
    intro i hi
    rcases hend i hi with hi | rfl
    · exact ht.inRange i hi
    · omega
  case proc => rw [hc.proc, ht.proc]
  case pages_pos =>
    intro i hi
    rcases hend i hi with hi | rfl
    · exact ht.pages_pos i hi
    · exact hpos
  case window =>
    intro i hi
    rcases hend i hi with hi | rfl
    · exact ht.window i hi
    · exact hc.window
  case budget =>
    rw [Pex.pagesUpTo_succ]
    omega
  case untyped =>
    obtain ⟨watermark', hw', hslot'⟩ := hr.charged
    refine ⟨watermark', ?_, by rw [hslot', hslot]⟩
    rw [hw', hslot, hpg, hcount, Pex.pagesUpTo_succ]
    change watermark.toNat + _ = _
    omega
  case frames =>
    intro i hi
    rcases hend i hi with hi | rfl
    · rw [hr.frame (s.scratch + i) (by unfold L_UNTYPED; omega) (by omega), ht.frames i hi]
    · rw [← hscr]
      rw [Nat.add_zero] at hmade
      rw [hmade, ht.objAt]
      rfl
  case other =>
    intro d hd hout
    rw [hr.frame d hd (by omega)]
    exact ht.other d hd (by omega)
  case nextObj => rw [hr.nextObj, ht.nextObj]
  case zeroed =>
    rw [hr.zeroed, ht.zeroed, hcount, List.append_assoc, List.range_succ (n := k), List.map_append,
      List.map_singleton]
    show _ ++ (_ ++ [(CSpace.objAt _ _ 0, _)]) = _
    rw [ht.objAt]
  case ram => rw [hc.ram, ht.ram]; rfl
  case maps =>
    rw [hc.maps, ht.maps, List.range_succ, List.flatMap_append, List.append_assoc,
      List.flatMap_singleton]
  case run =>
    rw [List.range_succ, List.map_append]
    refine ht.run.snoc ?_
    unfold LoadState.segEvent
    rw [← hscr]
    exact sysStep_call (exec_retype hc.call) hc.proc

theorem Segments.fits (ht : Segments p user s k t) :
    Fits (t.loader.slot L_UNTYPED).cap := by
  obtain ⟨base, watermark₀, hroot, hbase, -⟩ := hinv.memory
  obtain ⟨watermark, hw, hslot⟩ := ht.untyped
  have hbudget := ht.budget
  rw [hslot, hroot]
  unfold Fits
  change watermark.toNat ≤ 64 ∧ base.toNat + 64 ≤ 2 ^ 64
  omega

/-- The frames of the next object have 32-bit numbers. -/
theorem frameAt_lt (ht : Segments p user s k t) {cs' : CSpace LOADER_SLOTS} {dest : Nat}
    {pages : U32} (hr : Retyped t.loader L_UNTYPED .frame pages 1 dest cs') :
    s.frameAt p k + pages.toNat ≤ 2 ^ 32 := by
  obtain ⟨base, watermark₀, hroot, hbase, -⟩ := hinv.memory
  obtain ⟨watermark, hw, hslot⟩ := ht.untyped
  have hbudget := hr.budget
  unfold LoadState.frameAt
  rw [hslot, hroot] at hbudget
  rw [hroot] at hw ⊢
  rw [show (1 : U32).toNat = 1 from rfl] at hbudget
  change watermark.toNat + pages.toNat * 1 ≤ 64 at hbudget
  change watermark.toNat = watermark₀.toNat + _ at hw
  change base.toNat + watermark₀.toNat + _ + _ ≤ _
  omega

theorem carveSegment_spec (hk : k < p.segCount) (ht : Segments p user s k t) :
    Ends (carveSegment (BitVec.ofNat 32 (p.pages k))) t
      (fun r u => r.1 = t.scratch ∧ r.2 = (s.frameCap p k).objref.setWidth 32 ∧
        CarvedOnly p s k t u)
      (SegmentsStop p user s) := by
  unfold carveSegment
  simp only [ends_bind, ends_takeScratch, ends_onLoader, ends_pure]
  refine ⟨fun h => Or.inl ⟨rfl, h⟩, fun _ => ?_⟩
  refine (retype_spec t.loader L_UNTYPED .frame _ 1 t.scratch).with_eq.imp (fun _ cs' h =>
    ?_) (fun f cs' h => ?_)
  · obtain ⟨hcall, hr⟩ := h
    obtain ⟨u, hu⟩ : ∃ u, u = LoadState.withLoader cs' { t with scratch := t.scratch + 1 } :=
      ⟨_, rfl⟩
    have hcs : u.loader = cs' := by rw [hu]; rfl
    have hslot : u.loader.slot t.scratch = ⟨s.frameCap p k, some L_UNTYPED⟩ := by
      have hmade := hr.made 0 (by decide)
      rw [Nat.add_zero] at hmade
      rw [hcs, hmade, ht.objAt]
      rfl
    have hlive : u.loader.Live t.scratch := by
      unfold Live
      rw [hslot]
      rfl
    have hram : u.ram = zeroFrames t.ram (BitVec.ofNat 64 (s.frameAt p k))
      (BitVec.ofNat 32 (p.pages k)) := by
      have hz := hr.zeroed
      rw [show (1 : U32).toNat = 1 from rfl] at hz
      rw [hu, withLoader_ram (s := { t with scratch := t.scratch + 1 }) cs' _ hz, List.range_one,
        List.map_singleton, ht.objAt]
      rfl
    unfold resolve
    rw [← hu, ends_live, withLoader_self, hslot]
    refine ⟨fun h => absurd hlive.lt (by omega), fun _ h => absurd hlive h, fun _ =>
      ⟨trivial, rfl, ?_⟩⟩
    exact ⟨by rw [hcs]; exact hcall, by rw [hcs]; exact hr, by rw [hu]; rfl, by rw [hu]; rfl, hram,
      by rw [hu]; rfl⟩
  · obtain ⟨-, ⟨⟨e, rfl⟩, rfl⟩ | ⟨-, -, -, hfits⟩⟩ := h
    · rw [withLoader_eq (s := { t with scratch := t.scratch + 1 }) _ rfl]
      exact Or.inr ⟨⟨.cap e, rfl⟩, k, t, hk, ht, Or.inr rfl⟩
    · exact absurd (ht.fits hinv) hfits

end

theorem fillSegment_spec (hw : WellFormed b arch) (hk : k < (Pex.view b).segCount) (u : LoadState)
    {pfn : U32}
    (hv : ((Pex.view b).segmentAt k).vaddr.toNat + ((Pex.view b).segmentAt k).memSize.toNat ≤
      PROC_VA_END) (hp : pfn.toNat + (Pex.view b).pages k ≤ 2 ^ 32) :
    Ends (fillSegment (Pex.view b) user k ((Pex.view b).segmentAt k)
      (BitVec.ofNat 32 ((Pex.view b).pages k)) pfn) u
      (fun _ u' => u' = { u with
        ram := copyBytes u.ram (pfn.toNat * PAGE_SIZE) ((Pex.view b).dataAt k)
        maps := u.maps ++ (List.range ((Pex.view b).pages k)).map
          (segCall ((Pex.view b).segmentAt k) pfn.toNat user) })
      (fun _ _ => False) := by
  obtain ⟨hok, hfile⟩ := hw.segments k hk
  have hmem := memSize_eq hw hk
  have hdata : ((Pex.view b).dataAt k).length ≤ (Pex.view b).pages k * PAGE_SIZE := by
    have hlen : ((Pex.view b).dataAt k).length = ((Pex.view b).segmentAt k).fileSize.toNat :=
      slice_length _ _ _ hfile
    have := hok.file_le
    omega
  unfold fillSegment
  rw [pages_toNat hw hk]
  simp only [ends_bind, ends_onPex, ends_segmentData hw.within hk hfile, ends_refuseIf, ends_modify]
  refine ⟨fun h => by omega, fun _ => ?_⟩
  rw [pfnToPhys_toNat]
  exact mapPages_spec _ pfn user _ _ (by rw [← hmem]; exact hv) hp

/-- **One round of the segment loop.** -/
theorem loadSegment_spec (hw : WellFormed b arch) (hinv : LoaderInv s.loader s.scratch)
    (hk : k < (Pex.view b).segCount) {frames : SegFrames} (ht : Segments (Pex.view b) user s k t)
    (hf : FramesAt s.scratch k frames) :
    Ends (loadSegment (Pex.view b) user k frames) t
      (fun frames' t' => Segments (Pex.view b) user s (k + 1) t' ∧
        FramesAt s.scratch (k + 1) frames')
      (SegmentsStop (Pex.view b) user s) := by
  have hpages := pages_toNat hw hk
  have hshift : (((Pex.view b).segmentAt k).memSize >>> 12).toNat = (Pex.view b).pages k := by
    rw [BitVec.toNat_ushiftRight, Nat.shiftRight_eq_div_pow]
    rfl
  have hsame : ∀ e, SegmentsStop (Pex.view b) user s (.err e) t := fun e =>
    Or.inr ⟨⟨e, rfl⟩, k, t, hk, ht, Or.inl rfl⟩
  unfold loadSegment
  simp only [ends_bind, ends_onPex, ends_segment hw.within hk, ends_okOr, ends_refuseIf, ends_pure,
    Word.checkedAdd_eq_some, Word.tryFrom_eq_some, hshift, hsame, implies_true, true_and]
  intro segEnd hsegEnd hwindow pages hpg
  rw [not_or, Nat.not_lt, Nat.not_lt, hsegEnd] at hwindow
  rw [show pages = BitVec.ofNat 32 ((Pex.view b).pages k) from BitVec.eq_of_toNat_eq
    (hpg.trans hpages.symm)]
  refine (carveSegment_spec hinv hk ht).imp_ok fun r u h => ?_
  obtain ⟨slot, pfn⟩ := r
  obtain ⟨hslot, hpfn, hc⟩ := h
  cases show slot = t.scratch from hslot
  have hfit := frameAt_lt hinv ht hc.retyped
  have hpos := hc.retyped.frames_pos
  rw [hpages] at hfit hpos
  have hfirst : pfn.toNat = s.frameAt (Pex.view b) k := by
    rw [show pfn = _ from hpfn]
    show ((BitVec.ofNat 64 (s.frameAt (Pex.view b) k)).setWidth 32).toNat = _
    rw [BitVec.toNat_setWidth, BitVec.toNat_ofNat,
      Nat.mod_eq_of_lt (by omega : s.frameAt (Pex.view b) k < 2 ^ 64), Nat.mod_eq_of_lt (by omega)]
  refine (fillSegment_spec hw hk u hwindow.2 (by rw [hfirst]; exact hfit)).imp (fun _ t' h =>
    ?_) (fun _ _ h => h.elim)
  have hseg := hw.segCount
  refine ⟨fun h => by omega, fun _ => ⟨ht.succ hinv (pages_le hw hk) ?_, fun i hi => ?_⟩⟩
  · rw [h, hfirst]
    refine ⟨hwindow, hc.call, hc.retyped, hc.proc, hc.scratch, ?_, ?_⟩
    · rw [← hc.ram]
    · rw [← hc.maps]
      rfl
  · rw [Vector.getElem?_setIfInBounds, ht.scratch]
    by_cases hik : k = i
    · subst hik
      rw [if_pos rfl, if_pos hi, if_pos (Nat.lt_succ_self k)]
    · rw [if_neg hik, hf i hi]
      by_cases hlt : i < k
      · rw [if_pos hlt, if_pos (by omega)]
      · rw [if_neg hlt, if_neg (by omega)]

/-- **The segment loop.** -/
theorem loadSegments_spec (hw : WellFormed b arch) (user : Option U64)
    (hinv : LoaderInv s.loader s.scratch) :
    Ends (foldRange (loadSegment (Pex.view b) user) (Pex.view b).segCount
      (Vector.replicate MAX_SEGMENTS none)) s
      (fun frames t => Segments (Pex.view b) user s (Pex.view b).segCount t ∧
        FramesAt s.scratch (Pex.view b).segCount frames)
      (SegmentsStop (Pex.view b) user s) := by
  refine ends_foldRange (fun k frames t => Segments (Pex.view b) user s k t ∧
    FramesAt s.scratch k frames) _ _ _
    ⟨Segments.zero _ hinv, fun i hi => ?_⟩ (fun k frames t hk ht =>
    loadSegment_spec hw hinv hk ht.1 ht.2)
  rw [Vector.getElem?_replicate, if_pos hi, if_neg (Nat.not_lt_zero i)]

end Loop

end Praesidium
