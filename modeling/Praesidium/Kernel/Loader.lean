import Praesidium.Abi.Pex
import Praesidium.CapCore.CSpace
import Praesidium.Kernel.Arch

/-!
The in-kernel `.pex` loader (`kernel/src/loader/mod.rs`).

`load` is one program over the loader's capability space, the new process's, the scratch cursor,
physical memory, and the records of the page-mapping calls and of the casts of requested capacities.
The frames the zero hook of the loader's space is called with are zeroed in memory; a frame is
written through its direct-map alias, so memory is indexed by physical address.

A `Load` program returns a value, refuses with a `LoadError`, or traps: a panic, an
overflow, an index out of bounds.
-/

namespace Praesidium

open Fallible

/-! ## State -/

def LOADER_SLOTS : Nat := 32
def PROCESS_SLOTS : Nat := 16

def L_UNTYPED : Nat := 0
def L_SCHED : Nat := 1
def L_ENDPOINT : Nat := 2
def L_SCRATCH : Nat := 8

/-- Where the segments of a process may lie. -/
def PROC_VA_BASE : Nat := 0x40000000
def PROC_VA_END : Nat := 0x80000000

inductive LoadError where
  | pex (e : PexError)
  | unknownManifestType (t : U8)
  | badRights
  | badSegmentRef
  | segmentVaddrOutOfRange
  | destSlotOutOfRange
  | cap (e : CapError)
  deriving DecidableEq, Repr

inductive LoadFault where
  | err (e : LoadError)
  | trap
  deriving DecidableEq, Repr

/-- A call of `map_user_page`, with its domain, or of `map_page`. -/
structure MapCall where
  va : U64
  pa : U64
  prot : Prot
  user : Option U64
  deriving DecidableEq, Repr

structure LoadState where
  loader : CSpace LOADER_SLOTS
  proc : CSpace PROCESS_SLOTS
  scratch : Nat
  ram : Nat → U8
  maps : List MapCall
  casts : List (U64 × U32)

abbrev Load (α : Type) := EStateM LoadFault LoadState α

structure Loaded where
  entry : U64
  budget : U32
  domainId : U64
  deriving DecidableEq, Repr

/-! ## Memory -/

/-- `zero_frames`: frame numbers are truncated to 32 bits -/
def zeroFrames (ram : Nat → U8) (frame : U64) (frames : U32) : Nat → U8 := fun a =>
  if ∃ i, i < frames.toNat ∧ a / PAGE_SIZE = ((frame + BitVec.ofNat 64 i).setWidth 32).toNat then 0
    else ram a

def copyBytes (ram : Nat → U8) (pa : Nat) (data : List U8) : Nat → U8 := fun a =>
  if pa ≤ a ∧ a < pa + data.length then data[a - pa]?.getD 0 else ram a

/-! ## Parts of the state -/

def PexFault.toLoad : PexFault → LoadFault
  | .err e => .err (.pex e)
  | .panic => .trap

def Fault.toLoad : Fault → LoadFault
  | .err e => .err (.cap e)
  | _ => .trap

def onPex {α : Type} (m : Parse α) : Load α := zoom (fun _ => ()) (fun _ s => s) PexFault.toLoad m

/-- The loader's space is now `t`; what its zero hook was called with since is zeroed. -/
def LoadState.withLoader (t : CSpace LOADER_SLOTS) (s : LoadState) : LoadState :=
  { s with
    loader := t
    ram := (t.zeroed.drop s.loader.zeroed.length).foldl (fun ram z =>
      zeroFrames ram z.1 z.2) s.ram }

def onLoader {α : Type} (m : Op LOADER_SLOTS α) : Load α :=
  zoom (·.loader) LoadState.withLoader Fault.toLoad m

/-- Run on the loader's and the process's space; a grant calls no hook. -/
def onBoth {α : Type} (m : EStateM Fault (CSpace LOADER_SLOTS × CSpace PROCESS_SLOTS) α) : Load α :=
  zoom (fun s => (s.loader, s.proc)) (fun t s => { s with loader := t.1, proc := t.2 })
    Fault.toLoad m

/-- `let slot = *scratch; *scratch += 1` -/
def takeScratch : Load Nat := do
  let s ← get
  let next ← okOr (Word.narrow 64 (s.scratch + 1)) .trap
  modify fun s => { s with scratch := next }
  pure s.scratch

/-! ## Loading -/

def permToProt (perm : U8) : Prot :=
  if perm &&& PERM_X ≠ 0 then .rx else if perm &&& PERM_W ≠ 0 then .rw else .ro

abbrev SegFrames := Vector (Option Nat) MAX_SEGMENTS

/-- One round of the mapping loop. -/
def mapSegmentPage (s : Segment) (basePfn : U32) (user : Option U64) (k : Nat) : Load Unit := do
  let off ← okOr (Word.checkedMul (BitVec.ofNat 64 k) 0x1000) .trap
  let va ← okOr (Word.checkedAdd s.vaddr off) .trap
  let pfn ← okOr (Word.checkedAdd basePfn (BitVec.ofNat 32 k)) .trap
  modify fun st => { st with maps := st.maps ++ [⟨va, pfnToPhys pfn, permToProt s.perm, user⟩] }

/-- A `Frame` object of `pages` frames in the next scratch slot; its value is the slot and the first
frame. -/
def carveSegment (pages : U32) : Load (Nat × U32) := do
  let frameSlot ← takeScratch
  onLoader (CSpace.retype L_UNTYPED .frame pages 1 frameSlot)
  let cap ← onLoader (CSpace.resolve frameSlot)
  pure (frameSlot, cap.objref.setWidth 32)

/-- Copy the file bytes of segment `i` into its frames and map them. -/
def fillSegment (pex : Pex) (user : Option U64) (i : Nat) (s : Segment) (pages basePfn : U32) : Load
    Unit := do
  let mappedBytes := pages.toNat * PAGE_SIZE
  let data ← onPex (pex.segmentData i)
  refuseIf (mappedBytes < data.length) .trap
  modify fun st => { st with ram := copyBytes st.ram (pfnToPhys basePfn).toNat data }
  forRange (mapSegmentPage s basePfn user) pages.toNat

/-- One round of the segment loop; its value is `seg_frames` after the round. -/
def loadSegment (pex : Pex) (user : Option U64) (i : Nat) (segFrames : SegFrames) : Load
    SegFrames := do
  let s ← onPex (pex.segment i)
  let segEnd ← okOr (Word.checkedAdd s.vaddr s.memSize) (.err .segmentVaddrOutOfRange)
  refuseIf (s.vaddr.toNat < PROC_VA_BASE ∨ PROC_VA_END < segEnd.toNat)
    (.err .segmentVaddrOutOfRange)
  let pages ← okOr (Word.tryFrom 32 (s.memSize >>> 12).toNat) (.err (.pex .segmentTooLarge))
  let (frameSlot, basePfn) ← carveSegment pages
  fillSegment pex user i s pages basePfn
  refuseIf (MAX_SEGMENTS ≤ i) .trap
  pure (segFrames.setIfInBounds i (some frameSlot))

/-- `m.param0 as u32`, on record -/
def castAmount (param0 : U64) : Load U32 := do
  modify fun s => { s with casts := s.casts ++ [(param0, param0.setWidth 32)] }
  pure (param0.setWidth 32)

/-- One round of the manifest loop; its value is the budget after the round. -/
def loadEntry (pex : Pex) (segFrames : SegFrames) (i : Nat) (budget : U32) : Load U32 := do
  let m ← onPex (pex.manifest i)
  let dest := m.destSlot.toNat
  refuseIf (PROCESS_SLOTS ≤ dest) (.err .destSlotOutOfRange)
  let rights ← okOr (Rights.fromBits m.rights) (.err .badRights)
  if m.capType = MANIFEST_SCHED then do
    let child ← takeScratch
    let amount ← castAmount m.param0
    onLoader (CSpace.split L_SCHED child amount)
    onBoth (grant child dest rights 0 .move)
    -- `budget = m.param0 as u32`: the same cast again
    pure amount
  else if m.capType = MANIFEST_ENDPOINT then do
    onBoth (grant L_ENDPOINT dest rights m.param0 .mint)
    pure budget
  else if m.capType = MANIFEST_FRAME then do
    let src ← okOr (segFrames[m.param0.toNat]?.join) (.err .badSegmentRef)
    onBoth (grant src dest rights 0 .mint)
    pure budget
  else throw (.err (.unknownManifestType m.capType))

/-- `arch` is the backend's `PEX_ARCH`. -/
def load (arch : U16) (image : List U8) (domainId : U64) (userAccessible : Bool) : Load Loaded := do
  let pex ← onPex (Pex.parse image arch)
  let user := if userAccessible then some domainId else none
  let segFrames ← foldRange (loadSegment pex user) pex.segCount (Vector.replicate MAX_SEGMENTS none)
  let budget ← foldRange (loadEntry pex segFrames) pex.manCount 0
  pure ⟨pex.entry, budget, domainId⟩

/-- The authority the loader starts from: 64 frames at frame number `base`, CPU time, and an
`Endpoint`. -/
def authority (base : U32) : Op LOADER_SLOTS Unit := do
  CSpace.setRootUntyped (base.setWidth 64) 64
  CSpace.setRootSched L_SCHED 1000 1000
  CSpace.retype L_UNTYPED .endpoint 1 1 L_ENDPOINT

end Praesidium
