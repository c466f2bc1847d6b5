import Praesidium.Lib.Bytes
import Praesidium.Lib.Fallible
import Praesidium.Lib.Word

/-!
The `.pex` executable format and its parser (`abi/src/pex.rs`).

An image is a byte string.  The parser and the accessors are `Parse` programs: they
return a value, refuse with a `PexError`, or panic (an index or a `usize` sum out of
range, a failed `assert!` or `expect`).  `usize` is a number below `2^64`, and every
plain addition or multiplication of two of them can panic.
-/

namespace Praesidium

open Fallible Bytes

abbrev U8 := BitVec 8
abbrev U16 := BitVec 16

/-! ## The format -/

def PEX_MAGIC : BitVec 32 := 0x01584550
def PEX_VERSION : U16 := 1

def ARCH_X86_64 : U16 := 1
def ARCH_AARCH64 : U16 := 2

def HEADER_LEN : Nat := 48
def SEGMENT_LEN : Nat := 32
def MANIFEST_LEN : Nat := 32

def MAX_SEGMENTS : Nat := 16
def MAX_MANIFEST : Nat := 32
def MAX_SEGMENT_PAGES : Nat := 4096

def PERM_R : U8 := 1#8 <<< 0
def PERM_W : U8 := 1#8 <<< 1
def PERM_X : U8 := 1#8 <<< 2

def MANIFEST_SCHED : U8 := 1
def MANIFEST_ENDPOINT : U8 := 2
def MANIFEST_FRAME : U8 := 3

inductive PexError where
  | tooShort
  | badMagic
  | badVersion
  | archMismatch
  | lenMismatch
  | tooManyRecords
  | tableOutOfBounds
  | segmentOutOfBounds
  | badMemSize
  | segmentTooLarge
  | badPermission
  | unaligned
  | entryNotExecutable
  | reservedNonZero
  deriving DecidableEq, Repr

/-- The ways a parser or an accessor ends without a value. -/
inductive PexFault where
  | err (e : PexError)
  | panic
  deriving DecidableEq, Repr

abbrev Parse (α : Type) := EStateM PexFault Unit α

structure Segment where
  fileOff : BitVec 32
  fileSize : BitVec 32
  vaddr : BitVec 64
  memSize : BitVec 64
  perm : U8
  deriving DecidableEq, Repr

def Segment.isExec (s : Segment) : Bool := s.perm &&& PERM_X != 0
def Segment.isWrite (s : Segment) : Bool := s.perm &&& PERM_W != 0

structure ManifestEntry where
  capType : U8
  destSlot : U16
  rights : BitVec 32
  param0 : BitVec 64
  param1 : BitVec 64
  deriving DecidableEq, Repr

structure Pex where
  bytes : List U8
  entry : BitVec 64
  segOff : Nat
  segCount : Nat
  manOff : Nat
  manCount : Nat
  deriving DecidableEq, Repr

/-! ## Reads -/

/-- `a + b` on `usize` -/
def plus (a b : Nat) : Parse Nat := okOr (Word.narrow 64 (a + b)) .panic

/-- `a * b` on `usize` -/
def times (a b : Nat) : Parse Nat := okOr (Word.narrow 64 (a * b)) .panic

/-- The `n` bytes at `off`, as a little-endian number. -/
def rd (n : Nat) (b : List U8) (off : Nat) : Parse Nat := do
  let stop ← plus off n
  let s ← okOr (range b off stop) (.err .tooShort)
  pure (leNat s)

def rdU16 (b : List U8) (off : Nat) : Parse U16 := do return BitVec.ofNat 16 (← rd 2 b off)

def rdU32 (b : List U8) (off : Nat) : Parse (BitVec 32) := do return BitVec.ofNat 32 (← rd 4 b off)

def rdU64 (b : List U8) (off : Nat) : Parse (BitVec 64) := do return BitVec.ofNat 64 (← rd 8 b off)

/-! ## Records -/

namespace Pex

def segmentRaw (p : Pex) (i : Nat) : Parse Segment := do
  let base ← plus p.segOff (← times i SEGMENT_LEN)
  let fileOff ← rdU32 p.bytes base
  let fileSize ← rdU32 p.bytes (← plus base 4)
  let vaddr ← rdU64 p.bytes (← plus base 8)
  let memSize ← rdU64 p.bytes (← plus base 16)
  let perm ← okOr p.bytes[← plus base 24]? (.err .tooShort)
  pure ⟨fileOff, fileSize, vaddr, memSize, perm⟩

def manifestRaw (p : Pex) (i : Nat) : Parse ManifestEntry := do
  let base ← plus p.manOff (← times i MANIFEST_LEN)
  let capType ← okOr p.bytes[base]? (.err .tooShort)
  let destSlot ← rdU16 p.bytes (← plus base 2)
  let rights ← rdU32 p.bytes (← plus base 4)
  let param0 ← rdU64 p.bytes (← plus base 8)
  let param1 ← rdU64 p.bytes (← plus base 16)
  pure ⟨capType, destSlot, rights, param0, param1⟩

/-- `r.expect(..)` -/
def expect {α : Type} (m : Parse α) : Parse α := zoom id (fun t _ => t) (fun _ => .panic) m

def segment (p : Pex) (i : Nat) : Parse Segment := do
  refuseIf (p.segCount ≤ i) .panic
  expect (p.segmentRaw i)

def segmentData (p : Pex) (i : Nat) : Parse (List U8) := do
  let s ← p.segment i
  let stop ← plus s.fileOff.toNat s.fileSize.toNat
  okOr (range p.bytes s.fileOff.toNat stop) .panic

def manifest (p : Pex) (i : Nat) : Parse ManifestEntry := do
  refuseIf (p.manCount ≤ i) .panic
  expect (p.manifestRaw i)

end Pex

/-! ## Validation -/

def tableFits (total off count recLen : Nat) : Bool :=
  match (Word.narrow 64 (count * recLen)).bind fun w => Word.narrow 64 (off + w) with
  | some stop => stop ≤ total
  | none => false

def validatePerm (perm : U8) : Parse Unit :=
  refuseIf (perm &&& ~~~(PERM_R ||| PERM_W ||| PERM_X) ≠ 0 ∨ perm &&& PERM_R = 0 ∨
    (perm &&& PERM_W ≠ 0 ∧ perm &&& PERM_X ≠ 0)) (.err .badPermission)

/-- One round of the segment loop of `parse`; its value is `entry_ok` after the round. -/
def checkSegment (p : Pex) (i : Nat) (entryOk : Bool) : Parse Bool := do
  let s ← p.segmentRaw i
  validatePerm s.perm
  refuseIf (s.vaddr &&& 0xfff ≠ 0 ∨ s.memSize &&& 0xfff ≠ 0) (.err .unaligned)
  refuseIf (s.memSize.toNat < s.fileSize.toNat) (.err .badMemSize)
  refuseIf (MAX_SEGMENT_PAGES < (s.memSize >>> 12).toNat) (.err .segmentTooLarge)
  let fileEnd ← okOr (Word.narrow 64 (s.fileOff.toNat + s.fileSize.toNat))
    (.err .segmentOutOfBounds)
  refuseIf (p.bytes.length < fileEnd) (.err .segmentOutOfBounds)
  let segEnd ← okOr (Word.checkedAdd s.vaddr s.memSize) (.err .unaligned)
  if s.isExec ∧ s.vaddr.toNat ≤ p.entry.toNat ∧
    p.entry.toNat < segEnd.toNat then pure true else pure entryOk

def Pex.parse (bytes : List U8) (arch : U16) : Parse Pex := do
  refuseIf (bytes.length < HEADER_LEN) (.err .tooShort)
  refuseIf ((← rdU32 bytes 0) ≠ PEX_MAGIC) (.err .badMagic)
  refuseIf ((← rdU16 bytes 4) ≠ PEX_VERSION) (.err .badVersion)
  refuseIf ((← rdU16 bytes 6) ≠ arch) (.err .archMismatch)
  let entry ← rdU64 bytes 8
  let totalLen ← rdU32 bytes 16
  refuseIf (totalLen.toNat ≠ bytes.length) (.err .lenMismatch)
  let segOff ← rdU32 bytes 20
  let segCount ← rdU16 bytes 24
  let manCount ← rdU16 bytes 26
  let manOff ← rdU32 bytes 28
  let integOff ← rdU32 bytes 32
  let integLen ← rdU32 bytes 36
  refuseIf ((← rdU64 bytes 40) ≠ 0) (.err .reservedNonZero)
  refuseIf (MAX_SEGMENTS < segCount.toNat ∨ MAX_MANIFEST < manCount.toNat) (.err .tooManyRecords)
  refuseIf (¬ tableFits bytes.length segOff.toNat segCount.toNat SEGMENT_LEN ∨
    ¬ tableFits bytes.length manOff.toNat manCount.toNat MANIFEST_LEN) (.err .tableOutOfBounds)
  if integLen ≠ 0 then do
    let stop ← okOr (Word.narrow 64 (integOff.toNat + integLen.toNat)) (.err .tableOutOfBounds)
    refuseIf (bytes.length < stop) (.err .tableOutOfBounds)
  else pure ()
  let pex : Pex := ⟨bytes, entry, segOff.toNat, segCount.toNat, manOff.toNat, manCount.toNat⟩
  let entryOk ← foldRange (checkSegment pex) segCount.toNat false
  refuseIf (¬ entryOk) (.err .entryNotExecutable)
  forRange (fun i => do let _ ← pex.manifestRaw i) manCount.toNat
  pure pex

end Praesidium
