import Praesidium.Abi.Pex

/-!
The `.pex` encoder (`abi/src/encode.rs`).

`encode` writes into a caller's buffer, which is the state of an `Encode` program.  It
returns the number of bytes written, gives up (`Halt.none`, the source's `None`), or
panics on a range outside the buffer.  The sums of offsets are plain numbers: one that
does not fit a `usize` is past the end of every buffer.
-/

namespace Praesidium

open Fallible Bytes

structure SegmentSpec where
  vaddr : BitVec 64
  memSize : BitVec 64
  perm : U8
  data : List U8
  deriving DecidableEq, Repr

structure ManifestSpec where
  capType : U8
  destSlot : U16
  rights : BitVec 32
  param0 : BitVec 64
  param1 : BitVec 64
  deriving DecidableEq, Repr

def encodedLen (segs : List SegmentSpec) (man : List ManifestSpec) : Option Nat :=
  if MAX_SEGMENTS < segs.length ∨ MAX_MANIFEST < man.length then none
  else do
    let table ← Word.narrow 64 (segs.length * SEGMENT_LEN)
    let len ← Word.narrow 64 (HEADER_LEN + table)
    let table ← Word.narrow 64 (man.length * MANIFEST_LEN)
    let len ← Word.narrow 64 (len + table)
    segs.foldlM (fun len s => Word.narrow 64 (len + s.data.length)) len

inductive Halt where
  | none
  | panic
  deriving DecidableEq, Repr

abbrev Encode (α : Type) := EStateM Halt (List U8) α

/-- `out[off..off + xs.len()].copy_from_slice(xs)` -/
def store (off : Nat) (xs : List U8) : Encode Unit := do
  let b ← get
  refuseIf (b.length < off + xs.length) .panic
  set (patch b off xs)

def wrU16 (off : Nat) (v : U16) : Encode Unit := store off (wordBytes v)

def wrU32 (off : Nat) (v : BitVec 32) : Encode Unit := store off (wordBytes v)

def wrU64 (off : Nat) (v : BitVec 64) : Encode Unit := store off (wordBytes v)

/-- `u32::try_from(n).ok()?` -/
def tryU32 (n : Nat) : Encode (BitVec 32) := okOr (Word.tryFrom 32 n) .none

/-- One round of the segment loop, with the record at `slot`; its value is the data cursor after
it. -/
def writeSegment (slot cursor : Nat) (s : SegmentSpec) : Encode Nat := do
  let fileSize ← tryU32 s.data.length
  wrU32 slot (← tryU32 cursor)
  wrU32 (slot + 4) fileSize
  wrU64 (slot + 8) s.vaddr
  wrU64 (slot + 16) s.memSize
  store (slot + 24) [s.perm]
  store cursor s.data
  pure (cursor + s.data.length)

def writeSegments (segOff : Nat) : List SegmentSpec → Nat → Nat → Encode Nat
  | [], _, cursor => pure cursor
  | s :: segs, i, cursor => do
    let cursor ← writeSegment (segOff + i * SEGMENT_LEN) cursor s
    writeSegments segOff segs (i + 1) cursor

def writeManifestEntry (slot : Nat) (m : ManifestSpec) : Encode Unit := do
  store slot [m.capType]
  wrU16 (slot + 2) m.destSlot
  wrU32 (slot + 4) m.rights
  wrU64 (slot + 8) m.param0
  wrU64 (slot + 16) m.param1

def writeManifest (manOff : Nat) : List ManifestSpec → Nat → Encode Unit
  | [], _ => pure ()
  | m :: man, i => do
    writeManifestEntry (manOff + i * MANIFEST_LEN) m
    writeManifest manOff man (i + 1)

def writeHeader (arch : U16) (entry : BitVec 64) (total segOff segCount manOff manCount : Nat) :
    Encode Unit := do
  wrU32 0 PEX_MAGIC
  wrU16 4 PEX_VERSION
  wrU16 6 arch
  wrU64 8 entry
  wrU32 16 (BitVec.ofNat 32 total)
  wrU32 20 (← tryU32 segOff)
  wrU16 24 (BitVec.ofNat 16 segCount)
  wrU16 26 (BitVec.ofNat 16 manCount)
  wrU32 28 (← tryU32 manOff)

/-- `let out = &mut out[..n]` for the rest of a body -/
def onPrefix {α : Type} (n : Nat) (m : Encode α) : Encode α :=
  zoom (·.take n) (fun t b => t ++ b.drop n) id m

def encode (arch : U16) (entry : BitVec 64) (segs : List SegmentSpec) (man : List ManifestSpec) :
    Encode Nat := do
  let total ← okOr (encodedLen segs man) .none
  let out ← get
  refuseIf (out.length < total ∨ Word.tryFrom 32 total = none) .none
  onPrefix total do
    modify fun b => List.replicate b.length 0
    let segOff := HEADER_LEN
    let manOff := segOff + segs.length * SEGMENT_LEN
    let cursor := manOff + man.length * MANIFEST_LEN
    writeHeader arch entry total segOff segs.length manOff man.length
    let _ ← writeSegments segOff segs 0 cursor
    writeManifest manOff man 0
    pure total

end Praesidium
