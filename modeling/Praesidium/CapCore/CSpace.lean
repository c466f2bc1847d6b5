import Praesidium.CapCore.Cap
import Praesidium.Lib.Fallible

/-!
The capability space: one table of `N` slots, each with its capability and its
parent in the derivation tree, and the operations on it
(`cap-core/src/cspace.rs`).

An operation is an `Op N`: it returns a value, refuses with `Fault.err`, or traps
(`oob`: the table indexed out of bounds, `overflow`: checked arithmetic that does
not fit).  The state is threaded through all of these, so a refusal that left a
half-done write behind would show.  `diverge` is the fuel of the one `while` loop
running out.

The object-zeroing hook has no result the code reads; `zeroed` records its calls
in order.  A parent link is `none` for `NIL`, which no slot index can equal.
-/

namespace Praesidium

open Fallible

/-! ## State -/

/-- A parent link, to a slot index (a `Cptr`); `NIL` marks a derivation root. -/
abbrev SlotIdx := Option Nat

def NIL : SlotIdx := none

inductive CapError where
  | outOfBounds
  | emptySlot
  | wrongType
  | slotOccupied
  | insufficientRights
  | outOfBudget
  deriving DecidableEq, Repr

/-- The ways an operation ends without returning a value. -/
inductive Fault where
  | err (e : CapError)
  | oob
  | overflow
  | diverge
  deriving DecidableEq, Repr

structure Cte where
  cap : RawCap
  parent : SlotIdx
  deriving DecidableEq, Repr

def Cte.EMPTY : Cte := ⟨RawCap.NULL, NIL⟩

structure CSpace (N : Nat) where
  slots : Vector Cte N
  nextObj : U64
  zeroed : List (U64 × U32)
  deriving DecidableEq

abbrev Op (N : Nat) (α : Type) := EStateM Fault (CSpace N) α

namespace CSpace

variable {N : Nat}

def new : CSpace N := ⟨Vector.replicate N .EMPTY, 1, []⟩

/-- The table as a function; past the end it is empty. -/
def slot (cs : CSpace N) (d : Nat) : Cte := cs.slots[d]?.getD .EMPTY

def put (cs : CSpace N) (d : Nat) (e : Cte) : CSpace N :=
  { cs with slots := cs.slots.setIfInBounds d e }

/-! ## Table access -/

/-- `self.slots[d]` -/
def readSlot (d : Nat) : Op N Cte := do
  let cs ← get
  okOr cs.slots[d]? .oob

/-- `self.slots[d] = e` -/
def writeSlot (d : Nat) (e : Cte) : Op N Unit := do
  refuseIf (N ≤ d) .oob
  modify (·.put d e)

/-- `(self.zero)(frame, frames)` -/
def zero (frame : U64) (frames : U32) : Op N Unit :=
  modify fun cs => { cs with zeroed := cs.zeroed ++ [(frame, frames)] }

/-- `self.next_obj += 1`, handing back the id it had -/
def takeObj : Op N U64 := do
  let cs ← get
  let next ← okOr (Word.checkedAdd cs.nextObj 1) .overflow
  modify ({ · with nextObj := next })
  pure cs.nextObj

def live (c : Nat) : Op N RawCap := do
  refuseIf (N ≤ c) (.err .outOfBounds)
  let e ← readSlot c
  refuseIf e.cap.isNull (.err .emptySlot)
  pure e.cap

def cteRef (c : Nat) : Op N Cte := do
  refuseIf (N ≤ c) (.err .outOfBounds)
  let e ← readSlot c
  refuseIf e.cap.isNull (.err .emptySlot)
  pure e

def place (dest : Nat) (cap : RawCap) (parent : SlotIdx) : Op N Unit := do
  refuseIf (N ≤ dest) (.err .outOfBounds)
  let e ← readSlot dest
  refuseIf (¬ e.cap.isNull) (.err .slotOccupied)
  writeSlot dest ⟨cap, parent⟩

/-! ## Primordial capabilities

The boot path writes its slot unconditionally. -/

def setRootUntyped (base : U64) (frames : U32) : Op N Unit :=
  writeSlot 0 ⟨⟨.untyped, Rights.RETYPE, base, frames, 0, 0, 0⟩, NIL⟩

def setRootSched (slot : Nat) (budget period : U32) : Op N Unit := do
  let objref ← takeObj
  writeSlot slot ⟨⟨.sched, Rights.DERIVE ||| Rights.GRANT, objref, budget, 0, period, 0⟩, NIL⟩

def setRootDomain (slot : Nat) (domainId : U64) : Op N Unit :=
  writeSlot slot ⟨⟨.domain, Rights.ENTER, domainId, 0, 0, 0, 0⟩, NIL⟩

def installNotification (slot : Nat) (notifId : U64) (rights : Rights) : Op N Unit :=
  writeSlot slot ⟨⟨.notification, rights, notifId, 0, 0, 0, 0⟩, NIL⟩

def installSharedRo (slot : Nat) (basePfn : U64) (frames : U32) (va : U64) : Op N Unit :=
  writeSlot slot ⟨⟨.sharedRo, Rights.READ, basePfn, frames, 0, (va >>> 12).setWidth 32, 0⟩, NIL⟩

def installFrame (slot : Nat) (basePfn : U64) (frames : U32) (rights : Rights) : Op N Unit :=
  writeSlot slot ⟨⟨.frame, rights, basePfn, frames, 0, 0, 0⟩, NIL⟩

/-! ## Resolution -/

def resolve (c : Nat) : Op N RawCap := live c

/-- The typed handle of `get::<T>`: the record, once its type is `T`'s. -/
def get (t : CapType) (c : Nat) : Op N RawCap := do
  let raw ← live c
  refuseIf (raw.capType ≠ t) (.err .wrongType)
  pure raw

def sharedRoRegion (cptr : Nat) : Op N U64 := do
  let s ← live cptr
  refuseIf (s.capType ≠ .sharedRo) (.err .wrongType)
  refuseIf (¬ s.rights.contains Rights.READ) (.err .insufficientRights)
  pure (s.aux.setWidth 64 <<< 12)

def enterDomain (cptr : Nat) : Op N U64 := do
  let d ← live cptr
  refuseIf (d.capType ≠ .domain) (.err .wrongType)
  refuseIf (¬ d.rights.contains Rights.ENTER) (.err .insufficientRights)
  pure d.objref

/-! ## Derivation -/

/-- Object types RETYPE can produce. -/
def isRetypeable (t : CapType) : Bool :=
  t ∉ [CapType.null, .untyped, .reply, .irqControl, .sched, .domain, .sharedRo]

/-- Rights a freshly retyped object gets. -/
def defaultRights : CapType → Rights
  | .untyped => Rights.RETYPE
  | .frame => Rights.READ ||| Rights.WRITE ||| Rights.MAP ||| Rights.GRANT ||| Rights.DERIVE
  | .cnode => Rights.DERIVE ||| Rights.GRANT
  | .endpoint => Rights.SEND ||| Rights.RECV ||| Rights.GRANT ||| Rights.DERIVE
  | .notification => Rights.SIGNAL ||| Rights.RECV ||| Rights.DERIVE
  | _ => Rights.DERIVE

/-- `usize::checked_add` on the 64-bit targets -/
def checkedAddUsize (a b : Nat) : Option Nat := if a + b < 2 ^ 64 then some (a + b) else none

/-- The destination check of `retype`: slots `dest..dest+n` hold nothing. -/
def slotsFree (dest n : Nat) : Op N Unit :=
  forRange (fun i => do
    let e ← readSlot (dest + i)
    refuseIf (¬ e.cap.isNull) (.err .slotOccupied)) n

/-- The record of the object `retype` carves at frame `objref`. -/
def retyped (newType : CapType) (objref : U64) (framesPerObj : U32) : RawCap :=
  ⟨newType, defaultRights newType, objref, framesPerObj, 0, 0, 0⟩

/-- The commit loop of `retype`: each object is zeroed before its capability exists. -/
def carve (hook : U64 → U32 → Op N Unit) (ut : Nat) (newType : CapType) (base : U64)
    (framesPerObj : U32) (dest n : Nat) : Op N Unit :=
  forRange (fun i => do
    let offset ← okOr (Word.checkedMul (BitVec.ofNat 32 i) framesPerObj) .overflow
    let objref ← okOr (Word.checkedAdd base (offset.setWidth 64)) .overflow
    hook objref framesPerObj
    writeSlot (dest + i) ⟨retyped newType objref framesPerObj, some ut⟩) n

/-- `retype` up to its commit loop: the checks, then the charge.  It hands back the frame
number of the first object. -/
def takeFrames (ut : Nat) (newType : CapType) (framesPerObj count : U32) (destStart : Nat) :
    Op N U64 := do
  let u ← live ut
  refuseIf (u.capType ≠ .untyped) (.err .wrongType)
  refuseIf (¬ u.rights.contains Rights.RETYPE) (.err .insufficientRights)
  refuseIf (¬ isRetypeable newType) (.err .wrongType)
  refuseIf (framesPerObj = 0 ∨ count = 0) (.err .outOfBudget)
  let need ← okOr (Word.checkedMul framesPerObj count) (.err .outOfBudget)
  let left ← okOr (Word.checkedSub u.size u.watermark) .overflow
  refuseIf (left.toNat < need.toNat) (.err .outOfBudget)
  let stop ← okOr (checkedAddUsize destStart count.toNat) (.err .outOfBounds)
  refuseIf (N < stop) (.err .outOfBounds)
  slotsFree destStart count.toNat
  -- all checks passed: commit
  let base ← okOr (Word.checkedAdd u.objref (u.watermark.setWidth 64)) .overflow
  let ue ← readSlot ut
  let watermark ← okOr (Word.checkedAdd ue.cap.watermark need) .overflow
  writeSlot ut { ue with cap := { ue.cap with watermark } }
  pure base

/-- `retype` in a space made with the hook `hook`. -/
def retypeWith (hook : U64 → U32 → Op N Unit) (ut : Nat) (newType : CapType)
    (framesPerObj count : U32) (destStart : Nat) : Op N Unit := do
  let base ← takeFrames ut newType framesPerObj count destStart
  carve hook ut newType base framesPerObj destStart count.toNat

def retype (ut : Nat) (newType : CapType) (framesPerObj count : U32) (destStart : Nat) :
    Op N Unit := retypeWith zero ut newType framesPerObj count destStart

def mint (src dest : Nat) (newRights : Rights) (badge : U64) : Op N Unit := do
  let s ← live src
  refuseIf (s.capType ∈ [CapType.untyped, .sched, .reply, .domain, .sharedRo])
    (.err .insufficientRights)
  refuseIf (¬ s.rights.contains Rights.DERIVE) (.err .insufficientRights)
  refuseIf (¬ newRights.subsetOf s.rights) (.err .insufficientRights)
  place dest { s with rights := newRights, badge } (some src)

/-- A copy is a sibling; a copy of a root is a child, so that a revoke can reach it. -/
def copy (src dest : Nat) : Op N Unit := do
  let s ← live src
  refuseIf (s.capType ∈ [CapType.untyped, .sched, .reply, .domain, .sharedRo])
    (.err .insufficientRights)
  refuseIf (¬ s.rights.contains Rights.DERIVE) (.err .insufficientRights)
  let e ← readSlot src
  place dest s (if e.parent = NIL then some src else e.parent)

/-- The loop of `moveCap`: the children of `src` become children of `dest`. -/
def reparent (src dest : Nat) : Op N Unit :=
  forRange (fun k => do
    let e ← readSlot k
    if e.parent = some src then writeSlot k { e with parent := some dest } else pure ()) N

def moveCap (src dest : Nat) : Op N Unit := do
  let e ← cteRef src
  if dest = src then pure ()
  else do
    refuseIf (N ≤ dest) (.err .outOfBounds)
    let d ← readSlot dest
    refuseIf (¬ d.cap.isNull) (.err .slotOccupied)
    reparent src dest
    writeSlot dest e
    writeSlot src .EMPTY

/-! ## CPU-time derivation -/

/-- `budget.write_into(&mut self.slots[c].cap)` -/
def writeBudget (c : Nat) (b : Budget) : Op N Unit := do
  let e ← readSlot c
  writeSlot c { e with cap := b.writeInto e.cap }

def split (src dest : Nat) (amount : U32) : Op N Unit := do
  let s ← live src
  refuseIf (s.capType ≠ .sched) (.err .wrongType)
  refuseIf (¬ s.rights.contains Rights.DERIVE) (.err .insufficientRights)
  let (child, parent) ← okOr ((Budget.fromCap s).split amount) (.err .outOfBudget)
  let cs ← MonadState.get
  place dest ⟨.sched, s.rights, cs.nextObj, child.capacity, child.consumed, child.period,
    0⟩ (some src)
  writeBudget src parent
  let _ ← takeObj

def delegate (src dest : Nat) (amount : U32) : Op N Unit :=
  if src = dest then pure ()
  else do
    let s ← live src
    let d ← live dest
    refuseIf (s.capType ≠ .sched ∨ d.capType ≠ .sched) (.err .wrongType)
    refuseIf (¬ s.rights.contains Rights.DERIVE) (.err .insufficientRights)
    let (srcB, dstB) ← okOr ((Budget.fromCap s).delegate (Budget.fromCap d) amount)
      (.err .outOfBudget)
    writeBudget src srcB
    writeBudget dest dstB

/-! ## Destruction -/

def hasChildren (cs : CSpace N) (d : Nat) : Bool :=
  (List.range N).any fun k => !(cs.slot k).cap.isNull && (cs.slot k).parent == some d

/-- The exits of the loop in `is_descendant`: past a root, at the ancestor, or at the
cycle guard. -/
inductive Exit where
  | root
  | found
  | cycleGuard
  deriving DecidableEq, Repr

/-- `fuel` rounds of the loop in `is_descendant`. -/
def ascend (ancestor : Nat) : Nat → Nat → Op N Exit
  | 0, _ => pure .cycleGuard
  | fuel + 1, d => do
    let e ← readSlot d
    match e.parent with
    | none => pure .root
    | some p => if p = ancestor then pure .found else ascend ancestor fuel p

def isDescendant (start ancestor : Nat) : Op N Bool := do
  let exit ← ascend ancestor (N + 1) start
  pure (exit = .found)

/-- Another slot still names the object of `cap`. -/
def another (cs : CSpace N) (cap : RawCap) : Bool :=
  (List.range N).any fun k =>
    !(cs.slot k).cap.isNull && (cs.slot k).cap.capType == cap.capType && (cs.slot k).cap.objref ==
    cap.objref

/-- The `Sched` part of `destroy_slot`: the budget goes back to a `Sched` parent. -/
def credit (cap : RawCap) (parent : SlotIdx) : Op N Unit :=
  match parent with
  | none => pure ()
  | some p =>
    if cap.capType = .sched then do
      let e ← readSlot p
      if e.cap.capType = .sched then
        writeSlot p { e with cap := { e.cap with size := Word.saturatingAdd e.cap.size cap.size } }
      else pure ()
    else pure ()

/-- The zeroing part of `destroy_slot`: the object of the last capability is zeroed. -/
def zeroLast (cap : RawCap) : Op N Unit := do
  let cs ← MonadState.get
  if !cs.another cap && cap.capType ∉ [CapType.untyped, .sched, .reply, .domain, .sharedRo] then
    zero cap.objref cap.size
  else pure ()

def destroySlot (d : Nat) : Op N Unit := do
  let e ← readSlot d
  if e.cap.isNull then pure ()
  else do
    writeSlot d .EMPTY
    credit e.cap e.parent
    zeroLast e.cap

/-- The slot the loop of `revoke` destroys next: a live childless descendant of `c`. -/
def victim (c : Nat) : Op N (Option Nat) :=
  findRange (fun d => do
    let cs ← MonadState.get
    if d = c ∨ (cs.slot d).cap.isNull then pure false
    else if ← isDescendant d c then pure !cs.hasChildren d
    else pure false) N

def revokeLoop (c : Nat) : Nat → Op N Unit
  | 0 => throw .diverge
  | fuel + 1 => do
    match ← victim c with
    | none => pure ()
    | some d => do
      destroySlot d
      revokeLoop c fuel

/-- Each round of the loop empties a live slot, so `N + 1` rounds are enough
(`revokeLoop_spec`). -/
def revoke (c : Nat) : Op N Unit := do
  let _ ← live c
  revokeLoop c (N + 1)
  let e ← readSlot c
  if e.cap.capType = .untyped then writeSlot c { e with cap := { e.cap with watermark := 0 } }
  else pure ()

def delete (c : Nat) : Op N Unit := do
  revoke c
  destroySlot c

/-! ## Reply capabilities -/

def mintReply (dest : Nat) (caller badge : U64) : Op N Unit :=
  place dest ⟨.reply, Rights.empty, caller, 0, 0, 0, badge⟩ NIL

def consumeReply (dest : Nat) : Op N U64 := do
  let r ← live dest
  refuseIf (r.capType ≠ .reply) (.err .wrongType)
  destroySlot dest
  pure r.objref

end CSpace

/-! ## Grants between two capability spaces -/

inductive GrantMode where
  | move
  | mint
  deriving DecidableEq, Repr

/-- Run on the first, or the second, of two spaces. -/
def onSrc {N M : Nat} {α : Type} (m : Op N α) : EStateM Fault (CSpace N × CSpace M) α := fun s =>
  match m s.1 with
  | .ok a t => .ok a (t, s.2)
  | .error e t => .error e (t, s.2)

@[inherit_doc onSrc]
def onDst {N M : Nat} {α : Type} (m : Op M α) : EStateM Fault (CSpace N × CSpace M) α := fun s =>
  match m s.2 with
  | .ok a t => .ok a (s.1, t)
  | .error e t => .error e (s.1, t)

/-- The destination is validated and filled first; only then is a moved source vacated,
without zeroing. -/
def grant {N M : Nat} (srcSlot dstSlot : Nat) (newRights : Rights) (badge : U64)
    (mode : GrantMode) : EStateM Fault (CSpace N × CSpace M) Unit := do
  let s ← onSrc (CSpace.live srcSlot)
  refuseIf (s.capType ∈ [CapType.reply, .sharedRo]) (.err .insufficientRights)
  refuseIf (mode = .mint ∧ s.capType ∈ [CapType.untyped, .sched, .domain])
    (.err .insufficientRights)
  refuseIf (¬ s.rights.contains Rights.GRANT) (.err .insufficientRights)
  refuseIf (¬ newRights.subsetOf s.rights) (.err .insufficientRights)
  let cs ← MonadState.get
  refuseIf (mode = .move ∧ cs.1.hasChildren srcSlot) (.err .insufficientRights)
  onDst (CSpace.place dstSlot { s with rights := newRights, badge } NIL)
  if mode = .move then onSrc (CSpace.writeSlot srcSlot .EMPTY) else pure ()

end Praesidium
