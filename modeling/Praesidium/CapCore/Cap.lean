import Praesidium.Lib.Word

/-!
Capability records: object types, rights, the type-erased record of a slot, and
the CPU-time allotment a `Sched` record carries
(`cap-core/src/cap.rs`, `cap-core/src/rights.rs`, `cap-core/src/sched.rs`).

Words are bit vectors of the source's own width.  `Rights` is the bit set itself;
`subsetOf` is read bit by bit (`subsetOf_iff`).  A budget only ever moves:

    b.split a = some (child, b') → b'.capacity + child.capacity = b.capacity     (Budget.split_spec)
    s.delegate d a = some (s', d') → s'.capacity + d'.capacity = s.capacity + d.capacity
        (Budget.delegate_spec)
-/

namespace Praesidium

abbrev U32 := BitVec 32
abbrev U64 := BitVec 64

/-! ## Rights -/

abbrev Rights := BitVec 32

namespace Rights

def READ : Rights := 1#32 <<< 0
def WRITE : Rights := 1#32 <<< 1
def EXECUTE : Rights := 1#32 <<< 2
def MAP : Rights := 1#32 <<< 3
def GRANT : Rights := 1#32 <<< 4
def RETYPE : Rights := 1#32 <<< 5
def SEND : Rights := 1#32 <<< 6
def RECV : Rights := 1#32 <<< 7
def SIGNAL : Rights := 1#32 <<< 8
def DERIVE : Rights := 1#32 <<< 9
def ENTER : Rights := 1#32 <<< 10
def WAIT : Rights := 1#32 <<< 11

def empty : Rights := 0#32

/-- Every right there is. -/
def ALL : Rights :=
  READ ||| WRITE ||| EXECUTE ||| MAP ||| GRANT ||| RETYPE ||| SEND ||| RECV ||| SIGNAL |||
    DERIVE ||| ENTER ||| WAIT

/-- The rights of a bit pattern, unless it has a bit that is no right. -/
def fromBits (bits : BitVec 32) : Option Rights := if bits &&& ALL = bits then some bits else none

/-- Every bit of `other` is set in `self`. -/
def contains (self other : Rights) : Bool := self &&& other == other

/-- `self` is no wider than `parent`. -/
def subsetOf (self parent : Rights) : Bool := contains parent self

theorem fromBits_eq_some {b : BitVec 32} {r : Rights} (h : fromBits b = some r) : r = b := by
  unfold fromBits at h
  split at h
  · exact (Option.some.inj h).symm
  · cases h

/-- The rights in `r`, one for each bit that is set. -/
def bits (r : Rights) : Nat → Prop := fun k => r.getLsbD k = true

theorem subsetOf_iff (a b : Rights) : subsetOf a b = true ↔ ∀ k, bits a k → bits b k := by
  unfold subsetOf contains bits
  rw [beq_iff_eq]
  constructor
  · intro h k hk
    rw [← h, BitVec.getLsbD_and, Bool.and_eq_true] at hk
    exact hk.1
  · intro h
    apply BitVec.eq_of_getLsbD_eq
    intro k _
    rw [BitVec.getLsbD_and]
    cases ha : a.getLsbD k with
    | false => rw [Bool.and_false]
    | true => rw [h k ha]; rfl

theorem subsetOf_refl (a : Rights) : subsetOf a a = true :=
  (subsetOf_iff a a).mpr fun _ h => h

theorem subsetOf_trans {a b c : Rights} (hab : subsetOf a b = true) (hbc : subsetOf b c = true) :
    subsetOf a c = true :=
  (subsetOf_iff a c).mpr fun k h => (subsetOf_iff b c).mp hbc k ((subsetOf_iff a b).mp hab k h)

end Rights

/-! ## Capability records -/

/-- The object class a capability names; `null` marks an empty slot. -/
inductive CapType where
  | null
  | untyped
  | frame
  | cnode
  | endpoint
  | notification
  | task
  | sched
  | reply
  | addrSpace
  | vspace
  | fnode
  | device
  | irqControl
  | domain
  | sharedRo
  deriving DecidableEq, Repr

/-- The runtime record of a slot.  `size`, `watermark` and `aux` mean frames, frames
consumed and nothing for an `Untyped`, budget, consumed and period for a `Sched`. -/
structure RawCap where
  capType : CapType
  rights : Rights
  objref : U64
  size : U32
  watermark : U32
  aux : U32
  badge : U64
  deriving DecidableEq, Repr

namespace RawCap

def NULL : RawCap where
  capType := .null
  rights := Rights.empty
  objref := 0
  size := 0
  watermark := 0
  aux := 0
  badge := 0

def isNull (c : RawCap) : Bool := c.capType = .null

end RawCap

/-! ## CPU-time budgets -/

/-- `capacity` units of CPU time for each `period`, `consumed` of them used so far. -/
structure Budget where
  capacity : U32
  consumed : U32
  period : U32
  deriving DecidableEq, Repr

namespace Budget

def new (capacity period : U32) : Budget := ⟨capacity, 0, period⟩

def fromCap (cap : RawCap) : Budget := ⟨cap.size, cap.watermark, cap.aux⟩

def writeInto (b : Budget) (cap : RawCap) : RawCap :=
  { cap with size := b.capacity, watermark := b.consumed, aux := b.period }

def isDepleted (b : Budget) : Bool := b.capacity.toNat ≤ b.consumed.toNat

def remaining (b : Budget) : U32 := Word.saturatingSub b.capacity b.consumed

def charge (b : Budget) (n : U32) : Budget := { b with consumed := Word.saturatingAdd b.consumed n }

def replenish (b : Budget) : Budget := { b with consumed := 0 }

/-- The child allotment and what is left of `b`; `none` leaves `b` as it was. -/
def split (b : Budget) (amount : U32) : Option (Budget × Budget) :=
  if amount = 0 ∨ b.remaining.toNat < amount.toNat then none
  else some (⟨amount, 0, b.period⟩, { b with capacity := b.capacity - amount })

/-- `b` and `dst` after the transfer; `none` leaves both as they were.  The credit is
computed, and refused, before the debit. -/
def delegate (b dst : Budget) (amount : U32) : Option (Budget × Budget) :=
  if amount = 0 ∨ b.remaining.toNat < amount.toNat then none
  else
    match Word.checkedAdd dst.capacity amount with
    | none => none
    | some credited =>
      some ({ b with capacity := b.capacity - amount }, { dst with capacity := credited })

theorem remaining_le (b : Budget) : b.remaining.toNat ≤ b.capacity.toNat := by
  rw [remaining, Word.saturatingSub_toNat]; omega

/-- The debit of an admitted amount does not wrap. -/
theorem debit_toNat (b : Budget) (amount : U32) (h : amount.toNat ≤ b.remaining.toNat) :
    (b.capacity - amount).toNat = b.capacity.toNat - amount.toNat :=
  BitVec.toNat_sub_of_le (BitVec.le_def.mpr (Nat.le_trans h b.remaining_le))

theorem split_eq_some {b child b' : Budget} {amount : U32} (h : b.split amount = some (child, b')) :
    0 < amount.toNat ∧ child = ⟨amount, 0, b.period⟩ ∧
      b' = { b with capacity := b.capacity - amount } := by
  unfold split at h
  split at h
  · cases h
  · next hc =>
    cases h
    exact ⟨Nat.pos_of_ne_zero fun h0 => hc (Or.inl (BitVec.eq_of_toNat_eq h0)), rfl, rfl⟩

/-- **Conservation.**  A split moves `amount` from `b` to the child. -/
theorem split_spec (b child b' : Budget) (amount : U32) (h : b.split amount = some (child, b')) :
    child.capacity = amount ∧ b'.capacity.toNat + child.capacity.toNat = b.capacity.toNat := by
  unfold split at h
  split at h
  · cases h
  · next hc =>
    cases h
    have hle : amount.toNat ≤ b.remaining.toNat := by omega
    have := b.remaining_le
    exact ⟨rfl, by dsimp only; rw [debit_toNat b amount hle]; omega⟩

/-- **Conservation.**  A delegation leaves the sum of the two capacities as it was. -/
theorem delegate_spec (b dst b' dst' : Budget) (amount : U32)
    (h : b.delegate dst amount = some (b', dst')) :
    b'.capacity.toNat + dst'.capacity.toNat = b.capacity.toNat + dst.capacity.toNat := by
  unfold delegate at h
  split at h
  · cases h
  · next hc =>
    have hle : amount.toNat ≤ b.remaining.toNat := by omega
    have := b.remaining_le
    cases ha : Word.checkedAdd dst.capacity amount with
    | none => rw [ha] at h; cases h
    | some credited =>
      rw [ha] at h
      cases h
      have hcr := (Word.checkedAdd_eq_some _ _ _).mp ha
      dsimp only
      rw [debit_toNat b amount hle, hcr]
      omega

end Budget

end Praesidium
