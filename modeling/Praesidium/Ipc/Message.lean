import Praesidium.CapCore.CSpace

/-!
Messages and their one-word descriptor (`ipc/src/message.rs`).

A caller packs the counts and the label of a message into one word, and `decode` reads the word
back.  Every word is either refused for a count that is too large or the encoding, in its low 48
bits, of the descriptor it stands for:

    decode w = .ok mi ↔ mi.Valid ∧ mi.encode = w &&& 0xFFFF_FFFF_FFFF      (decode_eq_ok)
-/

namespace Praesidium

namespace Message

def MSG_REGS : Nat := 4
def MAX_CAPS : Nat := 2

end Message

inductive MsgError where
  | tooManyRegs
  | tooManyCaps
  deriving DecidableEq, Repr

structure MessageInfo where
  label : U32
  nRegs : BitVec 8
  nCaps : BitVec 8
  deriving DecidableEq, Repr

namespace MessageInfo

def new (label : U32) (nRegs nCaps : BitVec 8) : Except MsgError MessageInfo :=
  if Message.MSG_REGS < nRegs.toNat then .error .tooManyRegs
  else if Message.MAX_CAPS < nCaps.toNat then .error .tooManyCaps
  else .ok ⟨label, nRegs, nCaps⟩

def encode (mi : MessageInfo) : U64 :=
  (mi.label.setWidth 64 <<< 16) ||| (mi.nCaps.setWidth 64 <<< 8) ||| mi.nRegs.setWidth 64

def decode (word : U64) : Except MsgError MessageInfo :=
  let nRegs := (word &&& 0xFF).setWidth 8
  let nCaps := ((word >>> 8) &&& 0xFF).setWidth 8
  let label := ((word >>> 16) &&& 0xFFFFFFFF).setWidth 32
  new label nRegs nCaps

/-- The counts are within the limits. -/
def Valid (mi : MessageInfo) : Prop :=
  mi.nRegs.toNat ≤ Message.MSG_REGS ∧ mi.nCaps.toNat ≤ Message.MAX_CAPS

end MessageInfo

structure CapXfer where
  src : Nat
  rights : Rights
  mode : GrantMode
  deriving DecidableEq, Repr

def CapXfer.NONE : CapXfer := ⟨0, Rights.empty, .move⟩

structure Message where
  info : MessageInfo
  regs : Vector U64 Message.MSG_REGS
  caps : Vector CapXfer Message.MAX_CAPS
  badge : U64
  deriving DecidableEq, Repr

namespace Message

def empty (label : U32) : Message where
  info := (MessageInfo.new label 0 0).toOption.getD ⟨label, 0, 0⟩
  regs := .replicate MSG_REGS 0
  caps := .replicate MAX_CAPS .NONE
  badge := 0

/-- The words past `MSG_REGS` are dropped, the registers past the words are 0. -/
def withData (label : U32) (words : List U64) : Message where
  info := ⟨label, BitVec.ofNat 8 (min words.length MSG_REGS), 0⟩
  regs := .ofFn fun i => words[i.val]?.getD 0
  caps := .replicate MAX_CAPS .NONE
  badge := 0

def data (m : Message) : List U64 := m.regs.toList.take (min m.info.nRegs.toNat MSG_REGS)

def transfers (m : Message) : List CapXfer := m.caps.toList.take (min m.info.nCaps.toNat MAX_CAPS)

end Message

namespace MessageInfo

variable {label : U32} {nRegs nCaps : BitVec 8} {mi : MessageInfo}

theorem new_eq_ok : new label nRegs nCaps = .ok mi ↔ mi.Valid ∧ mi = ⟨label, nRegs, nCaps⟩ := by
  unfold new Valid
  constructor
  · intro h
    split at h
    · cases h
    · split at h
      · cases h
      · cases h
        exact ⟨⟨Nat.le_of_not_lt ‹_›, Nat.le_of_not_lt ‹_›⟩, rfl⟩
  · rintro ⟨⟨hr, hc⟩, rfl⟩
    dsimp only at hr hc
    rw [if_neg (by omega), if_neg (by omega)]

theorem new_eq_error {e : MsgError} :
    new label nRegs nCaps = .error e ↔
      (e = .tooManyRegs ∧ Message.MSG_REGS < nRegs.toNat) ∨
      (e = .tooManyCaps ∧ nRegs.toNat ≤ Message.MSG_REGS ∧ Message.MAX_CAPS < nCaps.toNat) := by
  unfold new
  split
  · next hr => simp [hr, Nat.not_le_of_lt hr, eq_comm]
  · next hr =>
    split
    · next hc => simp [hr, hc, Nat.le_of_not_lt hr, eq_comm]
    · next hc => simp [hr, hc]

/-- The descriptor in the low 48 bits of a word. -/
def fields (word : U64) : MessageInfo where
  label := ((word >>> 16) &&& 0xFFFFFFFF).setWidth 32
  nRegs := (word &&& 0xFF).setWidth 8
  nCaps := ((word >>> 8) &&& 0xFF).setWidth 8

theorem encode_toNat (mi : MessageInfo) :
    mi.encode.toNat = mi.label.toNat * 65536 + mi.nCaps.toNat * 256 + mi.nRegs.toNat := by
  have hl := mi.label.isLt
  have hc := mi.nCaps.isLt
  have hr := mi.nRegs.isLt
  have label : (mi.label.setWidth 64 <<< 16).toNat = mi.label.toNat <<< 16 := by
    rw [BitVec.toNat_shiftLeft, BitVec.toNat_setWidth, Nat.shiftLeft_eq, Nat.shiftLeft_eq]
    omega
  have caps : (mi.nCaps.setWidth 64 <<< 8).toNat = mi.nCaps.toNat <<< 8 := by
    rw [BitVec.toNat_shiftLeft, BitVec.toNat_setWidth, Nat.shiftLeft_eq, Nat.shiftLeft_eq]
    omega
  have regs : (mi.nRegs.setWidth 64).toNat = mi.nRegs.toNat := by
    rw [BitVec.toNat_setWidth]
    omega
  -- the three fields do not overlap
  have upper : mi.label.toNat <<< 16 ||| mi.nCaps.toNat <<< 8 =
    (mi.label.toNat * 256 + mi.nCaps.toNat) <<< 8 := by
    rw [← Nat.shiftLeft_add_eq_or_of_lt (show mi.nCaps.toNat <<< 8 <
      2 ^ 16 by rw [Nat.shiftLeft_eq]; omega), Nat.shiftLeft_eq, Nat.shiftLeft_eq, Nat.shiftLeft_eq]
    omega
  unfold encode
  rw [BitVec.toNat_or, BitVec.toNat_or, label, caps, regs, upper,
    ← Nat.shiftLeft_add_eq_or_of_lt hr, Nat.shiftLeft_eq]
  omega

/-- A field of `n` bits from bit `k` on. -/
theorem field_toNat (word : U64) (k n : Nat) {mask : U64} (hmask : mask.toNat = 2 ^ n - 1) :
    (((word >>> k) &&& mask).setWidth n).toNat = word.toNat / 2 ^ k % 2 ^ n := by
  rw [BitVec.toNat_setWidth, BitVec.toNat_and, BitVec.toNat_ushiftRight,
    Nat.shiftRight_eq_div_pow, hmask, Nat.and_two_pow_sub_one_eq_mod, Nat.mod_mod]

theorem fields_nRegs (word : U64) : (fields word).nRegs.toNat = word.toNat % 256 := by
  have := field_toNat word 0 8 (show (0xFF : U64).toNat = 2 ^ 8 - 1 from rfl)
  rw [BitVec.ushiftRight_zero, Nat.pow_zero, Nat.div_one] at this
  exact this

theorem fields_nCaps (word : U64) : (fields word).nCaps.toNat = word.toNat / 256 % 256 :=
  field_toNat word 8 8 rfl

theorem fields_label (word : U64) : (fields word).label.toNat = word.toNat / 65536 % 4294967296 :=
  field_toNat word 16 32 rfl

theorem encode_fields (word : U64) : (fields word).encode = word &&& 0xFFFFFFFFFFFF := by
  apply BitVec.eq_of_toNat_eq
  rw [encode_toNat, fields_nRegs, fields_nCaps, fields_label, BitVec.toNat_and,
    show (0xFFFFFFFFFFFF : U64).toNat = 2 ^ 48 - 1 from rfl, Nat.and_two_pow_sub_one_eq_mod]
  omega

theorem fields_encode (mi : MessageInfo) : fields mi.encode = mi := by
  have hl := mi.label.isLt
  have hc := mi.nCaps.isLt
  have hr := mi.nRegs.isLt
  have word := encode_toNat mi
  have label : (fields mi.encode).label = mi.label := by
    apply BitVec.eq_of_toNat_eq
    rw [fields_label]
    omega
  have regs : (fields mi.encode).nRegs = mi.nRegs := by
    apply BitVec.eq_of_toNat_eq
    rw [fields_nRegs]
    omega
  have caps : (fields mi.encode).nCaps = mi.nCaps := by
    apply BitVec.eq_of_toNat_eq
    rw [fields_nCaps]
    omega
  show MessageInfo.mk (fields mi.encode).label (fields mi.encode).nRegs (fields mi.encode).nCaps =
    mi
  rw [label, regs, caps]

/-- The high 16 bits are not read. -/
theorem fields_mask (word : U64) : fields (word &&& 0xFFFFFFFFFFFF) = fields word := by
  rw [← encode_fields, fields_encode]

theorem decode_eq_ok {word : U64} :
    decode word = .ok mi ↔ mi.Valid ∧ mi.encode = word &&& 0xFFFFFFFFFFFF := by
  show new (fields word).label (fields word).nRegs (fields word).nCaps = .ok mi ↔ _
  rw [new_eq_ok]
  constructor
  · rintro ⟨hv, rfl⟩
    exact ⟨hv, encode_fields word⟩
  · rintro ⟨hv, he⟩
    refine ⟨hv, ?_⟩
    rw [← fields_encode mi, he, fields_mask]

/-- **What the descriptor parser accepts.**  Every word is read as the descriptor whose encoding are
its low 48 bits, unless the register count, or else the transfer count, is over its limit; and a
message with an accepted descriptor has exactly as many words and transfers as it says. -/
theorem descriptor_exact (word : U64) :
    (∀ mi, decode word = .ok mi ↔ mi.Valid ∧ mi.encode = word &&& 0xFFFFFFFFFFFF) ∧
    (∀ e, decode word = .error e ↔
      (e = .tooManyRegs ∧ 4 < word.toNat % 256) ∨
      (e = .tooManyCaps ∧ word.toNat % 256 ≤ 4 ∧ 2 < word.toNat / 256 % 256)) ∧
    ∀ m : Message, decode word = .ok m.info →
      m.data.length = m.info.nRegs.toNat ∧ m.transfers.length = m.info.nCaps.toNat := by
  refine ⟨fun mi => decode_eq_ok, fun e => ?_, fun m hm => ?_⟩
  · rw [← fields_nRegs, ← fields_nCaps]
    exact new_eq_error
  · obtain ⟨⟨hr, hc⟩, _⟩ := decode_eq_ok.mp hm
    unfold Message.data Message.transfers
    rw [List.length_take, List.length_take, Vector.length_toList, Vector.length_toList]
    omega

end MessageInfo

end Praesidium
