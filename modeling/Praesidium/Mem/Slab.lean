import Praesidium.Lib.Bytes
import Praesidium.Lib.Fallible
import Praesidium.Lib.Flags
import Praesidium.Lib.FreeList
import Praesidium.Lib.Word

/-!
The slab cache (`mem/src/slab.rs`), and what its free list holds.

The cache hands out the slots of a region of bytes, and keeps its free list in the first eight
bytes of the free slots.  Offsets and sizes are `usize`s of 64 bits: numbers here, with the sums,
products and differences that could leave 64 bits checked where the code makes them.  An access
outside the region, an overflow and a failed `debug_assert!` are a `Fault`.  Links are in native
byte order, which is little endian on both targets.

`Linked L r free` says that the links in the region run through the slots of `free`.  What the
operations do to it:

    Linked L r (off :: free) → alloc returns off, and leaves Linked L r' free      (alloc_linked)
    Linked L r free → off ∉ free → free off leaves Linked L r' (off :: free)       (thread_linked)
-/

namespace Praesidium

structure SlabCache where
  slotSize : Nat
  capacity : Nat
  freeHead : Nat
  freeCount : Nat
  deriving DecidableEq, Repr

namespace SlabCache

open Fallible Bytes FreeList

def NIL_OFF : Nat := 0xffffffffffffffff

/-- `size_of::<usize>()` -/
def USIZE : Nat := 8

inductive Fault where
  | overflow
  | bounds
  | assertion
  deriving DecidableEq, Repr

/-- The cache with the memory that its callers pass in. -/
structure Region where
  cache : SlabCache
  mem : List Byte
  deriving DecidableEq, Repr

abbrev Prog (α : Type) := EStateM Fault Region α

/-! ## The code -/

/-- `(x + align - 1) & !(align - 1)`, unless the sum overflows.  `align` is not zero. -/
def roundUp (x align : Nat) : Option Nat :=
  (Word.narrow 64 (x + align)).map fun sum =>
    (BitVec.ofNat 64 (sum - 1) &&& ~~~BitVec.ofNat 64 (align - 1)).toNat

/-- The call that ends in a panic returns `none`. -/
def new (objSize align regionLen : Nat) : Option SlabCache := do
  guard (2 ^ align.log2 = align)
  let align := max align USIZE
  let slotSize ← roundUp (max objSize USIZE) align
  let capacity := if slotSize = 0 then 0 else regionLen / slotSize
  return { slotSize, capacity, freeHead := NIL_OFF, freeCount := 0 }

def writeLink (off val : Nat) : Prog Unit := do
  let stop ← okOr (Word.narrow 64 (off + USIZE)) .overflow
  refuseIf ((← get).mem.length < stop) .bounds
  modify fun r => { r with mem := patch r.mem off (leBytes USIZE val) }

def readLink (off : Nat) : Prog Nat := do
  let stop ← okOr (Word.narrow 64 (off + USIZE)) .overflow
  return leNat (← okOr (range (← get).mem off stop) .bounds)

/-- The slot is put in front of the free list, as `init` and `free` do. -/
def thread (off : Nat) : Prog Unit := do
  writeLink off (← get).cache.freeHead
  modify fun r => { r with cache.freeHead := off }
  let count ← okOr (Word.narrow 64 ((← get).cache.freeCount + 1)) .overflow
  modify fun r => { r with cache.freeCount := count }

def init : Prog Unit := do
  let r ← get
  let bytes ← okOr (Word.narrow 64 (r.cache.capacity * r.cache.slotSize)) .overflow
  refuseIf (r.mem.length < bytes) .assertion
  modify fun r => { r with cache.freeHead := NIL_OFF, cache.freeCount := 0 }
  -- from the last slot down to the first
  forRange (fun k => do
    let off ← okOr (Word.narrow 64 ((r.cache.capacity - 1 - k) * r.cache.slotSize)) .overflow
    thread off) r.cache.capacity

def alloc : Prog (Option Nat) := do
  let r ← get
  if r.cache.freeHead = NIL_OFF then
    return none
  let next ← readLink r.cache.freeHead
  modify fun r => { r with cache.freeHead := next }
  refuseIf ((← get).cache.freeCount < 1) .overflow
  modify fun r => { r with cache.freeCount := r.cache.freeCount - 1 }
  return some r.cache.freeHead

def free (off : Nat) : Prog Unit := do
  let r ← get
  refuseIf (¬ (off % r.cache.slotSize = 0 ∧ off / r.cache.slotSize < r.cache.capacity)) .assertion
  thread off

/-! ## Layouts -/

/-- Slots with room for a link, in a region with offsets below `NIL_OFF`. -/
structure Layout where
  slotSize : Nat
  capacity : Nat
  room : USIZE ≤ slotSize
  small : capacity * slotSize ≤ NIL_OFF

namespace Layout

variable {L : Layout}

def slots (L : Layout) : List Nat := (List.range L.capacity).map (· * L.slotSize)

/-- The cache carves the slots of the layout out of the region. -/
structure Fits (L : Layout) (r : Region) : Prop where
  slotSize : r.cache.slotSize = L.slotSize
  capacity : r.cache.capacity = L.capacity
  bytes : L.capacity * L.slotSize ≤ r.mem.length

theorem slotSize_pos (L : Layout) : 0 < L.slotSize := Nat.lt_of_lt_of_le (by decide) L.room

variable {off : Nat}

theorem mem_slots : off ∈ L.slots ↔ ∃ i, i < L.capacity ∧ off = i * L.slotSize := by
  unfold slots
  rw [List.mem_map]
  constructor
  · rintro ⟨i, hi, rfl⟩
    exact ⟨i, List.mem_range.mp hi, rfl⟩
  · rintro ⟨i, hi, rfl⟩
    exact ⟨i, List.mem_range.mpr hi, rfl⟩

theorem slots_nodup (L : Layout) : L.slots.Nodup :=
  List.nodup_range.map fun _ _ h => Nat.eq_of_mul_eq_mul_right L.slotSize_pos h

theorem slots_length (L : Layout) : L.slots.length = L.capacity := by
  rw [slots, List.length_map, List.length_range]

/-- A slot lies inside the region. -/
theorem inside (h : off ∈ L.slots) : off + L.slotSize ≤ L.capacity * L.slotSize := by
  obtain ⟨i, hi, rfl⟩ := mem_slots.mp h
  rw [← Nat.succ_mul]
  exact Nat.mul_le_mul_right _ hi

/-- Two slots have no byte in common. -/
theorem apart {off' : Nat} (h : off ∈ L.slots) (h' : off' ∈ L.slots) (hne : off ≠ off') :
    off + L.slotSize ≤ off' ∨ off' + L.slotSize ≤ off := by
  obtain ⟨i, _, rfl⟩ := mem_slots.mp h
  obtain ⟨j, _, rfl⟩ := mem_slots.mp h'
  rw [← Nat.succ_mul, ← Nat.succ_mul]
  rcases Nat.lt_trichotomy i j with hlt | rfl | hlt
  · exact .inl (Nat.mul_le_mul_right _ hlt)
  · exact absurd rfl hne
  · exact .inr (Nat.mul_le_mul_right _ hlt)

theorem ne_nil (h : off ∈ L.slots) : off ≠ NIL_OFF := by
  have inside := inside h
  have pos := L.slotSize_pos
  have small := L.small
  omega

theorem link_le (h : off ∈ L.slots) : off + USIZE ≤ L.capacity * L.slotSize := by
  have inside := inside h
  have room := L.room
  omega

end Layout

/-! ## Links -/

def linkAt (mem : List Byte) (off : Nat) : Nat := leNat (slice mem off USIZE)

section

variable {L : Layout} {r : Region} {frees : List Nat} {off : Nat}

variable {mem xs : List Byte} {start : Nat}

/-- A link that was written is read back. -/
theorem linkAt_patch_self {val : Nat} (h : off + USIZE ≤ mem.length) (hval : val ≤ NIL_OFF) :
    linkAt (patch mem off (leBytes USIZE val)) off = val := by
  have len : (leBytes USIZE val).length = USIZE := leBytes_length _ _
  have held := (holds_patch mem off (leBytes USIZE val) (by rw [len]; exact h)).slice
  rw [len] at held
  rw [linkAt, held]
  exact leNat_leBytes _ _ (Nat.lt_of_le_of_lt hval (by decide))

theorem linkAt_patch (h : start + xs.length ≤ mem.length) (ha : Apart start xs.length off USIZE) :
    linkAt (patch mem start xs) off = linkAt mem off := by
  rw [linkAt, slice_patch_apart h ha, linkAt]

/-- The links in the region run through the slots of `frees`. -/
structure Linked (L : Layout) (r : Region) (frees : List Nat) : Prop where
  fits : L.Fits r
  chain : Chain NIL_OFF (linkAt r.mem) r.cache.freeHead frees
  count : r.cache.freeCount = frees.length
  nodup : frees.Nodup
  slots : ∀ off ∈ frees, off ∈ L.slots

theorem Linked.head_le (h : Linked L r frees) : r.cache.freeHead ≤ NIL_OFF := by
  rcases h.chain.head with ⟨hnil, _⟩ | ⟨_, l, rfl, _⟩
  · exact Nat.le_of_eq hnil
  · have inside := L.inside (h.slots _ List.mem_cons_self)
    have small := L.small
    omega

/-- A write that touches no free slot leaves the free list. -/
theorem Linked.patch (h : Linked L r frees) (hlen : start + xs.length ≤ r.mem.length)
    (hap : ∀ off ∈ frees, Apart start xs.length off L.slotSize) :
    Linked L { r with mem := patch r.mem start xs } frees where
  fits := ⟨h.fits.slotSize, h.fits.capacity, by
    show _ ≤ (Bytes.patch r.mem start xs).length
    rw [patch_length _ _ _ hlen]
    exact h.fits.bytes⟩
  chain := by
    refine h.chain.congr fun off hoff => linkAt_patch hlen ?_
    have apart := hap off hoff
    have room := L.room
    unfold Apart at apart ⊢
    omega
  count := h.count
  nodup := h.nodup
  slots := h.slots

/-! ## What the operations do -/

theorem ends_usize {n : Nat} (hn : n ≤ NIL_OFF) (e : Fault) {Q : Nat → Region → Prop}
    {E : Fault → Region → Prop} : Ends (okOr (Word.narrow 64 n) e) r Q E ↔ Q n r := by
  have fits : Word.narrow 64 n = some n :=
    Word.narrow_eq_some.mpr ⟨Nat.lt_of_le_of_lt hn (by decide), rfl⟩
  rw [fits]
  rfl

theorem writeLink_ends (hfits : L.Fits r) (hoff : off ∈ L.slots) (val : Nat) :
    Ends (writeLink off val) r (fun _ r' =>
      r' = { r with mem := patch r.mem off (leBytes USIZE val) }) (fun _ _ => False) := by
  have stop := L.link_le hoff
  have bytes := hfits.bytes
  unfold writeLink
  rw [ends_bind, ends_usize (Nat.le_trans stop L.small), ends_bind, ends_get, ends_bind,
    ends_refuseIf, ends_modify]
  exact ⟨fun hc => absurd hc (by omega), fun _ => rfl⟩

theorem readLink_ends (hfits : L.Fits r) (hoff : off ∈ L.slots) :
    Ends (readLink off) r (fun v r' => v = linkAt r.mem off ∧ r' = r) (fun _ _ => False) := by
  have stop := L.link_le hoff
  have bytes := hfits.bytes
  have read : range r.mem off (off + USIZE) = some (slice r.mem off USIZE) :=
    (range_eq_some ..).mpr ⟨Nat.le_add_right .., by omega, by rw [Nat.add_sub_cancel_left]⟩
  unfold readLink
  rw [ends_bind, ends_usize (Nat.le_trans stop L.small), ends_bind, ends_get, read]
  exact ⟨rfl, rfl⟩

/-- The bytes outside the first eight of a slot are left alone. -/
def Untouched (r r' : Region) (off : Nat) : Prop :=
  r'.mem.length = r.mem.length ∧ ∀ i, i < off ∨ off + USIZE ≤ i → r'.mem[i]? = r.mem[i]?

theorem thread_linked (h : Linked L r frees) (hoff : off ∈ L.slots) (hnew : off ∉ frees) :
    Ends (thread off) r (fun _ r' => Linked L r' (off :: frees) ∧ Untouched r r' off)
      (fun _ _ => False) := by
  have inside := L.inside hoff
  have room := L.room
  have bytes := h.fits.bytes
  have len : (leBytes USIZE r.cache.freeHead).length = USIZE := leBytes_length _ _
  have hlen : off + (leBytes USIZE r.cache.freeHead).length ≤ r.mem.length := by rw [len]; omega
  have hap : ∀ a ∈ frees, Apart off (leBytes USIZE r.cache.freeHead).length a L.slotSize :=
    fun a ha => by
    have apart := L.apart hoff (h.slots a ha) fun hc => hnew (hc ▸ ha)
    rw [len]
    unfold Apart
    omega
  have linked := h.patch hlen hap
  have nodup : (off :: frees).Nodup := List.nodup_cons.mpr ⟨hnew, h.nodup⟩
  have slots : ∀ a ∈ off :: frees, a ∈ L.slots := fun a ha => by
    rcases List.mem_cons.mp ha with rfl | ha
    · exact hoff
    · exact h.slots a ha
  have few : frees.length + 1 ≤ L.capacity := by
    rw [← L.slots_length]
    exact (List.subperm_of_subset nodup slots).length_le
  have counts : r.cache.freeCount + 1 ≤ NIL_OFF := by
    have small := L.small
    have pos := Nat.le_mul_of_pos_right L.capacity L.slotSize_pos
    rw [h.count]
    omega
  unfold thread
  rw [ends_bind, ends_get, ends_bind]
  refine (writeLink_ends h.fits hoff _).imp_ok fun _ r' hr => ?_
  subst hr
  rw [ends_bind, ends_modify, ends_bind, ends_get, ends_bind, ends_usize counts, ends_modify]
  refine ⟨⟨⟨h.fits.slotSize, h.fits.capacity, linked.fits.bytes⟩, ?_, ?_, nodup, slots⟩, ?_,
    fun i hi => ?_⟩
  · refine h.chain.push (L.ne_nil hoff) (linkAt_patch_self (by omega) h.head_le) fun a ha =>
      linkAt_patch hlen ?_
    have apart := hap a ha
    unfold Apart at apart ⊢
    omega
  · show r.cache.freeCount + 1 = frees.length + 1
    rw [h.count]
  · exact patch_length _ _ _ hlen
  · show (Bytes.patch r.mem off _)[i]? = r.mem[i]?
    rw [getElem?_patch _ _ _ hlen, if_neg (by omega)]

/-- **`alloc`.**  The head of the free list is returned, and nothing is written. -/
theorem alloc_linked (h : Linked L r frees) :
    Ends alloc r (fun o r' => r'.mem = r.mem ∧ ((o = none ∧ frees = [] ∧ r' = r) ∨
      ∃ off rest, o = some off ∧ frees = off :: rest ∧ Linked L r' rest)) (fun _ _ => False) := by
  unfold alloc
  rw [ends_bind, ends_get, ends_ite]
  refine ⟨fun hnil => ?_, fun hnil => ?_⟩
  · rw [ends_pure]
    rcases h.chain.head with ⟨_, hfree⟩ | ⟨hne, _⟩
    · exact ⟨rfl, .inl ⟨rfl, hfree, rfl⟩⟩
    · exact absurd hnil hne
  · rcases h.chain.head with ⟨hc, _⟩ | ⟨_, rest, rfl, hrest⟩
    · exact absurd hc hnil
    rw [ends_bind]
    refine (readLink_ends h.fits (h.slots _ List.mem_cons_self)).imp_ok fun v r' hr => ?_
    obtain ⟨rfl, rfl⟩ := hr
    have count : r'.cache.freeCount = rest.length + 1 := h.count
    rw [ends_bind, ends_modify, ends_bind, ends_get, ends_bind, ends_refuseIf]
    refine ⟨fun hc => ?_, fun _ => ?_⟩
    · dsimp only at hc
      omega
    · rw [ends_bind, ends_modify, ends_pure]
      refine ⟨rfl, .inr ⟨_, rest, rfl, rfl, ⟨h.fits.slotSize, h.fits.capacity, h.fits.bytes⟩,
        hrest, ?_,
        (List.nodup_cons.mp h.nodup).2, fun a ha => h.slots a (List.mem_cons_of_mem _ ha)⟩⟩
      show r'.cache.freeCount - 1 = rest.length
      omega

/-- **`free`** of a slot that is not free puts it in front. -/
theorem free_linked (h : Linked L r frees) (hoff : off ∈ L.slots) (hnew : off ∉ frees) :
    Ends (free off) r (fun _ r' => Linked L r' (off :: frees) ∧ Untouched r r' off)
      (fun _ _ => False) := by
  obtain ⟨i, hi, hmul⟩ := L.mem_slots.mp hoff
  unfold free
  rw [ends_bind, ends_get, ends_bind, ends_refuseIf]
  refine ⟨fun hc => hc ?_, fun _ => thread_linked h hoff hnew⟩
  rw [h.fits.slotSize, h.fits.capacity, hmul]
  exact ⟨Nat.mul_mod_left _ _, by rw [Nat.mul_div_cancel _ L.slotSize_pos]; exact hi⟩

/-- **`init`** threads all slots, from the first to the last. -/
theorem init_linked (hfits : L.Fits r) :
    Ends init r (fun _ r' => Linked L r' L.slots ∧ r'.mem.length = r.mem.length ∧
      ∀ i, L.capacity * L.slotSize ≤ i → r'.mem[i]? = r.mem[i]?) (fun _ _ => False) := by
  have small := L.small
  have bytes := hfits.bytes
  unfold init
  rw [ends_bind, ends_get, hfits.slotSize, hfits.capacity, ends_bind, ends_usize small, ends_bind,
    ends_refuseIf]
  refine ⟨fun hc => absurd hc (by omega), fun _ => ?_⟩
  rw [ends_bind, ends_modify]
  -- after `k` rounds the last `k` slots are threaded
  refine (ends_forRange (fun k r' => k ≤ L.capacity → Linked L r' (L.slots.drop (L.capacity - k)) ∧
    r'.mem.length = r.mem.length ∧ ∀ i, L.capacity * L.slotSize ≤ i → r'.mem[i]? = r.mem[i]?) _ _
    (fun _ => ?_) fun k r' hk hr => ?_).imp_ok fun _ r' hr => ?_
  · have none : L.slots.drop (L.capacity - 0) = [] :=
      List.drop_eq_nil_of_le (Nat.le_of_eq L.slots_length)
    rw [none]
    exact ⟨⟨⟨hfits.slotSize, hfits.capacity, bytes⟩, rfl, rfl, List.nodup_nil, fun _ hc =>
      (nomatch hc)⟩, rfl, fun _ _ => rfl⟩
  · obtain ⟨linked, len, outside⟩ := hr (Nat.le_of_lt hk)
    have hidx : L.capacity - 1 - k < L.slots.length := by rw [L.slots_length]; omega
    have hslot : L.slots[L.capacity - 1 - k] = (L.capacity - 1 - k) * L.slotSize := by
      simp only [Layout.slots, List.getElem_map, List.getElem_range]
    have hmem : (L.capacity - 1 - k) * L.slotSize ∈ L.slots := L.mem_slots.mpr ⟨_, by omega, rfl⟩
    have hdrop : L.slots.drop (L.capacity - (k + 1)) =
      (L.capacity - 1 - k) * L.slotSize :: L.slots.drop (L.capacity - k) := by
      have hpos : L.capacity - (k + 1) = L.capacity - 1 - k := by omega
      have hnext : L.capacity - 1 - k + 1 = L.capacity - k := by omega
      rw [hpos, List.drop_eq_getElem_cons hidx, hslot, hnext]
    have inside := L.inside hmem
    have room := L.room
    have hnew : (L.capacity - 1 - k) * L.slotSize ∉ L.slots.drop (L.capacity - k) := by
      have nodup := L.slots_nodup.sublist (List.drop_sublist (L.capacity - (k + 1)) L.slots)
      rw [hdrop] at nodup
      exact (List.nodup_cons.mp nodup).1
    rw [ends_bind, ends_usize (by omega)]
    refine (thread_linked linked hmem hnew).imp_ok fun _ r'' hr'' => fun _ => ?_
    rw [hdrop]
    refine ⟨hr''.1, hr''.2.1.trans len, fun i hi => ?_⟩
    exact (hr''.2.2 i (.inr (by omega))).trans (outside i hi)
  · obtain ⟨linked, rest⟩ := hr (Nat.le_refl _)
    rw [Nat.sub_self, List.drop_zero] at linked
    exact ⟨linked, rest⟩

end

/-! ## A new cache -/

/-- The result is a multiple of the alignment, and not less than `x`. -/
theorem roundUp_spec {x k : Nat} (h : x + 2 ^ k < 2 ^ 64) :
    ∃ s, roundUp x (2 ^ k) = some s ∧ x ≤ s ∧ 2 ^ k ∣ s := by
  have pos := Nat.two_pow_pos k
  generalize hsum : x + 2 ^ k - 1 = sum
  have mask : (BitVec.ofNat 64 (2 ^ k - 1)).toNat = 2 ^ k - 1 := by
    rw [BitVec.toNat_ofNat, Nat.mod_eq_of_lt (by omega)]
  have exact_sum : (BitVec.ofNat 64 sum).toNat = sum := by
    rw [BitVec.toNat_ofNat, Nat.mod_eq_of_lt (by omega)]
  have low : (BitVec.ofNat 64 sum &&& BitVec.ofNat 64 (2 ^ k - 1)).toNat = sum % 2 ^ k := by
    rw [BitVec.toNat_and, mask, exact_sum, Nat.and_two_pow_sub_one_eq_mod]
  have split := Flags.toNat_split_mask (BitVec.ofNat 64 sum) (BitVec.ofNat 64 (2 ^ k - 1))
  rw [exact_sum, low] at split
  have hmod := Nat.mod_lt sum pos
  have down : (BitVec.ofNat 64 sum &&& ~~~BitVec.ofNat 64 (2 ^ k - 1)).toNat =
    sum - sum % 2 ^ k := by omega
  refine ⟨sum - sum % 2 ^ k, ?_, by omega, Nat.dvd_sub_mod _⟩
  rw [roundUp, Word.narrow_eq_some.mpr ⟨h, rfl⟩, Option.map_some, hsum, down]

/-- The larger of two powers of two is a multiple of both. -/
theorem max_align (k : Nat) : ∃ j, max (2 ^ k) USIZE = 2 ^ j ∧ 2 ^ k ∣ 2 ^ j := by
  rcases Nat.le_total (2 ^ k) USIZE with hle | hle
  · exact ⟨3, Nat.max_eq_right hle,
      Nat.pow_dvd_pow 2 ((Nat.pow_le_pow_iff_right (by decide)).mp hle)⟩
  · exact ⟨k, Nat.max_eq_left hle, Nat.dvd_refl _⟩

/-- **`new`.**  Without an overflow the slots have room for the object and a link, and the
alignment asked for. -/
theorem new_layout {objSize align regionLen : Nat} (hpow : align.isPowerOfTwo)
    (hfit : max objSize USIZE + max align USIZE < 2 ^ 64) (hregion : regionLen < 2 ^ 64) :
    ∃ L : Layout, new objSize align regionLen = some ⟨L.slotSize, L.capacity, NIL_OFF, 0⟩ ∧
      objSize ≤ L.slotSize ∧ align ∣ L.slotSize ∧ L.capacity = regionLen / L.slotSize := by
  obtain ⟨k, rfl⟩ := hpow
  obtain ⟨j, hj, hdvd⟩ := max_align k
  rw [hj] at hfit
  obtain ⟨s, rounded, hle, hmul⟩ := roundUp_spec hfit
  have hroom : USIZE ≤ s := Nat.le_trans (Nat.le_max_right ..) hle
  have hobj : objSize ≤ s := Nat.le_trans (Nat.le_max_left ..) hle
  have hpos : s ≠ 0 := fun hc => by
    rw [hc] at hroom
    exact absurd hroom (by decide)
  have hsmall : regionLen / s * s ≤ NIL_OFF := by
    have floor := Nat.div_mul_le_self regionLen s
    unfold NIL_OFF
    omega
  refine ⟨⟨s, regionLen / s, hroom, hsmall⟩, ?_, hobj, Nat.dvd_trans hdvd hmul, rfl⟩
  unfold new guard
  rw [Nat.log2_two_pow, if_pos rfl]
  show (roundUp (max objSize USIZE) (max (2 ^ k) USIZE)).bind
    (fun slotSize => some (⟨slotSize, if slotSize = 0 then 0 else regionLen / slotSize, NIL_OFF,
    0⟩ : SlabCache)) = _
  rw [hj, rounded, Option.bind_some, if_neg hpos]

end SlabCache

end Praesidium
