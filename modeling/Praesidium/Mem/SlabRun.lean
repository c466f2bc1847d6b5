import Praesidium.Lib.Run
import Praesidium.Mem.Slab

/-!
The slab cache over whole runs.

A `World` is the cache and its region with the offsets that are allocated.  Callers allocate, free
what they hold, and write what they like into the bytes they hold, in any order.  The free list
stays what a `Pool` of the slots says (`Sound`): the slots that are not allocated, each once, with
the one freed last in front.

    new … = some c → init ⟨c, mem⟩ = .ok () r → Run Step ⟨r, []⟩ tr w → …       (slab_sound)

No call faults, so no access leaves the region.
-/

namespace Praesidium

namespace SlabCache

open Fallible Bytes FreeList

/-! ## Runs -/

structure World where
  region : Region
  allocated : List Nat

inductive Event where
  | alloc (out : Option Nat)
  | free (off : Nat)
  | write (i : Nat) (byte : Byte)
  deriving DecidableEq, Repr

/-- The byte belongs to an allocated slot. -/
def Held (slotSize : Nat) (allocated : List Nat) (i : Nat) : Prop :=
  ∃ off ∈ allocated, off ≤ i ∧ i < off + slotSize

/-- What the callers may do: ask for a slot, give one back, and write a byte that they hold. -/
def Step (w : World) : Event → World → Prop
  | .alloc out, w' => ∃ r, alloc w.region = .ok out r ∧ w' = ⟨r, out.toList ++ w.allocated⟩
  | .free off, w' =>
    off ∈ w.allocated ∧ ∃ r, free off w.region = .ok () r ∧ w' = ⟨r, w.allocated.erase off⟩
  | .write i byte, w' => Held w.region.cache.slotSize w.allocated i ∧
      w' = ⟨{ w.region with mem := patch w.region.mem i [byte] }, w.allocated⟩

/-- The free list is that of a pool of the slots, and the bytes after the last slot are those of
`mem`. -/
structure Sound (L : Layout) (mem : List Byte) (p : Pool L.slots) (w : World) : Prop where
  linked : Linked L w.region p.free
  live : w.allocated = p.live
  length : w.region.mem.length = mem.length
  outside : ∀ i, L.capacity * L.slotSize ≤ i → w.region.mem[i]? = mem[i]?

section

variable {L : Layout} {mem : List Byte} {p : Pool L.slots} {w w' : World}

variable {off : Nat} {r : Region}

section

variable (h : Sound L mem p w)

include h

theorem Sound.slot (hoff : off ∈ w.allocated) : off ∈ L.slots :=
  p.mem_iff.mpr (.inr (h.live ▸ hoff))

theorem Sound.not_free (hoff : off ∈ w.allocated) : off ∉ p.free :=
  p.not_free L.slots_nodup (h.live ▸ hoff)

theorem Sound.alloc {out : Option Nat}
    (he : SlabCache.alloc w.region = .ok out r) :
    ∃ q, Sound L mem q ⟨r, out.toList ++ w.allocated⟩ := by
  obtain ⟨hmem, hcase⟩ := (alloc_linked h.linked).ok he
  rcases hcase with ⟨rfl, _, rfl⟩ | ⟨off, rest, rfl, hfree, linked⟩
  · exact ⟨p, h⟩
  · refine ⟨p.take hfree, linked, ?_, ?_, fun i hi => ?_⟩
    · show off :: w.allocated = off :: p.live
      rw [h.live]
    · rw [hmem]
      exact h.length
    · rw [hmem]
      exact h.outside i hi

theorem Sound.free (hoff : off ∈ w.allocated)
    (he : SlabCache.free off w.region = .ok () r) :
    ∃ q, Sound L mem q ⟨r, w.allocated.erase off⟩ := by
  obtain ⟨linked, len, same⟩ := (free_linked h.linked (h.slot hoff) (h.not_free hoff)).ok he
  have inside := L.link_le (h.slot hoff)
  have hlive : off ∈ p.live := h.live ▸ hoff
  refine ⟨p.give hlive, linked, ?_, len.trans h.length, fun i hi => ?_⟩
  · show w.allocated.erase off = p.live.erase off
    rw [h.live]
  · exact (same i (.inr (by omega))).trans (h.outside i hi)

theorem Sound.write {i : Nat} (hi : Held w.region.cache.slotSize w.allocated i) (byte : Byte) :
    Sound L mem p ⟨{ w.region with mem := patch w.region.mem i [byte] }, w.allocated⟩ := by
  obtain ⟨off, hoff, hlo, hhi⟩ := hi
  rw [h.linked.fits.slotSize] at hhi
  have inside := L.inside (h.slot hoff)
  have bytes := h.linked.fits.bytes
  have hlen : i + [byte].length ≤ w.region.mem.length := by
    rw [List.length_singleton]
    omega
  refine ⟨h.linked.patch hlen fun a ha => ?_, h.live, (patch_length _ _ _ hlen).trans h.length,
    fun j hj => ?_⟩
  · -- a free slot is another one than the slot of the byte
    have hne : off ≠ a := fun hc => h.not_free hoff (hc ▸ ha)
    have apart := L.apart (h.slot hoff) (h.linked.slots a ha) hne
    rw [List.length_singleton]
    unfold Apart
    omega
  · show (patch w.region.mem i [byte])[j]? = mem[j]?
    rw [getElem?_patch _ _ _ hlen, List.length_singleton, if_neg (by omega)]
    exact h.outside j hj

/-- **One step.** -/
theorem Sound.step {ev : Event} (hs : Step w ev w') : ∃ q, Sound L mem q w' := by
  cases ev with
  | alloc out =>
    obtain ⟨r, he, rfl⟩ := hs
    exact h.alloc he
  | free off =>
    obtain ⟨hoff, r, he, rfl⟩ := hs
    exact h.free hoff he
  | write i byte =>
    obtain ⟨hi, rfl⟩ := hs
    exact ⟨p, h.write hi byte⟩

theorem run_sound {tr : List Event} (hr : Run Step w tr w') : ∃ q, Sound L mem q w' :=
  hr.inv (fun w => ∃ q, Sound L mem q w) ⟨p, h⟩ fun _ _ _ hw hs => hw.choose_spec.step hs

end

end

/-! ## What the callers see -/

/-- What holds of a reachable world, for slots of `slotSize` bytes aligned to `align`. -/
structure Safe (slotSize capacity align : Nat) (mem : List Byte) (w : World) : Prop where
  distinct : w.allocated.Nodup
  /-- the free count is the capacity minus what is allocated -/
  count : w.region.cache.freeCount + w.allocated.length = capacity
  /-- `alloc` returns a slot that is not allocated, or nothing when all are; it writes nothing -/
  alloc : ∃ out r, SlabCache.alloc w.region = .ok out r ∧ r.mem = w.region.mem ∧
    (out = none ↔ ∀ i, i < capacity → i * slotSize ∈ w.allocated) ∧
    ∀ off, out = some off → slotSize ∣ off ∧ align ∣ off ∧ off + slotSize ≤ capacity * slotSize ∧
    off ∉ w.allocated
  /-- `free` of an allocated slot returns, and leaves every byte that stays allocated -/
  free : ∀ off ∈ w.allocated, ∃ r, SlabCache.free off w.region = .ok () r ∧
    r.mem.length = w.region.mem.length ∧
    ∀ i, Held slotSize (w.allocated.erase off) i → r.mem[i]? = w.region.mem[i]?
  /-- nothing after the last slot was ever written -/
  outside : w.region.mem.length = mem.length ∧ ∀ i, capacity * slotSize ≤ i →
    w.region.mem[i]? = mem[i]?

theorem Sound.safe {L : Layout} {mem : List Byte} {p : Pool L.slots} {w : World}
    (h : Sound L mem p w) {align : Nat} (halign : align ∣ L.slotSize) :
    Safe L.slotSize L.capacity align mem w where
  distinct := by
    rw [h.live]
    exact (List.nodup_append.mp (p.nodup L.slots_nodup)).2.1
  count := by
    rw [h.linked.count, h.live, p.length, L.slots_length]
  alloc := by
    obtain ⟨out, r, he, hmem, hcase⟩ := (alloc_linked h.linked).exists_ok
    have all : p.free = [] ↔ ∀ i, i < L.capacity → i * L.slotSize ∈ w.allocated := by
      rw [p.free_nil_iff L.slots_nodup, h.live]
      constructor
      · exact fun hall i hi => hall _ (L.mem_slots.mpr ⟨i, hi, rfl⟩)
      · intro hall a ha
        obtain ⟨i, hi, rfl⟩ := L.mem_slots.mp ha
        exact hall i hi
    refine ⟨out, r, he, hmem, ?_, fun off hout => ?_⟩
    · rw [← all]
      rcases hcase with ⟨rfl, hfree, _⟩ | ⟨off, rest, rfl, hfree, _⟩
      · exact ⟨fun _ => hfree, fun _ => rfl⟩
      · exact ⟨nofun, fun hc => by rw [hfree] at hc; cases hc⟩
    · rcases hcase with ⟨hnone, _⟩ | ⟨off', rest, hsome, hfree, _⟩
      · rw [hnone] at hout
        cases hout
      · rw [hsome] at hout
        cases hout
        have hmem : off ∈ p.free := by
          rw [hfree]
          exact List.mem_cons_self
        have hslot := h.linked.slots off hmem
        obtain ⟨i, _, hi⟩ := L.mem_slots.mp hslot
        have hdvd : L.slotSize ∣ off := ⟨i, by rw [hi, Nat.mul_comm]⟩
        refine ⟨hdvd, Nat.dvd_trans halign hdvd, L.inside hslot, ?_⟩
        rw [h.live]
        exact p.not_live L.slots_nodup hmem
  free off hoff := by
    obtain ⟨_, r, he, _, len, same⟩ :=
      (free_linked h.linked (h.slot hoff) (h.not_free hoff)).exists_ok
    refine ⟨r, he, len, fun i hi => same i ?_⟩
    obtain ⟨a, ha, hlo, hhi⟩ := hi
    have nodup : w.allocated.Nodup := by
      rw [h.live]
      exact (List.nodup_append.mp (p.nodup L.slots_nodup)).2.1
    obtain ⟨hne, hmem⟩ := (nodup.mem_erase_iff).mp ha
    have apart := L.apart (h.slot hoff) (h.slot hmem) (Ne.symm hne)
    have room := L.room
    omega
  outside := ⟨h.length, h.outside⟩

/-- **The slab cache is sound.**  A cache that `new` makes without an overflow is set up by `init`
on any region that is large enough; after any calls and any writes of the holders into what they
hold, every call returns and does what it says. -/
theorem slab_sound (objSize align regionLen : Nat) (hpow : align.isPowerOfTwo)
    (hfit : max objSize USIZE + max align USIZE < 2 ^ 64) (hregion : regionLen < 2 ^ 64) :
    ∃ c, new objSize align regionLen = some c ∧ objSize ≤ c.slotSize ∧ align ∣ c.slotSize ∧
      c.capacity = regionLen / c.slotSize ∧
      ∀ mem : List Byte, c.capacity * c.slotSize ≤ mem.length → ∃ r, init ⟨c, mem⟩ = .ok () r ∧
        ∀ tr w, Run Step ⟨r, []⟩ tr w → Safe c.slotSize c.capacity align mem w := by
  obtain ⟨L, hnew, hobj, halign, hcap⟩ := new_layout hpow hfit hregion
  refine ⟨_, hnew, hobj, halign, hcap, fun mem hmem => ?_⟩
  have fits : L.Fits ⟨⟨L.slotSize, L.capacity, NIL_OFF, 0⟩, mem⟩ := ⟨rfl, rfl, hmem⟩
  obtain ⟨_, r, hinit, linked, len, outside⟩ := (init_linked fits).exists_ok
  have start : Sound L mem (.start L.slots) ⟨r, []⟩ := ⟨linked, rfl, len, outside⟩
  refine ⟨r, hinit, fun tr w hrun => ?_⟩
  obtain ⟨p, sound⟩ := run_sound start hrun
  exact sound.safe halign

/-- Two slots, one of them written by its holder and given back. -/
theorem slab_sound_twoSlots :
    ∃ c r w, new 8 8 16 = some c ∧ init ⟨c, List.replicate 16 0⟩ = .ok () r ∧
    Run Step ⟨r, []⟩ [.alloc (some 0), .write 3 0xff, .alloc (some 8), .free 0] w ∧
      w.allocated = [8] ∧
    Safe c.slotSize c.capacity 8 (List.replicate 16 0) w := by
  obtain ⟨c, hnew, _, _, _, hinit⟩ := slab_sound 8 8 16 ⟨3, rfl⟩ (by decide) (by decide)
  have cache : new 8 8 16 = some ⟨8, 2, NIL_OFF, 0⟩ := by decide
  obtain rfl : ⟨8, 2, NIL_OFF, 0⟩ = c := Option.some.inj (cache.symm.trans hnew)
  obtain ⟨r, he, hsafe⟩ := hinit (List.replicate 16 0) (by decide)
  -- the first slot leads to the second
  have threaded : init ⟨⟨8, 2, NIL_OFF, 0⟩, List.replicate 16 0⟩ =
      .ok () ⟨⟨8, 2, 0, 2⟩, leBytes 8 8 ++ leBytes 8 NIL_OFF⟩ := rfl
  rw [threaded] at he
  cases he
  have hrun : Run Step ⟨⟨⟨8, 2, 0, 2⟩, leBytes 8 8 ++ leBytes 8 NIL_OFF⟩, []⟩
      [.alloc (some 0), .write 3 0xff, .alloc (some 8), .free 0]
      ⟨⟨⟨8, 2, 0, 1⟩, leBytes 8 NIL_OFF ++ leBytes 8 NIL_OFF⟩, [8]⟩ := by
    refine .cons (t := ⟨⟨⟨8, 2, 8, 1⟩, leBytes 8 8 ++ leBytes 8 NIL_OFF⟩, [0]⟩) ⟨_, rfl, rfl⟩ ?_
    refine .cons (t := ⟨⟨⟨8, 2, 8, 1⟩, leBytes 8 0xff000008 ++ leBytes 8 NIL_OFF⟩, [0]⟩)
      ⟨⟨0, ?_⟩, rfl⟩ ?_
    · exact ⟨List.mem_singleton.mpr rfl, by decide, by decide⟩
    refine .cons (t := ⟨⟨⟨8, 2, NIL_OFF, 0⟩, leBytes 8 0xff000008 ++ leBytes 8 NIL_OFF⟩, [8, 0]⟩)
      ⟨_, rfl, rfl⟩ ?_
    exact .cons ⟨by decide, _, rfl, rfl⟩ (.nil _)
  exact ⟨_, _, _, hnew, threaded, hrun, rfl, hsafe _ _ hrun⟩

end SlabCache

end Praesidium
