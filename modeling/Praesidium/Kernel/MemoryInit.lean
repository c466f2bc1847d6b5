import Mathlib.Data.List.Sort
import Praesidium.Kernel.Arch
import Praesidium.Mem.BuddyComplete

/-!
The frame allocator set up from the boot memory map (`kernel/src/memory/mod.rs`).

`init` collects the usable frame ranges, sorts them, refuses overlaps, puts the descriptor array
at the front of the first range that holds it and releases the rest to the buddy allocator.  The
map is hostile: base, length and kind of every region are arbitrary.

State is the static `FRAMES`.  A `Stop` is a call of `fatal` with its message, or what must not
happen: an operation on machine integers that overflows, a cast that would drop bits, a fault of
the buddy allocator.

    init sort hhdm regions stops by a `fatal`, or returns with `Released regions` …   (init_exact)
-/

namespace Praesidium

namespace Memory

open Fallible

/-! ## The memory map -/

abbrev MemoryKind := U32

def USABLE : MemoryKind := 0

structure MemRegion where
  base : U64
  pages : U64
  kind : MemoryKind
  deriving DecidableEq, Repr

def MAX_USABLE : Nat := 512

def PAGE_SHIFT : Nat := 12

/-- Low physical memory that the direct map covers: 4 GiB. -/
def IDENTITY_BYTES : Nat := 0x100000000

/-- `IDENTITY_BYTES >> PAGE_SHIFT` -/
def HHDM_MAX : Nat := 0x100000

/-- `size_of::<FrameDesc>()` -/
def DESC_BYTES : Nat := 12

structure FrameAllocator where
  buddy : Buddy
  basePfn : Nat
  deriving DecidableEq, Repr

inductive Stop where
  | fatal (msg : String)
  | overflow
  | truncated
  | buddy (fault : Buddy.Fault)
  deriving DecidableEq, Repr

/-- Programs over `FRAMES`. -/
abbrev Prog (α : Type) := EStateM Stop (Option FrameAllocator) α

/-! ## Machine operations -/

/-- `a + b` on `w`-bit integers -/
def plus (w a b : Nat) : Prog Nat := okOr (Word.narrow w (a + b)) .overflow

def minus (a b : Nat) : Prog Nat := if b ≤ a then pure (a - b) else throw .overflow

/-- `n as Pfn`, which must not drop bits -/
def asPfn (n : Nat) : Prog Nat := okOr (Word.narrow 32 n) .truncated

/-- `a.saturating_mul(b)` on `u64`s -/
def saturatingMul (a b : Nat) : Nat := min (a * b) 0xffffffffffffffff

/-- `a.div_ceil(b)` -/
def divCeil (a b : Nat) : Nat := a / b + if a % b = 0 then 0 else 1

def pfnToPhys (pfn : Nat) : Nat := pfn <<< PAGE_SHIFT

def physToPfn (phys : Nat) : Prog Nat := asPfn (phys >>> PAGE_SHIFT)

/-- `hhdm` is `HHDM_OFFSET`. -/
def physToVirt (hhdm pa : Nat) : Prog Nat := plus 64 pa hhdm

/-- Run the buddy allocator `b`, and return it with the result. -/
def onBuddy {α : Type} (m : Buddy.Prog α) (b : Buddy) : Prog (α × Buddy) :=
  match m b with
  | .ok a b' => pure (a, b')
  | .error e _ => throw (.buddy e)

/-! ## The set-up -/

def usableFrames (r : MemRegion) : Option (Nat × Nat) :=
  if r.base.toNat % PAGE_SIZE ≠ 0 then none else
    let start := r.base.toNat >>> PAGE_SHIFT
    match Word.narrow 64 (start + r.pages.toNat) with
    | none => none
    | some stop => if stop ≤ start then none else some (start, stop)

/-- The loop over the regions; `ranges` has the ranges so far. -/
def collect : List MemRegion → List (Nat × Nat) → Prog (List (Nat × Nat))
  | [], ranges => pure ranges
  | r :: regions, ranges =>
    if r.kind ≠ USABLE then collect regions ranges else
      match usableFrames r with
      | none => collect regions ranges
      | some (start, stop) =>
        let stop := min stop HHDM_MAX
        if stop ≤ start then collect regions ranges else do
          refuseIf (MAX_USABLE ≤ ranges.length) (.fatal "too many usable regions in memory map")
          let range := (← asPfn start, ← asPfn stop)
          collect regions (ranges ++ [range])

/-- `sort_unstable_by_key` on the start: some list of the same ranges in order. -/
structure SortByStart where
  run : List (Nat × Nat) → List (Nat × Nat)
  perm : ∀ l, (run l).Perm l
  sorted : ∀ l, (run l).Pairwise fun a b => a.1 ≤ b.1

/-- One such sort. -/
def insertionSort : SortByStart where
  run := List.insertionSort fun a b => a.1 ≤ b.1
  perm := List.perm_insertionSort _
  sorted l := by
    have htotal : Std.Total fun a b : Nat × Nat => a.1 ≤ b.1 := ⟨fun a b => Nat.le_total a.1 b.1⟩
    have htrans : IsTrans (Nat × Nat) fun a b => a.1 ≤ b.1 :=
      ⟨fun _ _ _ hab hbc => Nat.le_trans hab hbc⟩
    exact List.pairwise_insertionSort _ l

/-- The loop over `ranges.windows(2)`. -/
def refuseOverlap : List (Nat × Nat) → Prog Unit
  | a :: b :: ranges => do
    refuseIf (b.1 < a.2) (.fatal "overlapping USABLE regions in memory map")
    refuseOverlap (b :: ranges)
  | _ => pure ()

/-- `ranges.iter().map(|&(s, e)| u64::from(e - s)).sum()` -/
def sumPages : List (Nat × Nat) → Nat → Prog Nat
  | [], total => pure total
  | r :: ranges, total => do
    let total ← plus 64 total (← minus r.2 r.1)
    sumPages ranges total

/-- The start of the first range that holds the descriptor array. -/
def findHost (descFrames : Nat) : List (Nat × Nat) → Prog Nat
  | [] => throw (.fatal "no usable region fits the frame-descriptor array")
  | r :: ranges => do
    if descFrames ≤ (← minus r.2 r.1) then pure r.1 else findHost descFrames ranges

/-- The loop that releases the ranges, with the descriptor array carved off its host. -/
def release (basePfn descStart descFrames : Nat) : List (Nat × Nat) → Buddy → Prog Buddy
  | [], buddy => pure buddy
  | (start, stop) :: ranges, buddy =>
    if start = descStart then do
      let after ← plus 32 start descFrames
      if after < stop then
        let r ← onBuddy (Buddy.addFrames (← minus after basePfn) (← minus stop after)) buddy
        release basePfn descStart descFrames ranges r.2
      else
        release basePfn descStart descFrames ranges buddy
    else do
      let r ← onBuddy (Buddy.addFrames (← minus start basePfn) (← minus stop start)) buddy
      release basePfn descStart descFrames ranges r.2

/-- What the set-up reports. -/
structure SetUp where
  basePfn : Nat
  span : Nat
  totalPages : Nat
  descFrames : Nat
  descStart : Nat
  deriving DecidableEq, Repr

/-- `init`, up to the publishing of `FRAMES`. -/
def init (sort : SortByStart) (hhdm : Nat) (regions : List MemRegion) : Prog SetUp := do
  refuseIf (regions = []) (.fatal "empty or unreadable memory map")
  let ranges ← collect regions []
  refuseIf (ranges = []) (.fatal "no usable RAM within the HHDM window")
  let ranges := sort.run ranges
  refuseOverlap ranges
  let basePfn := (ranges.headD (0, 0)).1
  let span ← minus (ranges.getLastD (0, 0)).2 basePfn
  let totalPages ← sumPages ranges 0
  let descBytes := saturatingMul span DESC_BYTES
  let descFrames ← asPfn (divCeil descBytes PAGE_SIZE)
  let descStart ← findHost descFrames ranges
  let descPhys := pfnToPhys descStart
  -- the array is zeroed and then taken as `span` descriptors
  let _ ← physToVirt hhdm descPhys
  let buddy ← release basePfn descStart descFrames ranges
    (Buddy.new (List.replicate span ⟨0, 0, 0, false⟩))
  set (some (FrameAllocator.mk buddy basePfn))
  pure ⟨basePfn, span, totalPages, descFrames, descStart⟩

/-! ## Rules for the machine operations -/

section Rules

variable {s : Option FrameAllocator} {Q : Nat → Option FrameAllocator → Prop}
  {E : Stop → Option FrameAllocator → Prop}

variable {a b : Nat}

theorem ends_plus {w : Nat} (h : a + b < 2 ^ w) : Ends (plus w a b) s Q E ↔ Q (a + b) s := by
  unfold plus
  rw [Word.narrow_eq_some.mpr ⟨h, rfl⟩]
  exact Iff.rfl

theorem ends_minus (h : b ≤ a) : Ends (minus a b) s Q E ↔ Q (a - b) s := by
  unfold minus
  rw [if_pos h, ends_pure]

theorem ends_asPfn {n : Nat} (h : n < 0x100000000) : Ends (asPfn n) s Q E ↔ Q n s := by
  unfold asPfn
  rw [Word.narrow_eq_some.mpr ⟨h, rfl⟩]
  exact Iff.rfl

theorem ends_physToVirt {hhdm pa : Nat} :
    Ends (physToVirt hhdm pa) s Q E ↔
    (0x10000000000000000 ≤ pa + hhdm → E .overflow s) ∧
      (pa + hhdm < 0x10000000000000000 → Q (pa + hhdm) s) := by
  unfold physToVirt plus
  rw [ends_okOr, Word.narrow_eq_none]
  refine and_congr Iff.rfl ⟨fun h hlt => h _ (Word.narrow_eq_some.mpr ⟨hlt, rfl⟩), fun h a ha => ?_⟩
  obtain ⟨hlt, rfl⟩ := Word.narrow_eq_some.mp ha
  exact h hlt

theorem ends_onBuddy {α : Type} {m : Buddy.Prog α} {b b' : Buddy} {a : α}
    {R : α × Buddy → Option FrameAllocator → Prop} (h : m b = .ok a b') :
    Ends (onBuddy m b) s R E ↔ R (a, b') s := by
  unfold onBuddy
  rw [h]
  exact Iff.rfl

end Rules

/-- The set-up stops only by a call of `fatal`. -/
def Fatal (e : Stop) (_ : Option FrameAllocator) : Prop := ∃ msg, e = .fatal msg

/-! ## The usable frames -/

/-- A region that the map gives as usable, page-aligned and with no overflow. -/
def UsableRegion (r : MemRegion) : Prop :=
  r.kind = USABLE ∧ r.base.toNat % PAGE_SIZE = 0 ∧ r.base.toNat / PAGE_SIZE + r.pages.toNat <
    0x10000000000000000

/-- `p` is a frame of a usable region, below 4 GiB. -/
def UsableFrame (regions : List MemRegion) (p : Nat) : Prop :=
  p < HHDM_MAX ∧ ∃ r ∈ regions, UsableRegion r ∧ r.base.toNat / PAGE_SIZE ≤ p ∧
    p < r.base.toNat / PAGE_SIZE + r.pages.toNat

instance (r : MemRegion) : Decidable (UsableRegion r) :=
  inferInstanceAs (Decidable (r.kind = USABLE ∧ r.base.toNat % PAGE_SIZE = 0 ∧
    r.base.toNat / PAGE_SIZE + r.pages.toNat < 0x10000000000000000))

instance (regions : List MemRegion) : DecidablePred (UsableFrame regions) := fun p =>
  inferInstanceAs (Decidable (p < HHDM_MAX ∧ ∃ r ∈ regions, UsableRegion r ∧
    r.base.toNat / PAGE_SIZE ≤ p ∧ p < r.base.toNat / PAGE_SIZE + r.pages.toNat))

/-- The range that the set-up takes from a region. -/
def rangeOf (r : MemRegion) : Option (Nat × Nat) :=
  if UsableRegion r ∧ r.base.toNat / PAGE_SIZE < min (r.base.toNat / PAGE_SIZE + r.pages.toNat)
    HHDM_MAX then
    some (r.base.toNat / PAGE_SIZE, min (r.base.toNat / PAGE_SIZE + r.pages.toNat) HHDM_MAX)
  else none

variable {r : MemRegion} {q : Nat × Nat}

theorem rangeOf_eq_some :
    rangeOf r = some q ↔
    UsableRegion r ∧ q.1 = r.base.toNat / PAGE_SIZE ∧
      q.2 = min (r.base.toNat / PAGE_SIZE + r.pages.toNat) HHDM_MAX ∧ q.1 < q.2 := by
  unfold rangeOf
  constructor
  · intro h
    split at h
    · next hr =>
      obtain rfl := Option.some.inj h
      exact ⟨hr.1, rfl, rfl, hr.2⟩
    · cases h
  · rintro ⟨hr, h1, h2, hlt⟩
    rw [h1, h2] at hlt
    rw [if_pos ⟨hr, hlt⟩]
    exact congrArg some (Prod.ext h1.symm h2.symm)

/-- The ranges cover the usable frames. -/
theorem covers_ranges (regions : List MemRegion) (p : Nat) :
    Ranges.Covers (regions.filterMap rangeOf) p ↔ UsableFrame regions p := by
  constructor
  · rintro ⟨q, hq, h1, h2⟩
    obtain ⟨r, hr, hrange⟩ := List.mem_filterMap.mp hq
    obtain ⟨hu, hs, he, -⟩ := rangeOf_eq_some.mp hrange
    exact ⟨by omega, r, hr, hu, by omega, by omega⟩
  · rintro ⟨hp, r, hr, hu, h1, h2⟩
    have hlt : r.base.toNat / PAGE_SIZE < min (r.base.toNat / PAGE_SIZE + r.pages.toNat)
      HHDM_MAX := by omega
    refine ⟨(r.base.toNat / PAGE_SIZE, min (r.base.toNat / PAGE_SIZE + r.pages.toNat) HHDM_MAX),
      List.mem_filterMap.mpr ⟨r, hr, rangeOf_eq_some.mpr ⟨hu, rfl, rfl, hlt⟩⟩, h1, ?_⟩
    show p < min (r.base.toNat / PAGE_SIZE + r.pages.toNat) HHDM_MAX
    omega

theorem shiftRight_page (n : Nat) : n >>> PAGE_SHIFT = n / PAGE_SIZE :=
  Nat.shiftRight_eq_div_pow n 12

theorem usableFrames_eq_some :
    usableFrames r = some q ↔
    r.base.toNat % PAGE_SIZE = 0 ∧ r.base.toNat / PAGE_SIZE + r.pages.toNat < 0x10000000000000000 ∧
      q = (r.base.toNat / PAGE_SIZE, r.base.toNat / PAGE_SIZE + r.pages.toNat) ∧ q.1 < q.2 := by
  unfold usableFrames
  rw [shiftRight_page]
  dsimp only
  by_cases hal : r.base.toNat % PAGE_SIZE = 0
  · rw [if_neg (not_not.mpr hal)]
    by_cases hfit : r.base.toNat / PAGE_SIZE + r.pages.toNat < 0x10000000000000000
    · rw [Word.narrow_eq_some.mpr ⟨hfit, rfl⟩]
      dsimp only
      split
      · next hle => exact ⟨fun h => (nomatch h),
          fun ⟨_, _, hq, hlt⟩ => by rw [hq] at hlt; dsimp only at hlt; omega⟩
      · next hlt =>
        rw [Option.some.injEq]
        exact ⟨fun h => ⟨hal, hfit, h.symm, by rw [← h]; dsimp only; omega⟩, fun h => h.2.2.1.symm⟩
    · rw [Word.narrow_eq_none.mpr (Nat.le_of_not_lt hfit)]
      exact ⟨fun h => (nomatch h), fun h => absurd h.2.1 hfit⟩
  · rw [if_pos hal]
    exact ⟨fun h => (nomatch h), fun h => absurd h.1 hal⟩

/-- The range of a usable region is what `usable_frames` gives, clamped. -/
theorem rangeOf_usable {start stop : Nat} (hk : r.kind = USABLE)
    (h : usableFrames r = some (start, stop)) :
    rangeOf r = if min stop HHDM_MAX ≤ start then none else some (start, min stop HHDM_MAX) := by
  obtain ⟨hal, hfit, hq, -⟩ := usableFrames_eq_some.mp h
  obtain ⟨rfl, rfl⟩ := Prod.mk.inj hq
  unfold rangeOf
  by_cases hle : min (r.base.toNat / PAGE_SIZE + r.pages.toNat) HHDM_MAX ≤ r.base.toNat / PAGE_SIZE
  · rw [if_pos hle, if_neg fun hc => by omega]
  · rw [if_neg hle, if_pos ⟨⟨hk, hal, hfit⟩, by omega⟩]

theorem rangeOf_malformed (h : usableFrames r = none) : rangeOf r = none := by
  refine Option.eq_none_iff_forall_ne_some.mpr fun q hq => ?_
  obtain ⟨hu, h1, h2, hlt⟩ := rangeOf_eq_some.mp hq
  have := (usableFrames_eq_some (r := r)
    (q := (r.base.toNat / PAGE_SIZE, r.base.toNat / PAGE_SIZE + r.pages.toNat))).mpr
    ⟨hu.2.1, hu.2.2, rfl, by dsimp only; omega⟩
  rw [h] at this
  cases this

theorem rangeOf_other (hk : r.kind ≠ USABLE) : rangeOf r = none := by
  unfold rangeOf
  rw [if_neg fun hc => hk hc.1.1]

/-! ## The steps of the set-up -/

variable {s : Option FrameAllocator}

theorem collect_ends (regions : List MemRegion) (ranges : List (Nat × Nat)) :
    Ends (collect regions ranges) s (fun out s' => s' = s ∧ out = ranges ++ regions.filterMap
      rangeOf) Fatal := by
  induction regions generalizing ranges with
  | nil =>
    rw [collect, ends_pure, List.filterMap_nil, List.append_nil]
    exact ⟨rfl, rfl⟩
  | cons r regions ih =>
    rw [collect, ends_ite]
    refine ⟨fun hk => ?_, fun hk => ?_⟩
    · rw [List.filterMap_cons_none (rangeOf_other hk)]
      exact ih ranges
    have hk : r.kind = USABLE := not_ne_iff.mp hk
    cases hu : usableFrames r with
    | none =>
      rw [List.filterMap_cons_none (rangeOf_malformed hu)]
      exact ih ranges
    | some q =>
      obtain ⟨start, stop⟩ := q
      have hrange := rangeOf_usable hk hu
      dsimp only
      rw [ends_ite]
      refine ⟨fun hle => ?_, fun hlt => ?_⟩
      · rw [if_pos hle] at hrange
        rw [List.filterMap_cons_none hrange]
        exact ih ranges
      · rw [if_neg hlt] at hrange
        rw [List.filterMap_cons_some hrange, ends_bind, ends_refuseIf]
        refine ⟨fun _ => ⟨_, rfl⟩, fun _ => ?_⟩
        have hmax : min stop HHDM_MAX ≤ 0x100000 := Nat.min_le_right _ _
        rw [ends_bind, ends_asPfn (by omega), ends_bind, ends_asPfn (by omega)]
        have := ih (ranges ++ [(start, min stop HHDM_MAX)])
        rwa [List.append_assoc] at this

theorem refuseOverlap_ends (ranges : List (Nat × Nat)) :
    Ends (refuseOverlap ranges) s (fun _ s' => s' = s ∧ ranges.IsChain fun a b => a.2 ≤ b.1)
      Fatal := by
  induction ranges with
  | nil =>
    rw [refuseOverlap, ends_pure]
    · exact ⟨rfl, .nil⟩
    · exact fun _ _ _ h => (nomatch h)
  | cons a ranges ih =>
    cases ranges with
    | nil => exact ⟨rfl, .singleton a⟩
    | cons b ranges =>
      rw [refuseOverlap, ends_bind, ends_refuseIf]
      refine ⟨fun _ => ⟨_, rfl⟩, fun hge => ?_⟩
      exact ih.imp_ok fun _ _ h => ⟨h.1, .cons_cons (Nat.le_of_not_lt hge) h.2⟩

theorem sumPages_ends (ranges : List (Nat × Nat)) (total : Nat) (hr : ∀ r ∈ ranges, r.1 ≤ r.2)
    (hfit : total + Ranges.extent ranges < 0x10000000000000000) :
    Ends (sumPages ranges total) s (fun out s' => s' = s ∧ out = total + Ranges.extent ranges)
      Fatal := by
  induction ranges generalizing total with
  | nil => exact ⟨rfl, rfl⟩
  | cons r ranges ih =>
    rw [Ranges.extent_cons] at hfit ⊢
    rw [sumPages, ends_bind, ends_minus (hr r List.mem_cons_self), ends_bind, ends_plus (by omega),
      ← Nat.add_assoc]
    exact ih _ (fun q hq => hr q (List.mem_cons_of_mem r hq)) (by omega)

theorem findHost_ends (descFrames : Nat) (ranges : List (Nat × Nat))
    (hr : ∀ r ∈ ranges, r.1 ≤ r.2) :
    Ends (findHost descFrames ranges) s (fun out s' => s' = s ∧ ∃ r ∈ ranges, r.1 = out ∧
      r.1 + descFrames ≤ r.2) Fatal := by
  induction ranges with
  | nil => exact ⟨_, rfl⟩
  | cons r ranges ih =>
    have hle := hr r List.mem_cons_self
    rw [findHost, ends_bind, ends_minus hle, ends_ite]
    refine ⟨fun hfits => ⟨rfl, r, List.mem_cons_self, rfl, by omega⟩, fun _ => ?_⟩
    refine (ih fun q hq => hr q (List.mem_cons_of_mem r hq)).imp_ok fun _ _ h => ?_
    obtain ⟨hs, q, hq, hhost⟩ := h
    exact ⟨hs, q, List.mem_cons_of_mem r hq, hhost⟩

end Memory

end Praesidium
