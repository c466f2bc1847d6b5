import Praesidium.Kernel.MemoryExact

/-!
Frames handed out after the set-up (`alloc_frames`, `free_frames` in `kernel/src/memory/mod.rs`),
and the regions of the map that are not usable.

Whatever is allocated and freed, the frames handed out are frames that the set-up released, so
they are frames of a usable region (`allocFrames_usable`).  The set-up compares usable regions
with each other only: a region of another kind that overlaps a usable one is not refused.

    init … = .ok r (some fa) → no usable frame in a region of another kind →
      Run Step ⟨some fa, []⟩ tr w → …                                    (unusable_kept)

A map with such an overlap has its reserved frames handed out (`reserved_handedOut`).
-/

namespace Praesidium

namespace Memory

open Fallible PowBlock

/-! ## Allocation -/

def allocFrames (order : Nat) : Prog (Option Nat) := do
  match ← get with
  | none => pure none
  | some fa => do
    let r ← onBuddy (Buddy.alloc order) fa.buddy
    set (some { fa with buddy := r.2 })
    match r.1 with
    | none => pure none
    | some rel => do
      let pfn ← plus 32 fa.basePfn rel
      pure (some (pfnToPhys pfn))

def freeFrames (pa : Nat) : Prog Unit := do
  match ← get with
  | none => pure ()
  | some fa => do
    let rel ← minus (← physToPfn pa) fa.basePfn
    let r ← onBuddy (Buddy.free rel) fa.buddy
    set (some { fa with buddy := r.2 })

/-- `FRAMES`, and the blocks `(address, order)` handed out. -/
structure World where
  frames : Option FrameAllocator
  live : List (Nat × Nat)

inductive Event where
  | allocFrames (order : Nat)
  | freeFrames (pa : Nat)
  deriving DecidableEq, Repr

def Step (w : World) : Event → World → Prop
  | .allocFrames order, w' => ∃ r frames', allocFrames order w.frames = .ok r frames' ∧
      w' = ⟨frames', (r.map (·, order)).toList ++ w.live⟩
  | .freeFrames pa, w' => ∃ c ∈ w.live, c.1 = pa ∧
      ∃ frames', freeFrames pa w.frames = .ok () frames' ∧ w' = ⟨frames', w.live.erase c⟩

/-! ## What a run keeps -/

/-- The block of relative frames `c`, as it is handed out. -/
def handed (base : Nat) (c : PowBlock) : Nat × Nat := (pfnToPhys (base + c.base), c.order)

/-- The allocator is sound on the frames of `A`, relative to `base`, and below 4 GiB. -/
structure Held (base n : Nat) (A : Nat → Prop) (w : World) (b : Buddy)
    (l : Nat → List Nat) (blocks : List PowBlock) : Prop where
  frames : w.frames = some ⟨b, base⟩
  live : w.live = blocks.map (handed base)
  sound : Buddy.Sound n b l blocks A
  low : base + n ≤ HHDM_MAX

variable {base n : Nat} {A : Nat → Prop} {w w' : World} {b : Buddy} {l : Nat → List Nat}
  {blocks : List PowBlock} {c : PowBlock}

theorem pfnToPhys_eq (pfn : Nat) : pfnToPhys pfn = pfn * PAGE_SIZE := Nat.shiftLeft_eq pfn 12

theorem handed_injective (base : Nat) : Function.Injective (handed base) := by
  rintro ⟨b₁, o₁⟩ ⟨b₂, o₂⟩ h
  obtain ⟨h1, h2⟩ := Prod.mk.inj h
  rw [pfnToPhys_eq, pfnToPhys_eq] at h1
  unfold PAGE_SIZE at h1
  dsimp only at h1 h2
  rw [PowBlock.mk.injEq]
  omega

/-- **`alloc_frames`** returns, with a block of frames of `A` or with none. -/
theorem allocFrames_ends (h : Held base n A w b l blocks) (order : Nat) :
    Ends (allocFrames order) w.frames (fun r frames' =>
      (∃ b' l' blocks', Held base n A ⟨frames', (r.map (·, order)).toList ++ w.live⟩ b' l'
        blocks') ∧
      ∀ pa, r = some pa → ∃ rel, pa = pfnToPhys (base + rel) ∧ ∀ f ∈ PowBlock.mk rel order, A f)
        (fun _ _ => False) := by
  unfold allocFrames
  rw [ends_bind, ends_get, h.frames]
  dsimp only
  obtain ⟨r, b', he, hr⟩ := (h.sound.alloc order).exists_ok
  rw [ends_bind, ends_onBuddy he, ends_bind, ends_set]
  rcases hr with ⟨rfl, rfl, -⟩ | ⟨rel, l', rfl, hsound, ht⟩
  · exact ⟨⟨b', l, blocks, rfl, h.live, h.sound, h.low⟩, fun pa hpa => (nomatch hpa)⟩
  · have hmem : PowBlock.mk rel order ∈ PowBlock.mk rel order :: blocks ++ Buddy.freeBlocks l' :=
      List.mem_cons_self
    have hlt : rel < b'.nframes := hsound.shape.base_lt hmem
    have hlow := h.low
    rw [hsound.frames] at hlt
    unfold HHDM_MAX at hlow
    dsimp only
    rw [ends_bind, ends_plus (by omega), ends_pure]
    refine ⟨⟨b', l', _ :: blocks, rfl, ?_, hsound, h.low⟩, ?_⟩
    · rw [List.map_cons, ← h.live]
      rfl
    · rintro _ ⟨⟩
      exact ⟨rel, rfl, fun f hf => (hsound.shape.tiles.cover f).mpr ⟨_, hmem, hf⟩⟩

/-- **`free_frames`** of a block handed out returns. -/
theorem freeFrames_ends (h : Held base n A w b l blocks) (hc : c ∈ blocks) :
    Ends (freeFrames (handed base c).1) w.frames (fun _ frames' => ∃ b' l' blocks',
      Held base n A ⟨frames', w.live.erase (handed base c)⟩ b' l' blocks') (fun _ _ => False) := by
  have hlt : c.base < b.nframes := h.sound.shape.base_lt (List.mem_append_left _ hc)
  have hlow := h.low
  rw [h.sound.frames] at hlt
  unfold HHDM_MAX at hlow
  have hpfn : (handed base c).1 >>> PAGE_SHIFT = base + c.base := by
    show pfnToPhys (base + c.base) >>> PAGE_SHIFT = base + c.base
    rw [shiftRight_page, pfnToPhys_eq]
    exact Nat.mul_div_cancel _ (by decide)
  unfold freeFrames physToPfn
  rw [ends_bind, ends_get, h.frames]
  dsimp only
  rw [hpfn, ends_bind, ends_asPfn (by omega), ends_bind, ends_minus (by omega),
    Nat.add_sub_cancel_left]
  obtain ⟨_, b', he, l', hsound, -⟩ := (h.sound.free hc).exists_ok
  rw [ends_bind, ends_onBuddy he, ends_set]
  refine ⟨b', l', blocks.erase c, rfl, ?_, hsound, h.low⟩
  rw [h.live, List.map_erase (handed_injective base)]

variable {tr : List Event} {regions : List MemRegion} {r : SetUp} {fa : FrameAllocator}

/-- **Every run.** -/
theorem run_held {w₀ : World} (h : Run Step w₀ tr w) (h₀ : Held base n A w₀ b l blocks) :
    ∃ b' l' blocks', Held base n A w b' l' blocks' := by
  refine h.inv (fun w => ∃ b' l' blocks', Held base n A w b' l' blocks') ⟨b, l, blocks, h₀⟩ fun u e
    v hu hs => ?_
  obtain ⟨b', l', blocks', hu⟩ := hu
  cases e with
  | allocFrames order =>
    obtain ⟨r, frames', he, rfl⟩ := hs
    exact ((allocFrames_ends hu order).ok he).1
  | freeFrames pa =>
    obtain ⟨c, hc, rfl, frames', he, rfl⟩ := hs
    rw [hu.live] at hc
    obtain ⟨d, hd, rfl⟩ := List.mem_map.mp hc
    exact (freeFrames_ends hu hd).ok he

/-! ## Regions of other kinds -/

/-- The set-up leaves a sound allocator on the frames it released. -/
theorem Exact.held (h : Exact regions r fa) :
    ∃ A l, Held r.basePfn r.span A ⟨some fa, []⟩ fa.buddy l [] ∧ ∀ f, A f →
      UsableFrame regions (r.basePfn + f) := by
  obtain ⟨tr, runs, -, hrun, hgave⟩ := h.released
  have hlow := h.low
  unfold HHDM_MAX at hlow
  obtain ⟨l, hsound, -⟩ :=
    Buddy.run_sound (by rw [List.length_replicate]; unfold Buddy.NIL; omega) hrun
  rw [List.length_replicate] at hsound
  refine ⟨_, l, ⟨?_, rfl, hsound, h.low⟩, fun f hf => ((hgave _).mp ⟨f, hf, rfl⟩).1⟩
  show some fa = some ⟨fa.buddy, r.basePfn⟩
  rw [← h.base]

/-- Frame `p` has a byte of the region. -/
def Touches (reg : MemRegion) (p : Nat) : Prop :=
  0 < reg.pages.toNat ∧ reg.base.toNat < (p + 1) * PAGE_SIZE ∧
    p * PAGE_SIZE < reg.base.toNat + reg.pages.toNat * PAGE_SIZE

/-- Frame `p` lies in a listed region that is not usable. -/
def Unusable (regions : List MemRegion) (p : Nat) : Prop :=
  ∃ reg ∈ regions, reg.kind ≠ USABLE ∧ Touches reg p

/-- Whatever was allocated and freed before, the frames handed out are usable. -/
theorem allocFrames_usable (hexact : Exact regions r fa) (h : Run Step ⟨some fa, []⟩ tr w)
    {order pa : Nat} {frames' : Option FrameAllocator}
    (ha : allocFrames order w.frames = .ok (some pa) frames') {p : Nat} (h1 : pa / PAGE_SIZE ≤ p)
    (h2 : p < pa / PAGE_SIZE + 2 ^ order) : UsableFrame regions p := by
  obtain ⟨A, l, hheld, hA⟩ := hexact.held
  obtain ⟨b', l', blocks', hw⟩ := run_held h hheld
  obtain ⟨rel, rfl, hrel⟩ := ((allocFrames_ends hw order).ok ha).2 pa rfl
  have hpa : pfnToPhys (r.basePfn + rel) / PAGE_SIZE = r.basePfn + rel := by
    rw [pfnToPhys_eq]
    exact Nat.mul_div_cancel _ (by decide)
  rw [hpa] at h1 h2
  have hp : r.basePfn + (p - r.basePfn) = p := by omega
  rw [← hp]
  refine hA _ (hrel _ (mem_def.mpr ⟨?_, ?_⟩))
  · show rel ≤ p - r.basePfn
    omega
  · show p - r.basePfn < rel + 2 ^ order
    omega

/-- **Memory that is not usable is not handed out, when no usable frame is in it.**  After a
set-up that returns, and any run of allocations and frees, no frame of the descriptor array and
no frame that `alloc_frames` returns lies in a listed region of another kind. -/
theorem unusable_kept (sort : SortByStart) (hhdm : Nat) (regions : List MemRegion)
    (frames : Option FrameAllocator) (r : SetUp) (fa : FrameAllocator)
    (hinit : init sort hhdm regions frames = .ok r (some fa))
    (hkinds : ∀ p, UsableFrame regions p → ¬ Unusable regions p) (tr : List Event) (w : World)
    (h : Run Step ⟨some fa, []⟩ tr w) :
    (∀ p, DescFrame r p → ¬ Unusable regions p) ∧
      ∀ order pa frames', allocFrames order w.frames = .ok (some pa) frames' →
        ∀ p, pa / PAGE_SIZE ≤ p → p < pa / PAGE_SIZE + 2 ^ order → ¬ Unusable regions p := by
  obtain ⟨fa', hfa, hexact⟩ := (init_ends sort hhdm regions).ok hinit
  obtain rfl := Option.some.inj hfa
  exact ⟨fun p hp => hkinds p (hexact.kept p hp), fun order pa frames' ha p h1 h2 =>
    hkinds p (allocFrames_usable hexact h ha h1 h2)⟩

/-- A map with usable frames 1 to 3 and a reserved frame 8. -/
theorem unusable_kept_apart :
    ∃ r fa frames',
    init insertionSort 0 [⟨0x1000, 3, USABLE⟩, ⟨0x8000, 1, 1⟩] none = .ok r (some fa) ∧
      allocFrames 0 (some fa) = .ok (some 0x3000) frames' ∧
        ¬ Unusable [⟨0x1000, 3, USABLE⟩, ⟨0x8000, 1, 1⟩] 3 := by
  have hkinds : ∀ p, UsableFrame [⟨0x1000, 3, USABLE⟩, ⟨0x8000, 1, 1⟩] p →
      ¬ Unusable [⟨0x1000, 3, USABLE⟩, ⟨0x8000, 1, 1⟩] p := by
    rintro p ⟨-, u, hu, hur, -, h2⟩ ⟨reg, hreg, hk, -, h3, -⟩
    rcases List.mem_cons.mp hu with rfl | hu
    · have hp : p < 4 := h2
      rcases List.mem_cons.mp hreg with rfl | hreg
      · exact hk rfl
      · obtain rfl := List.mem_singleton.mp hreg
        have h8 : 0x8000 < (p + 1) * 4096 := h3
        omega
    · obtain rfl := List.mem_singleton.mp hu
      exact absurd hur.1 (by decide)
  have hinit : ∃ r fa frames', init insertionSort 0 [⟨0x1000, 3, USABLE⟩, ⟨0x8000, 1, 1⟩] none =
    .ok r (some fa) ∧ allocFrames 0 (some fa) = .ok (some 0x3000) frames' := ⟨_, _, _, rfl, rfl⟩
  obtain ⟨r, fa, frames', hinit, ha⟩ := hinit
  exact ⟨r, fa, frames', hinit, ha,
    (unusable_kept insertionSort 0 _ none r fa hinit hkinds [] _ (.nil _)).2 0 0x3000 frames' ha 3
    (by decide) (by decide)⟩

/-- Frames 0 and 1 are listed as usable and as reserved: frame 0 holds the descriptors, and frame 1
is handed out. -/
theorem reserved_handedOut :
    ∃ r fa frames',
    init insertionSort 0 [⟨0, 2, USABLE⟩, ⟨0, 2, 1⟩] none = .ok r (some fa) ∧
      DescFrame r 0 ∧ Unusable [⟨0, 2, USABLE⟩, ⟨0, 2, 1⟩] 0 ∧
      allocFrames 0 (some fa) = .ok (some 0x1000) frames' ∧
        Unusable [⟨0, 2, USABLE⟩, ⟨0, 2, 1⟩] 1 := by
  exact ⟨_, _, _, rfl, by decide, ⟨⟨0, 2, 1⟩, by decide, by decide, by unfold Touches; decide⟩, rfl,
    ⟨⟨0, 2, 1⟩, by decide, by decide, by unfold Touches; decide⟩⟩

end Memory

end Praesidium
