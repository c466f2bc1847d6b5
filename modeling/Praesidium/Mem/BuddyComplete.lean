import Praesidium.Mem.BuddyRun

/-!
When the buddy allocator finds every block there is room for.

`alloc` looks for one free block that is large enough, so it finds what there is room for as long
as the free blocks are settled.  `alloc` and `free` keep them settled, and a run of frames is
carved into settled blocks; but `add_frames` does not merge a run with the free blocks that it
touches.

    Run Step ⟨new desc, [], []⟩ tr w → NotTouching w.runs → …     (alloc_complete)

Two runs side by side can be two halves of one block that is never found (`alloc_misses`).
-/

namespace Praesidium

namespace Buddy

open Fallible PowBlock

/-- `c` is on the free list of its order. -/
def OnList (b : Buddy) (c : PowBlock) : Prop :=
  c.base < b.nframes ∧ (b.node c.base).free = true ∧ (b.node c.base).order = c.order

/-- `f` is in a block on a free list. -/
def FreeFrame (b : Buddy) (f : Nat) : Prop := ∃ c, OnList b c ∧ f ∈ c

variable {n : Nat} {b : Buddy} {l : Nat → List Nat} {c : PowBlock}

theorem Lists.onList (h : Lists b l) : OnList b c ↔ c ∈ freeBlocks l := by
  rw [mem_freeBlocks]
  constructor
  · rintro ⟨hlt, hfree, ho⟩
    have htop : c.order ≤ MAX_ORDER := ho ▸ h.top _ hlt hfree
    exact ⟨htop, (h.mem _ htop _).mpr ⟨hlt, hfree, ho⟩⟩
  · rintro ⟨htop, hmem⟩
    exact (h.mem _ htop _).mp hmem

theorem Lists.freeFrame (h : Lists b l) {f : Nat} : FreeFrame b f ↔ ∃ c ∈ freeBlocks l, f ∈ c :=
  exists_congr fun _ => and_congr_left fun _ => h.onList

/-- **No false out-of-memory, for runs that do not touch.**  No two buddies below the largest
order are both on the free lists, and where a naturally aligned range of free frames is large
enough, `alloc` returns a block. -/
theorem alloc_complete (desc : List FrameDesc) (hn : desc.length < 0xffffffff) (tr : List Event)
    (w : World) (h : Run Step ⟨new desc, [], []⟩ tr w) (hruns : NotTouching w.runs) :
    (∀ c : PowBlock, c.order < MAX_ORDER → OnList w.buddy c → ¬ OnList w.buddy c.buddy) ∧
      ∀ R : PowBlock, R.Aligned → R.order ≤ MAX_ORDER → (∀ f ∈ R, FreeFrame w.buddy f) →
        ∃ base b', alloc R.order w.buddy = .ok (some base) b' := by
  obtain ⟨l, hs, hset⟩ := run_sound (Nat.le_of_lt hn) h
  have hsettled := hset hruns
  refine ⟨fun c ho hc hb => ?_, fun R hR ho hfree => ?_⟩
  · rw [hs.shape.lists.onList] at hc hb
    have hal := hs.shape.tiles.aligned c (List.mem_append_right _ hc)
    by_cases hlow : c.Low
    · exact hsettled c hc hlow ho (buddy_low hlow ▸ hb)
    · obtain ⟨hbl, hup⟩ := buddy_high hal hlow
      exact hsettled c.buddy hb hbl ho (hup ▸ hc)
  · have htiles : Tiles MAX_ORDER (fun f => ∃ c ∈ freeBlocks l, f ∈ c) (freeBlocks l) :=
      (hs.shape.tiles.perm List.perm_append_comm).left
    obtain ⟨c, hc, hwithin⟩ := hsettled.room htiles R.order R.base ho hR fun f hf =>
      hs.shape.lists.freeFrame.mp (hfree f hf)
    obtain ⟨r, b', he, hr⟩ := (hs.alloc R.order).exists_ok
    rcases hr with ⟨rfl, rfl, hnone⟩ | ⟨base, l', rfl, -, -⟩
    · have := hnone c hc
      have : R.order ≤ c.order := hwithin.order_le
      omega
    · exact ⟨base, b', he⟩

/-- Frames 0 to 3 without frame 2: the runs `[0, 2)` and `[3, 4)` do not touch. -/
theorem alloc_complete_twoRuns :
    ∃ w,
    Run Step ⟨new (List.replicate 4 RESERVED), [], []⟩ [.addFrames 0 2, .addFrames 3 1] w ∧
      ∃ base b', alloc 1 w.buddy = .ok (some base) b' := by
  have hrun : ∃ w, Run Step ⟨new (List.replicate 4 RESERVED), [], []⟩ [.addFrames 0 2,
    .addFrames 3 1] w ∧ w.runs = [(3, 1), (0, 2)] ∧ OnList w.buddy ⟨0, 1⟩ := by
    refine ⟨_, .cons ⟨by decide, fun f _ _ hf => ?_, _, rfl, rfl⟩
      (.cons ⟨by decide, fun f h1 h2 hf => ?_, _, rfl, rfl⟩
      (.nil _)), rfl, by unfold OnList; decide⟩
    · obtain ⟨r, hr, -⟩ := hf
      cases hr
    · obtain ⟨r, hr, h3, h4⟩ := hf
      obtain rfl := List.mem_singleton.mp hr
      dsimp only at h4
      omega
  obtain ⟨w, hw, hruns, hon⟩ := hrun
  have hnt : NotTouching w.runs := by
    rw [hruns]
    unfold NotTouching
    decide
  exact ⟨w, hw, (alloc_complete _ (by decide) _ w hw hnt).2 ⟨0, 1⟩ (by unfold Aligned; decide)
    (by decide) fun f hf => ⟨_, hon, hf⟩⟩

/-- Frames 0 and 1, added one at a time: both are free, and `alloc` finds no block of two. -/
theorem alloc_misses :
    ∃ w,
    Run Step ⟨new (List.replicate 2 RESERVED), [], []⟩ [.addFrames 0 1, .addFrames 1 1] w ∧
      (∀ f ∈ PowBlock.mk 0 1, FreeFrame w.buddy f) ∧ OnList w.buddy ⟨0, 0⟩ ∧
        OnList w.buddy (PowBlock.mk 0 0).buddy ∧
      alloc 1 w.buddy = .ok none w.buddy := by
  have hfree : ∀ b : Buddy, OnList b ⟨0, 0⟩ → OnList b ⟨1, 0⟩ → ∀ f ∈ PowBlock.mk 0 1,
    FreeFrame b f := by
    intro b h0 h1 f hf
    have hlt : f < 2 := (mem_def.mp hf).2
    rcases Nat.lt_or_ge f 1 with hf0 | hf1
    · exact ⟨_, h0, Nat.zero_le f, hf0⟩
    · exact ⟨_, h1, hf1, hlt⟩
  refine ⟨_, .cons ⟨by decide, fun f _ _ hf => ?_, _, rfl, rfl⟩
    (.cons ⟨by decide, fun f h1 h2 hf => ?_, _, rfl, rfl⟩
    (.nil _)), hfree _ (by unfold OnList; decide)
    (by unfold OnList; decide), by unfold OnList; decide, by unfold OnList; decide, rfl⟩
  · obtain ⟨r, hr, -⟩ := hf
    cases hr
  · obtain ⟨r, hr, h3, h4⟩ := hf
    obtain rfl := List.mem_singleton.mp hr
    dsimp only at h4
    omega

end Buddy

end Praesidium
