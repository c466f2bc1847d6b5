import Praesidium.Mem.BuddyComplete

/-!
The layout of the free blocks once everything was given back.

With one run of frames the free blocks are always settled, and when no block is outstanding they
tile the run.  A settled tiling is the one by the widest blocks, so there is only one layout to
come back to (`layout_restored`), whatever was allocated and in whichever order it was freed.
-/

namespace Praesidium

namespace Buddy

open Fallible PowBlock

/-- `alloc` and `free` only. -/
def NoMoreFrames (tr : List Event) : Prop := ∀ start count, .addFrames start count ∉ tr

variable {n : Nat} {b : Buddy} {l : Nat → List Nat}

theorem notTouching_single (start count : Nat) : NotTouching [(start, count)] := by
  intro r hr r' hr' hpos _
  rw [List.mem_singleton.mp hr, List.mem_singleton.mp hr'] at *
  dsimp only at hpos ⊢
  omega

theorem added_single (start count f : Nat) :
    Added [(start, count)] f ↔ start ≤ f ∧ f < start + count := by
  constructor
  · rintro ⟨r, hr, hf⟩
    rw [List.mem_singleton.mp hr] at hf
    exact hf
  · exact fun hf => ⟨_, List.mem_singleton.mpr rfl, hf⟩

/-- Without `add_frames` the runs stay. -/
theorem NoMoreFrames.runs {tr : List Event} {w w' : World} (hno : NoMoreFrames tr)
    (h : Run Step w tr w') : w'.runs = w.runs := by
  induction h with
  | nil => rfl
  | @snoc _ _ tr e _ hs ih =>
    have hruns := ih fun start count hmem => hno start count (List.mem_append_left _ hmem)
    cases e with
    | addFrames start count =>
      exact absurd (List.mem_append_right _ List.mem_cons_self) (hno start count)
    | alloc order =>
      obtain ⟨r, b', _, rfl⟩ := hs
      exact hruns
    | free base =>
      obtain ⟨c, _, _, b', _, rfl⟩ := hs
      exact hruns

/-- With no block outstanding the free blocks are the widest ones of the frames added. -/
theorem Sound.widest {A : Nat → Prop} {c : PowBlock} (h : Sound n b l [] A)
    (hl : Settled MAX_ORDER (freeBlocks l)) : c ∈ freeBlocks l ↔ Widest MAX_ORDER A c :=
  hl.mem_iff h.shape.tiles

/-- **Freeing everything restores the layout.**  After one `add_frames` the free blocks are the
widest
aligned blocks of the run, and so they are again whenever no block is outstanding. -/
theorem layout_restored (desc : List FrameDesc) (hn : desc.length ≤ 0xffffffff) (start count : Nat)
    (hrange : start + count ≤ desc.length) :
    ∃ b, addFrames start count (new desc) = .ok () b ∧
      (∃ l, Lists b l ∧ ∀ c, c ∈ freeBlocks l ↔
        Widest MAX_ORDER (fun f => start ≤ f ∧ f < start + count) c) ∧
      ∀ tr w, NoMoreFrames tr → Run Step ⟨b, [], [(start, count)]⟩ tr w → w.live = [] →
        (∃ l, Lists w.buddy l ∧ ∀ c, c ∈ freeBlocks l ↔
          Widest MAX_ORDER (fun f => start ≤ f ∧ f < start + count) c) ∧
        ∀ c, OnList w.buddy c ↔ OnList b c := by
  have hnone : ∀ f, ¬ Added [] f := fun f ⟨r, hr, _⟩ => (nomatch hr)
  have hnew := (sound_new desc hn).congr fun f => (iff_false_intro (hnone f)).symm
  obtain ⟨_, b, hadd, -⟩ := (hnew.addFrames start count hrange fun f _ _ => hnone f).exists_ok
  have first : Step ⟨new desc, [], []⟩ (.addFrames start count) ⟨b, [], [(start, count)]⟩ :=
    ⟨hnew.frames ▸ hrange, fun f _ _ => hnone f, b, hadd, rfl⟩
  have layout : ∀ tr w, NoMoreFrames tr → Run Step ⟨b, [], [(start, count)]⟩ tr w → w.live = [] →
      ∃ l, Lists w.buddy l ∧ ∀ c, c ∈ freeBlocks l ↔
      Widest MAX_ORDER (fun f => start ≤ f ∧ f < start + count) c := by
    intro tr w hno hrun hlive
    obtain ⟨l, hs, hset⟩ := run_sound hn (Run.cons first hrun)
    rw [hno.runs hrun, hlive] at hs
    rw [hno.runs hrun] at hset
    exact ⟨l, hs.shape.lists, fun c =>
      (hs.congr (added_single start count)).widest (hset (notTouching_single start count))⟩
  have before := layout [] _ (fun _ _ hmem => (nomatch hmem)) (.nil _) rfl
  refine ⟨b, hadd, before, fun tr w hno hrun hlive => ?_⟩
  have after := layout tr w hno hrun hlive
  refine ⟨after, fun c => ?_⟩
  obtain ⟨l, hlists, hl⟩ := before
  obtain ⟨l', hlists', hl'⟩ := after
  rw [hlists.onList, hlists'.onList, hl, hl']

/-- Frames 1 to 3 of four, as the blocks `[1, 2)` and `[2, 4)`. -/
def threeFrames : Buddy where
  desc := [RESERVED, ⟨NIL, NIL, 0, true⟩, ⟨NIL, NIL, 1, true⟩, RESERVED]
  heads := 1 :: 2 :: List.replicate 17 NIL
  nframes := 4
  freeFrames := 3

/-- All three frames are taken one by one and given back in another order. -/
theorem layout_restored_threeFrames :
    addFrames 1 3 (new (List.replicate 4 RESERVED)) = .ok () threeFrames ∧ ∃ w,
      Run Step ⟨threeFrames, [], [(1, 3)]⟩ [.alloc 0, .alloc 0, .alloc 0, .free 2, .free 1, .free 3]
        w ∧ w.live = [] ∧
      OnList threeFrames ⟨2, 1⟩ ∧ ∀ c, OnList w.buddy c ↔ OnList threeFrames c := by
  obtain ⟨b, hadd, -, restored⟩ :=
    layout_restored (List.replicate 4 RESERVED) (by decide) 1 3 (by decide)
  have added : addFrames 1 3 (new (List.replicate 4 RESERVED)) = .ok () threeFrames := rfl
  rw [added] at hadd
  cases hadd
  have hrun : ∃ w, Run Step ⟨threeFrames, [], [(1, 3)]⟩
      [.alloc 0, .alloc 0, .alloc 0, .free 2, .free 1, .free 3] w ∧ w.live = [] :=
    ⟨_, .cons ⟨_, _, rfl, rfl⟩ (.cons ⟨_, _, rfl, rfl⟩ (.cons ⟨_, _, rfl, rfl⟩
      (.cons ⟨⟨2, 0⟩, by decide, rfl, _, rfl, rfl⟩ (.cons ⟨⟨1, 0⟩, by decide, rfl, _, rfl, rfl⟩
      (.cons ⟨⟨3, 0⟩, by decide, rfl, _, rfl, rfl⟩ (.nil _)))))), rfl⟩
  obtain ⟨w, hw, hlive⟩ := hrun
  exact ⟨added, w, hw,
    hlive, by unfold OnList; decide, (restored _ w (by unfold NoMoreFrames; simp) hw hlive).2⟩

end Buddy

end Praesidium
