import Praesidium.Lib.Run
import Praesidium.Mem.BuddyOps

/-!
The buddy allocator over whole runs.

A `World` is the allocator with the blocks it has handed out and the runs of frames it was given.
Any sequence of `add_frames` of new frames, `alloc` and `free` of blocks handed out keeps `Sound`:
free and live blocks tile the frames that were added, the count is that of the free frames, and
each live block has its order on record.

    Run Step ⟨new desc, [], []⟩ tr w → …                       (buddy_sound)

No call faults: every operation such a run may go on with returns.
-/

namespace Praesidium

namespace Buddy

open Fallible PowBlock

/-! ## What every operation keeps -/

structure Sound (n : Nat) (b : Buddy) (l : Nat → List Nat) (live : List PowBlock)
    (A : Nat → Prop) : Prop where
  shape : Shape b l live A
  count : b.freeFrames = total (freeBlocks l)
  recorded : ∀ c ∈ live, (b.node c.base).order = c.order
  frames : b.nframes = n

variable {n : Nat} {b b' : Buddy} {l l' : Nat → List Nat} {live : List PowBlock} {A B : Nat → Prop}
  {c : PowBlock}

theorem Sound.congr (h : Sound n b l live A) (hAB : ∀ f, A f ↔ B f) : Sound n b l live B :=
  ⟨h.shape.congr hAB, h.count, h.recorded, h.frames⟩

theorem freeBlocks_nil : freeBlocks (fun _ => []) = [] := by
  unfold freeBlocks ofLists
  exact List.flatMap_eq_nil_iff.mpr fun o _ => rfl

theorem node_new (desc : List FrameDesc) (i : Nat) : (new desc).node i = RESERVED := by
  unfold new node
  rw [List.getElem?_map]
  cases desc[i]? <;> rfl

theorem head_new (desc : List FrameDesc) (o : Nat) : (new desc).head o = NIL := by
  unfold new head
  rw [List.getElem?_replicate]
  split <;> rfl

/-- A new allocator has no frames. -/
theorem sound_new (desc : List FrameDesc) (hn : desc.length ≤ NIL) :
    Sound desc.length (new desc) (fun _ => []) [] (fun _ => False) := by
  have hframes : (new desc).nframes = desc.length := by
    show desc.length % 0x100000000 = desc.length
    unfold NIL at hn
    omega
  refine ⟨⟨⟨?_, rfl, hframes ▸ hn, fun o _ => head_new desc o, fun _ _ => .nil, fun o _ i =>
    ?_, fun i _ hf => ?_⟩, ?_, fun f hf => hf.elim⟩, ?_, fun c hc => (nomatch hc), hframes⟩
  · rw [hframes]
    exact List.length_map _
  · rw [node_new]
    exact ⟨fun h => (nomatch h), fun h => (nomatch h.2.1)⟩
  · rw [node_new] at hf
    cases hf
  · rw [freeBlocks_nil]
    exact tiles_nil
  · rw [freeBlocks_nil]
    rfl

theorem Shape.perm {held held' : List PowBlock} (h : Shape b l held A) (hp : held.Perm held') :
    Shape b l held' A :=
  ⟨h.lists, h.tiles.perm (hp.append_right _), h.inside⟩

/-- **`alloc`.** -/
theorem Sound.alloc (h : Sound n b l live A) (order : Nat) :
    Ends (alloc order) b (fun r b' =>
      (r = none ∧ b' = b ∧ ∀ c ∈ freeBlocks l, c.order < order) ∨
      (∃ base l', r = some base ∧ Sound n b' l' (⟨base, order⟩ :: live) A ∧
        Taken b b' l l' live A ⟨base, order⟩))
      (fun _ _ => False) := by
  refine (alloc_ends h.shape h.count order).imp_ok fun r b' hr => hr.imp id ?_
  rintro ⟨base, l', rfl, ht⟩
  refine ⟨base, l', rfl, ⟨ht.shape, ?_, fun c hc => ?_, ht.steady.nframes.trans h.frames⟩, ht⟩
  · have := ht.count
    have := ht.total
    have := h.count
    omega
  · rcases List.mem_cons.mp hc with rfl | hc
    · exact ht.recorded
    · exact (ht.steady.orders c hc).trans (h.recorded c hc)

/-- **`free`.** -/
theorem Sound.free (h : Sound n b l live A) (hc : c ∈ live) :
    Ends (free c.base) b (fun _ b' => ∃ l', Sound n b' l' (live.erase c) A ∧
      (Settled MAX_ORDER (freeBlocks l) → Settled MAX_ORDER (freeBlocks l')))
        (fun _ _ => False) := by
  refine (free_ends (h.shape.perm (List.perm_cons_erase hc)) (h.recorded c hc) h.count).imp_ok fun _
    b' hr => ?_
  obtain ⟨l', hr⟩ := hr
  refine ⟨l', ⟨hr.shape, ?_, fun d hd => ?_, hr.steady.nframes.trans h.frames⟩, hr.settled⟩
  · rw [hr.count, hr.total, h.count]
  · exact (hr.steady.orders d hd).trans (h.recorded d (List.mem_of_mem_erase hd))

/-- **`add_frames`.** -/
theorem Sound.addFrames (h : Sound n b l live A) (start count : Nat) (hrange : start + count ≤ n)
    (hnew : ∀ f, start ≤ f → f < start + count → ¬ A f) :
    Ends (addFrames start count) b (fun _ b' => ∃ l' cs,
      Sound n b' l' live (fun f => A f ∨ start ≤ f ∧ f < start + count) ∧
      Carved MAX_ORDER start (start + count) cs ∧ (freeBlocks l').Perm (cs ++ freeBlocks l))
        (fun _ _ => False) := by
  refine (addFrames_ends start count (h.frames ▸ hrange) h.shape h.count hnew).imp_ok fun _ b' hg =>
    ?_
  obtain ⟨l', cs, hg⟩ := hg
  exact ⟨l', cs, ⟨hg.shape, hg.count, fun c hc => (hg.steady.orders c hc).trans (h.recorded c hc),
    hg.steady.nframes.trans h.frames⟩, hg.carved, hg.perm⟩

/-! ## Runs -/

/-- The allocator, the blocks it has handed out, and the runs `(start, count)` it was given. -/
structure World where
  buddy : Buddy
  live : List PowBlock
  runs : List (Nat × Nat)

inductive Event where
  | addFrames (start count : Nat)
  | alloc (order : Nat)
  | free (base : Nat)
  deriving DecidableEq, Repr

/-- `f` is in one of the runs. -/
def Added (runs : List (Nat × Nat)) (f : Nat) : Prop := ∃ r ∈ runs, r.1 ≤ f ∧ f < r.1 + r.2

/-- What the caller may ask of the allocator: new frames in range, any block, and a block handed
out given back. -/
def Step (w : World) : Event → World → Prop
  | .addFrames start count, w' => start + count ≤ w.buddy.nframes ∧
      (∀ f, start ≤ f → f < start + count → ¬ Added w.runs f) ∧
      ∃ b', addFrames start count w.buddy = .ok () b' ∧ w' = ⟨b', w.live, (start, count) :: w.runs⟩
  | .alloc order, w' => ∃ r b', alloc order w.buddy = .ok r b' ∧
      w' = ⟨b', (r.map (PowBlock.mk · order)).toList ++ w.live, w.runs⟩
  | .free base, w' => ∃ c ∈ w.live, c.base = base ∧
      ∃ b', free base w.buddy = .ok () b' ∧ w' = ⟨b', w.live.erase c, w.runs⟩

theorem added_cons (start count : Nat) (runs : List (Nat × Nat)) (f : Nat) :
    Added ((start, count) :: runs) f ↔ Added runs f ∨ start ≤ f ∧ f < start + count := by
  unfold Added
  rw [List.exists_mem_cons_iff]
  exact Or.comm

/-- No run ends where another one starts. -/
def NotTouching (runs : List (Nat × Nat)) : Prop :=
  ∀ r ∈ runs, ∀ r' ∈ runs, 0 < r.2 → 0 < r'.2 → r.1 + r.2 ≠ r'.1

variable {runs : List (Nat × Nat)} {w : World}

theorem NotTouching.tail {r : Nat × Nat} (h : NotTouching (r :: runs)) : NotTouching runs :=
  fun s hs s' hs' => h s (List.mem_cons_of_mem r hs) s' (List.mem_cons_of_mem r hs')

/-- A new run that touches no other is a frame away from them all. -/
theorem NotTouching.gap {start count : Nat} (h : NotTouching ((start, count) :: runs))
    (hnew : ∀ f, start ≤ f → f < start + count → ¬ Added runs f) (f : Nat) :
    ((start ≤ f ∧ f < start + count) → ¬ Added runs (f + 1)) ∧
      (Added runs f → ¬ (start ≤ f + 1 ∧ f + 1 < start + count)) := by
  constructor
  · rintro ⟨h1, h2⟩ ⟨r, hr, h3, h4⟩
    have hf : ¬ (r.1 ≤ f ∧ f < r.1 + r.2) := fun hc => hnew f h1 h2 ⟨r, hr, hc⟩
    have hf' : ¬ f + 1 < start + count := fun hc => hnew (f + 1) (by omega) hc ⟨r, hr, h3, h4⟩
    exact h _ List.mem_cons_self r (List.mem_cons_of_mem _ hr) (by show 0 < count; omega) (by omega)
      (by show start + count = r.1; omega)
  · rintro ⟨r, hr, h3, h4⟩ ⟨h1, h2⟩
    have hf : ¬ (start ≤ f) := fun hc => hnew f hc (by omega) ⟨r, hr, h3, h4⟩
    have hf' : ¬ (r.1 ≤ f + 1 ∧ f + 1 < r.1 + r.2) := fun hc => hnew (f + 1) h1 h2 ⟨r, hr, hc⟩
    exact h r (List.mem_cons_of_mem _ hr) _ List.mem_cons_self (by omega) (by show 0 < count; omega)
      (by show r.1 + r.2 = start; omega)

/-- **One step.** -/
theorem Step.sound {w' : World} {e : Event} (hs : Step w e w')
    (h : Sound n w.buddy l w.live (Added w.runs)) :
    ∃ l', Sound n w'.buddy l' w'.live (Added w'.runs) ∧
      ((NotTouching w.runs → Settled MAX_ORDER (freeBlocks l)) →
        NotTouching w'.runs → Settled MAX_ORDER (freeBlocks l')) := by
  cases e with
  | addFrames start count =>
    obtain ⟨hrange, hnew, b', he, rfl⟩ := hs
    obtain ⟨l', cs, hsound, hcarved, hperm⟩ :=
      (h.addFrames start count (h.frames ▸ hrange) hnew).ok he
    refine ⟨l', hsound.congr fun f => (added_cons start count w.runs f).symm, fun hl hnt => ?_⟩
    have hfree : Tiles MAX_ORDER (fun f => ∃ c ∈ freeBlocks l, f ∈ c) (freeBlocks l) :=
      (h.shape.tiles.perm List.perm_append_comm).left
    have hadded : ∀ f, (∃ c ∈ freeBlocks l, f ∈ c) → Added w.runs f := fun f ⟨c, hc, hf⟩ =>
      (h.shape.tiles.cover f).mpr ⟨c, List.mem_append_right _ hc, hf⟩
    have hboth := hcarved.settled.append (hl hnt.tail) hcarved.tiles hfree fun f =>
      ⟨fun hf hc => (hnt.gap hnew f).1 hf (hadded _ hc), fun hf hc =>
      (hnt.gap hnew f).2 (hadded _ hf) hc⟩
    exact hboth.subset fun c hc => hperm.mem_iff.mp hc
  | alloc order =>
    obtain ⟨r, b', he, rfl⟩ := hs
    rcases (h.alloc order).ok he with ⟨rfl, rfl, -⟩ | ⟨base, l', rfl, hsound, ht⟩
    · exact ⟨l, h, id⟩
    · exact ⟨l', hsound, fun hl hnt => ht.settled (hl hnt)⟩
  | free base =>
    obtain ⟨c, hc, rfl, b', he, rfl⟩ := hs
    obtain ⟨l', hsound, hset⟩ := (h.free hc).ok he
    exact ⟨l', hsound, fun hl hnt => hset (hl hnt)⟩

/-- **Every run.** -/
theorem run_sound {desc : List FrameDesc} (hn : desc.length ≤ NIL) {tr : List Event}
    (h : Run Step ⟨new desc, [], []⟩ tr w) :
    ∃ l, Sound desc.length w.buddy l w.live (Added w.runs) ∧
      (NotTouching w.runs → Settled MAX_ORDER (freeBlocks l)) := by
  refine h.inv (fun w => ∃ l, Sound desc.length w.buddy l w.live (Added w.runs) ∧
    (NotTouching w.runs → Settled MAX_ORDER (freeBlocks l))) ?_
    fun _ _ _ ⟨l, hw, hl⟩ hs =>
      (hs.sound hw).imp fun _ hl' => ⟨hl'.1, hl'.2 hl⟩
  refine ⟨_, (sound_new desc hn).congr fun f => ⟨False.elim, ?_⟩, fun _ => ?_⟩
  · rintro ⟨r, hr, -⟩
    cases hr
  · rw [freeBlocks_nil]
    exact fun c hc => (nomatch hc)

/-- **The allocator is sound over whole runs.**  With `l` the free lists by order: the lists are
well linked and hold exactly the descriptors marked free; free and live blocks are aligned, in
range, pairwise apart and cover exactly the frames added; `free_frames` is the total size of the
free blocks; `alloc` succeeds exactly when a free block is large enough, and then hands out that
many frames that were free; and no operation a caller may ask for faults. -/
theorem buddy_sound (desc : List FrameDesc) (hn : desc.length < 0xffffffff) (tr : List Event)
    (w : World) (h : Run Step ⟨new desc, [], []⟩ tr w) :
    ∃ l : Nat → List Nat,
      w.buddy.nframes = desc.length ∧ Lists w.buddy l ∧
        Tiles MAX_ORDER (Added w.runs) (w.live ++ freeBlocks l) ∧
      (∀ c ∈ w.live ++ freeBlocks l, c.stop ≤ desc.length) ∧
        w.buddy.freeFrames = total (freeBlocks l) ∧
      (∀ order, ∃ r b', alloc order w.buddy = .ok r b' ∧
        (r.isSome ↔ ∃ c ∈ freeBlocks l, order ≤ c.order) ∧
        ∀ base, r = some base → (∀ f ∈ PowBlock.mk base order, ∃ c ∈ freeBlocks l, f ∈ c) ∧
          (b'.node base).order = order ∧ b'.freeFrames + 2 ^ order = w.buddy.freeFrames) ∧
      (∀ start count, start + count ≤ desc.length →
        (∀ f, start ≤ f → f < start + count → ¬ Added w.runs f) →
        ∃ b', addFrames start count w.buddy = .ok () b') ∧
      (∀ c ∈ w.live, ∃ b', free c.base w.buddy = .ok () b') := by
  obtain ⟨l, hs, -⟩ := run_sound (Nat.le_of_lt hn) h
  refine ⟨l, hs.frames, hs.shape.lists, hs.shape.tiles, fun c hc => hs.frames ▸ hs.shape.stop_le hc,
    hs.count, fun order => ?_, fun start count hrange hnew => ?_, fun c hc => ?_⟩
  · obtain ⟨r, b', he, hr⟩ := (hs.alloc order).exists_ok
    refine ⟨r, b', he, ?_⟩
    rcases hr with ⟨rfl, rfl, hnone⟩ | ⟨base, l', rfl, -, ht⟩
    · refine ⟨⟨fun hc => (nomatch hc), fun ⟨c, hc, hle⟩ => ?_⟩, fun base hc => (nomatch hc)⟩
      have := hnone c hc
      omega
    · obtain ⟨d, hd, hwithin⟩ := ht.source
      refine ⟨⟨fun _ => ⟨d, hd, hwithin.order_le⟩, fun _ => rfl⟩, ?_⟩
      rintro _ ⟨⟩
      exact ⟨fun f hf => ⟨d, hd, hwithin.mem hf⟩, ht.recorded, ht.count⟩
  · obtain ⟨_, b', he, -⟩ := (hs.addFrames start count hrange hnew).exists_ok
    exact ⟨b', he⟩
  · obtain ⟨_, b', he, -⟩ := (hs.free hc).exists_ok
    exact ⟨b', he⟩

/-- Frames 1 to 3 of four, as the blocks `[1, 2)` and `[2, 4)`: both handed out, one given back. -/
theorem buddy_sound_threeFrames :
    ∃ w,
    Run Step ⟨new (List.replicate 4 RESERVED), [], []⟩ [.addFrames 1 3, .alloc 0, .alloc 1,
      .free 1] w ∧
      w.live = [⟨2, 1⟩] ∧ ∃ l, Lists w.buddy l ∧ w.buddy.freeFrames = total (freeBlocks l) := by
  have hrun : ∃ w, Run Step ⟨new (List.replicate 4 RESERVED), [], []⟩ [.addFrames 1 3, .alloc 0,
    .alloc 1, .free 1] w ∧ w.live = [⟨2, 1⟩] := by
    refine ⟨_, .cons ⟨by decide, fun f _ _ hf => ?_, _, rfl, rfl⟩
      (.cons ⟨_, _, rfl, rfl⟩ (.cons ⟨_, _, rfl, rfl⟩
      (.cons ⟨⟨1, 0⟩, by decide, rfl, _, rfl, rfl⟩ (.nil _)))), rfl⟩
    obtain ⟨r, hr, -⟩ := hf
    cases hr
  obtain ⟨w, hw, hlive⟩ := hrun
  obtain ⟨l, -, hlists, -, -, hcount, -⟩ := buddy_sound _ (by decide) _ w hw
  exact ⟨w, hw, hlive, l, hlists, hcount⟩

end Buddy

end Praesidium
