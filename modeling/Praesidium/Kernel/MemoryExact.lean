import Praesidium.Kernel.MemoryInit

/-!
What the set-up releases, exactly.

The calls of `add_frames` that the set-up makes are a run of the buddy allocator: each is in range
and gives frames that no earlier call gave (`release_ends`).  Together they give the usable frames
of the map but those of the descriptor array.

    init sort hhdm regions stops by a `fatal`, or `Exact regions` holds of its result   (init_exact)
-/

namespace Praesidium

namespace Memory

open Fallible PowBlock

/-! ## Releasing the ranges -/

variable {s : Option FrameAllocator} {n : Nat} {l : Nat → List Nat}

/-- A run of `add_frames` only. -/
def OnlyAdds (tr : List Buddy.Event) : Prop := ∀ e ∈ tr, ∃ start count, e = .addFrames start count

/-- The frames of `ranges` that the set-up releases, relative to `base`. -/
def Released (base descStart descFrames : Nat) (ranges : List (Nat × Nat)) (f : Nat) : Prop :=
  ∃ r ∈ ranges, r.1 ≤ base + f ∧ base + f < r.2 ∧
    (r.1 = descStart → descStart + descFrames ≤ base + f)

variable {base : Nat} {s' : Option FrameAllocator} {w : Buddy.World} {P : Nat → Prop} {b : Buddy}
  {r : SetUp} {host : Nat × Nat}

theorem released_cons {descStart descFrames f : Nat} {r : Nat × Nat} {ranges : List (Nat × Nat)} :
    Released base descStart descFrames (r :: ranges) f ↔
      (r.1 ≤ base + f ∧ base + f < r.2 ∧ (r.1 = descStart → descStart + descFrames ≤ base + f)) ∨
        Released base descStart descFrames ranges f := by
  unfold Released
  rw [List.exists_mem_cons_iff]

/-- The calls made from the world `w` on added the frames of `P`, and gave `b`. -/
def Gave (s : Option FrameAllocator) (w : Buddy.World)
    (P : Nat → Prop) (b : Buddy) (s' : Option FrameAllocator) : Prop :=
  s' = s ∧ ∃ tr runs, OnlyAdds tr ∧ Run Buddy.Step w tr ⟨b, w.live, runs⟩ ∧
    ∀ f, Buddy.Added runs f ↔ Buddy.Added w.runs f ∨ P f

theorem Gave.congr {s : Option FrameAllocator} {P' : Nat → Prop} (h : Gave s w P b s')
    (hP : ∀ f, P f ↔ P' f) : Gave s w P' b s' := by
  obtain ⟨hs, tr, runs, honly, hrun, hadded⟩ := h
  exact ⟨hs, tr, runs, honly, hrun, fun f => (hadded f).trans (or_congr_right (hP f))⟩

/-- **One call** of `add_frames`, for the frames from `first` to `stop`, and what follows it. -/
theorem addRange_ends (h : Buddy.Sound n w.buddy l w.live (Buddy.Added w.runs)) {first stop : Nat}
    (hb : base ≤ first) (hle : first ≤ stop) (hstop : stop ≤ base + n)
    (hnew : ∀ f, Buddy.Added w.runs f → base + f < first) (k : Buddy → Prog Buddy)
    (hk : ∀ (w₁ : Buddy.World) l₁, Buddy.Sound n w₁.buddy l₁ w₁.live (Buddy.Added w₁.runs) →
      (∀ f, Buddy.Added w₁.runs f → base + f < stop) → Ends (k w₁.buddy) s (Gave s w₁ P) Fatal) :
    Ends (do
      let r ← onBuddy (Buddy.addFrames (← minus first base) (← minus stop first)) w.buddy
      k r.2) s (Gave s w (fun f => (first ≤ base + f ∧ base + f < stop) ∨ P f)) Fatal := by
  have hfresh : ∀ f, first - base ≤ f → f < first - base + (stop - first) →
    ¬ Buddy.Added w.runs f := fun f h1 h2 hf => by
    have := hnew f hf
    omega
  obtain ⟨_, b₁, he, -⟩ := (h.addFrames (first - base) (stop - first) (by omega) hfresh).exists_ok
  have hstep : Buddy.Step w (.addFrames (first - base) (stop - first))
      ⟨b₁, w.live, (first - base, stop - first) :: w.runs⟩ :=
      ⟨by rw [h.frames]; omega, hfresh, b₁, he, rfl⟩
  have hadded : ∀ f, Buddy.Added ((first - base, stop - first) :: w.runs) f ↔
      Buddy.Added w.runs f ∨ first ≤ base + f ∧ base + f < stop := fun f => by
    rw [Buddy.added_cons]
    exact or_congr_right (by omega)
  obtain ⟨l₁, hsound, -⟩ := hstep.sound h
  rw [ends_bind, ends_minus hb, ends_bind, ends_minus hle, ends_bind, ends_onBuddy he]
  refine (hk _ l₁ hsound fun f hf => ?_).imp_ok fun b' s' hg => ?_
  · rcases (hadded f).mp hf with hf | hf
    · have := hnew f hf
      omega
    · exact hf.2
  · obtain ⟨hs, tr, runs, honly, hrun, hiff⟩ := hg
    refine ⟨hs, _ :: tr, runs, fun e he => ?_, .cons hstep hrun, fun f => ?_⟩
    · rcases List.mem_cons.mp he with rfl | he
      · exact ⟨_, _, rfl⟩
      · exact honly e he
    · rw [hiff, hadded, or_assoc]

/-- **The loop.** -/
theorem release_ends (base descStart descFrames : Nat) (hn : base + n ≤ HHDM_MAX)
    (ranges : List (Nat × Nat)) (hord : Ranges.Ordered ranges)
    (hin : ∀ r ∈ ranges, base ≤ r.1 ∧ r.2 ≤ base + n)
    (hhost : ∀ r ∈ ranges, r.1 = descStart → r.1 + descFrames ≤ r.2) (w : Buddy.World)
    (h : Buddy.Sound n w.buddy l w.live (Buddy.Added w.runs))
    (hsep : ∀ f, Buddy.Added w.runs f → ∀ r ∈ ranges, base + f < r.1) :
    Ends (release base descStart descFrames ranges w.buddy) s
      (Gave s w (Released base descStart descFrames ranges)) Fatal := by
  induction ranges generalizing w l with
  | nil =>
    refine ⟨rfl, [], w.runs, fun e he => (nomatch he), .nil w, fun f =>
      ⟨Or.inl, fun hf => hf.resolve_right ?_⟩⟩
    rintro ⟨r, hr, -⟩
    cases hr
  | cons r ranges ih =>
    obtain ⟨start, stop⟩ := r
    obtain ⟨hb, hstop⟩ := hin _ List.mem_cons_self
    have hlt : start < stop := hord.nonempty _ List.mem_cons_self
    have hbefore : ∀ f, Buddy.Added w.runs f → base + f < start :=
      fun f hf => hsep f hf _ List.mem_cons_self
    -- the other ranges, from a world with nothing at `stop` or later
    have hrest : ∀ (w₁ : Buddy.World) l₁, Buddy.Sound n w₁.buddy l₁ w₁.live (Buddy.Added w₁.runs) →
        (∀ f, Buddy.Added w₁.runs f → base + f < stop) →
        Ends (release base descStart descFrames ranges w₁.buddy) s
          (Gave s w₁ (Released base descStart descFrames ranges)) Fatal := fun w₁ l₁ h₁ hw₁ =>
      ih hord.tail (fun q hq => hin q (List.mem_cons_of_mem _ hq)) (fun q hq =>
      hhost q (List.mem_cons_of_mem _ hq)) w₁ h₁
        fun f hf q hq => Nat.lt_of_lt_of_le (hw₁ f hf) (hord.le_of_mem hq)
    rw [release, ends_ite]
    refine ⟨fun hds => ?_, fun hds => ?_⟩
    · have hfits : start + descFrames ≤ stop := hhost _ List.mem_cons_self hds
      unfold HHDM_MAX at hn
      rw [ends_bind, ends_plus (by omega), ends_ite]
      refine ⟨fun hlt' => ?_, fun hge => ?_⟩
      · refine (addRange_ends h (by omega) (by omega) hstop (fun f hf => ?_) _ hrest).imp
          (fun b' s' hg => hg.congr fun f => ?_) (fun _ _ hf => hf)
        · have := hbefore f hf
          omega
        · rw [released_cons]
          refine or_congr_left ?_
          show start + descFrames ≤ base + f ∧ base + f < stop ↔
            start ≤ base + f ∧ base + f < stop ∧
            (start = descStart → descStart + descFrames ≤ base + f)
          omega
      · refine (hrest w l h fun f hf => ?_).imp_ok fun b' s' hg => hg.congr fun f => ?_
        · have := hbefore f hf
          omega
        · rw [released_cons]
          refine ⟨Or.inr, fun hf => hf.resolve_left fun hc => ?_⟩
          have := hc.2.2 hds
          have hc2 : base + f < stop := hc.2.1
          omega
    · refine (addRange_ends h hb (by omega) hstop hbefore _ hrest).imp_ok fun b' s' hg =>
        hg.congr fun f => ?_
      rw [released_cons]
      refine or_congr_left ⟨fun hf => ⟨hf.1, hf.2, fun hc => absurd hc hds⟩, fun hf =>
        ⟨hf.1, hf.2.1⟩⟩

/-! ## The whole set-up -/

/-- The frames of the descriptor array. -/
def DescFrame (r : SetUp) (p : Nat) : Prop := r.descStart ≤ p ∧ p < r.descStart + r.descFrames

instance (r : SetUp) : DecidablePred (DescFrame r) := fun p =>
  inferInstanceAs (Decidable (r.descStart ≤ p ∧ p < r.descStart + r.descFrames))

/-- **What the set-up leaves.** -/
structure Exact (regions : List MemRegion) (r : SetUp) (fa : FrameAllocator) : Prop where
  base : fa.basePfn = r.basePfn
  low : r.basePfn + r.span ≤ HHDM_MAX
  /-- the calls of `add_frames` are in range, each gives new frames, and together they give the
  usable frames without those of the descriptors -/
  released : ∃ tr runs, OnlyAdds tr ∧
    Run Buddy.Step ⟨Buddy.new (List.replicate r.span ⟨0, 0, 0, false⟩), [], []⟩ tr ⟨fa.buddy,
    [], runs⟩ ∧
    ∀ p, (∃ f, Buddy.Added runs f ∧ p = r.basePfn + f) ↔ UsableFrame regions p ∧ ¬ DescFrame r p
  free : ∀ p, (∃ f, Buddy.FreeFrame fa.buddy f ∧ p = r.basePfn + f) ↔ UsableFrame regions p ∧
    ¬ DescFrame r p
  /-- the descriptors lie in one usable region, in the frames kept for them -/
  host : ∃ reg ∈ regions, UsableRegion reg ∧ reg.base.toNat ≤ pfnToPhys r.descStart ∧
    pfnToPhys r.descStart + r.span * DESC_BYTES ≤ reg.base.toNat + reg.pages.toNat * PAGE_SIZE
  room : r.span * DESC_BYTES ≤ r.descFrames * PAGE_SIZE
  kept : ∀ p, DescFrame r p → UsableFrame regions p
  count : fa.buddy.freeFrames + r.descFrames = r.totalPages
  total : r.totalPages = ((Finset.range HHDM_MAX).filter (UsableFrame regions)).card

variable {regions : List MemRegion} {ranges : List (Nat × Nat)}

/-- What is known of the ranges once they have passed the overlap check. -/
structure Checked (regions : List MemRegion) (ranges : List (Nat × Nat)) : Prop where
  ordered : Ranges.Ordered ranges
  covers : ∀ p, Ranges.Covers ranges p ↔ UsableFrame regions p
  source : ∀ q ∈ ranges, ∃ r ∈ regions, rangeOf r = some q

theorem checked_of_perm (hperm : ranges.Perm (regions.filterMap rangeOf))
    (hchain : ranges.IsChain fun a b => a.2 ≤ b.1) : Checked regions ranges := by
  have hsource : ∀ q ∈ ranges, ∃ r ∈ regions, rangeOf r = some q := fun q hq =>
    List.mem_filterMap.mp (hperm.mem_iff.mp hq)
  refine ⟨Ranges.ordered_of_chain (fun q hq => ?_) hchain, fun p => ?_, hsource⟩
  · obtain ⟨r, -, hr⟩ := hsource q hq
    exact (rangeOf_eq_some.mp hr).2.2.2
  · rw [← covers_ranges]
    exact exists_congr fun q => and_congr_left fun _ => hperm.mem_iff

theorem Checked.le_max (h : Checked regions ranges) {q : Nat × Nat} (hq : q ∈ ranges) :
    q.2 ≤ HHDM_MAX := by
  obtain ⟨r, -, hr⟩ := h.source q hq
  rw [(rangeOf_eq_some.mp hr).2.2.1]
  exact Nat.min_le_right _ _

theorem Checked.extent (h : Checked regions ranges) :
    Ranges.extent ranges = ((Finset.range HHDM_MAX).filter (UsableFrame regions)).card := by
  refine Ranges.sum_eq_card h.ordered.apart _ fun p => ?_
  rw [h.covers p, Finset.mem_filter, Finset.mem_range]
  exact ⟨And.right, fun hp => ⟨hp.1, hp⟩⟩

/-- The free frames and the frames of the descriptors are the usable ones. -/
theorem card_usable (hbase : ∀ p, UsableFrame regions p → r.basePfn ≤ p)
    (hkept : ∀ p, DescFrame r p → UsableFrame regions p) (S : Finset Nat)
    (hS : ∀ f, f ∈ S ↔ UsableFrame regions (r.basePfn + f) ∧ ¬ DescFrame r (r.basePfn + f)) :
    S.card + r.descFrames = ((Finset.range HHDM_MAX).filter (UsableFrame regions)).card := by
  have hmem : ∀ p, p ∈ (Finset.range HHDM_MAX).filter (UsableFrame regions) ↔
    UsableFrame regions p := fun p => by
    rw [Finset.mem_filter, Finset.mem_range]
    exact ⟨And.right, fun hp => ⟨hp.1, hp⟩⟩
  have hunion : (Finset.range HHDM_MAX).filter (UsableFrame regions) =
      S.image (r.basePfn + ·) ∪ Finset.Ico r.descStart (r.descStart + r.descFrames) := by
    ext p
    rw [hmem, Finset.mem_union, Finset.mem_image, Finset.mem_Ico]
    constructor
    · intro hp
      by_cases hd : DescFrame r p
      · exact .inr hd
      · have hpb : r.basePfn + (p - r.basePfn) = p := Nat.add_sub_of_le (hbase p hp)
        exact .inl ⟨p - r.basePfn, (hS _).mpr (by rw [hpb]; exact ⟨hp, hd⟩), hpb⟩
    · rintro (⟨f, hf, rfl⟩ | hd)
      · exact ((hS f).mp hf).1
      · exact hkept p hd
  have hdisj : Disjoint (S.image (r.basePfn + ·))
    (Finset.Ico r.descStart (r.descStart + r.descFrames)) := by
    refine Finset.disjoint_left.mpr fun p hp hd => ?_
    obtain ⟨f, hf, rfl⟩ := Finset.mem_image.mp hp
    exact ((hS f).mp hf).2 (Finset.mem_Ico.mp hd)
  rw [hunion, Finset.card_union_of_disjoint hdisj, Finset.card_image_of_injective _ fun _ _ h =>
    Nat.add_left_cancel h, Nat.card_Ico, Nat.add_sub_cancel_left]

section

variable (h : Checked regions ranges) (hhost : host ∈ ranges) (hstart : host.1 = r.descStart)
  (hfits : host.1 + r.descFrames ≤ host.2)

include h hhost hstart hfits

/-- The frames released are the usable ones but those of the descriptors. -/
theorem Checked.released (f : Nat) :
    Released r.basePfn r.descStart r.descFrames ranges f ↔
      UsableFrame regions (r.basePfn + f) ∧ ¬ DescFrame r (r.basePfn + f) := by
  rw [← h.covers]
  constructor
  · rintro ⟨q, hq, h1, h2, hkeep⟩
    refine ⟨⟨q, hq, h1, h2⟩, fun hdesc => ?_⟩
    obtain ⟨h3, h4⟩ := hdesc
    obtain rfl := h.ordered.eq_of_mem hq hhost ⟨h1, h2⟩ ⟨by omega, by omega⟩
    have := hkeep hstart
    omega
  · rintro ⟨⟨q, hq, h1, h2⟩, hdesc⟩
    refine ⟨q, hq, h1, h2, fun hqs => ?_⟩
    unfold DescFrame at hdesc
    omega

/-- From the calls of `add_frames` to what they leave. -/
theorem Checked.exact (hbase : ∀ q ∈ ranges, r.basePfn ≤ q.1) (hlow : r.basePfn + r.span ≤ HHDM_MAX)
    (hroom : r.span * DESC_BYTES ≤ r.descFrames * PAGE_SIZE)
    (htotal : r.totalPages = Ranges.extent ranges)

    (hg : Gave s ⟨Buddy.new (List.replicate r.span ⟨0, 0, 0, false⟩), [],
    []⟩ (Released r.basePfn r.descStart r.descFrames ranges) b s') :
    Exact regions r ⟨b, r.basePfn⟩ := by
  obtain ⟨-, tr, runs, honly, hrun, hadded⟩ := hg
  have hspan : r.span < Buddy.NIL := by
    unfold HHDM_MAX at hlow
    unfold Buddy.NIL
    omega
  obtain ⟨l, hsound, -⟩ :=
    Buddy.run_sound (by rw [List.length_replicate]; exact Nat.le_of_lt hspan) hrun
  have hgave : ∀ f, Buddy.Added runs f ↔ UsableFrame regions (r.basePfn + f) ∧
    ¬ DescFrame r (r.basePfn + f) := fun f => by
    rw [hadded f, ← h.released hhost hstart hfits f]
    refine ⟨fun hf => hf.resolve_left ?_, Or.inr⟩
    rintro ⟨q, hq, -⟩
    cases hq
  have hfree : ∀ f, Buddy.FreeFrame b f ↔ Buddy.Added runs f := fun f => by
    rw [hsound.shape.lists.freeFrame, hsound.shape.tiles.cover f]
    exact Iff.rfl
  have hge : ∀ p, UsableFrame regions p → r.basePfn ≤ p := fun p hp => by
    obtain ⟨q, hq, h1, -⟩ := (h.covers p).mpr hp
    exact Nat.le_trans (hbase q hq) h1
  have hkept : ∀ p, DescFrame r p → UsableFrame regions p := fun p hp => by
    obtain ⟨h1, h2⟩ := hp
    exact (h.covers p).mp ⟨host, hhost, by omega, by omega⟩
  -- relative frames to frames
  have htranslate : ∀ P : Nat → Prop, (∀ f, P f ↔ UsableFrame regions (r.basePfn + f) ∧
    ¬ DescFrame r (r.basePfn + f)) →
      ∀ p, (∃ f, P f ∧ p = r.basePfn + f) ↔ UsableFrame regions p ∧ ¬ DescFrame r p := by
    intro P hP p
    constructor
    · rintro ⟨f, hf, rfl⟩
      exact (hP f).mp hf
    · intro hp
      have hpb : r.basePfn + (p - r.basePfn) = p := Nat.add_sub_of_le (hge p hp.1)
      exact ⟨p - r.basePfn, (hP _).mpr (by rw [hpb]; exact hp), hpb.symm⟩
  refine ⟨rfl, hlow, ⟨tr, runs, honly, hrun, htranslate _ hgave⟩, htranslate _ fun f =>
    (hfree f).trans (hgave f), ?_, hroom, hkept, ?_, htotal.trans h.extent⟩
  · obtain ⟨reg, hreg, hrange⟩ := h.source host hhost
    obtain ⟨hu, h1, h2, -⟩ := rangeOf_eq_some.mp hrange
    have hal := hu.2.1
    refine ⟨reg, hreg, hu, ?_⟩
    unfold pfnToPhys
    rw [Nat.shiftLeft_eq]
    unfold PAGE_SHIFT
    unfold PAGE_SIZE at *
    omega
  · have hcard := card_usable hge hkept ((Finset.range HHDM_MAX).filter fun f =>
      UsableFrame regions (r.basePfn + f) ∧ ¬ DescFrame r (r.basePfn + f)) fun f => by
        rw [Finset.mem_filter, Finset.mem_range]
        exact ⟨And.right, fun hf => ⟨by have := hf.1.1; omega, hf⟩⟩
    have hcount : b.freeFrames = total (Buddy.freeBlocks l) := hsound.count
    have htiles := hsound.shape.tiles.total_eq_card ((Finset.range HHDM_MAX).filter fun f =>
      UsableFrame regions (r.basePfn + f) ∧ ¬ DescFrame r (r.basePfn + f)) fun f => by
        rw [hgave f, Finset.mem_filter, Finset.mem_range]
        exact ⟨And.right, fun hf => ⟨by have := hf.1.1; omega, hf⟩⟩
    rw [List.nil_append] at htiles
    show b.freeFrames + r.descFrames = r.totalPages
    rw [hcount, htiles, hcard, htotal, h.extent]

end

theorem le_divCeil_mul (a : Nat) : a ≤ divCeil a PAGE_SIZE * PAGE_SIZE := by
  unfold divCeil PAGE_SIZE
  split <;> omega

/-- The direct map of the low 4 GiB at `hhdm` runs over the end of the address space. -/
def Beyond (hhdm : Nat) : Prop := 0x10000000000000000 < hhdm + IDENTITY_BYTES

theorem init_ends (sort : SortByStart) (hhdm : Nat) (regions : List MemRegion) :
    Ends (init sort hhdm regions) s (fun r s' => ∃ fa, s' = some fa ∧ Exact regions r fa)
      (fun e s' => Fatal e s' ∨ e = .overflow ∧ Beyond hhdm) := by
  unfold init
  rw [ends_bind, ends_refuseIf]
  refine ⟨fun _ => .inl ⟨_, rfl⟩, fun _ => ?_⟩
  rw [ends_bind]
  refine (collect_ends regions []).imp (fun found s₁ hc => ?_) (fun _ _ h => .inl h)
  obtain ⟨rfl, rfl⟩ := hc
  rw [List.nil_append, ends_bind, ends_refuseIf]
  refine ⟨fun _ => .inl ⟨_, rfl⟩, fun hne => ?_⟩
  have hperm := sort.perm (regions.filterMap rangeOf)
  generalize sort.run (regions.filterMap rangeOf) = ranges at hperm ⊢
  rw [ends_bind]
  refine (refuseOverlap_ends ranges).imp (fun _ s₂ hc => ?_) (fun _ _ h => .inl h)
  obtain ⟨rfl, hchain⟩ := hc
  have h := checked_of_perm hperm hchain
  cases ranges with
  | nil => exact absurd hperm.symm.eq_nil hne
  | cons q ranges =>
    have hlast : (q :: ranges).getLastD (0, 0) ∈ q :: ranges := by
      rw [List.getLastD_cons]
      exact List.getLastD_mem_cons
    have hmax : ((q :: ranges).getLastD (0, 0)).2 ≤ HHDM_MAX := h.le_max hlast
    have hhigh := fun r hr => h.ordered.le_last (q := r) hr (0, 0)
    generalize ((q :: ranges).getLastD (0, 0)).2 = stop at hmax hhigh ⊢
    have hq := h.ordered.nonempty q List.mem_cons_self
    have hqs := hhigh q List.mem_cons_self
    have hle : ∀ r ∈ q :: ranges, r.1 ≤ r.2 := fun r hr => Nat.le_of_lt (h.ordered.nonempty r hr)
    have hext : Ranges.extent (q :: ranges) ≤ HHDM_MAX := by
      have hcard := Finset.card_filter_le (Finset.range HHDM_MAX) (UsableFrame regions)
      rw [Finset.card_range] at hcard
      rw [h.extent]
      exact hcard
    unfold HHDM_MAX at hmax hext
    -- the span is the last end less the first start
    have hbytes : saturatingMul (stop - q.1) DESC_BYTES = (stop - q.1) * DESC_BYTES := by
      unfold saturatingMul DESC_BYTES
      omega
    have hframes : divCeil ((stop - q.1) * DESC_BYTES) PAGE_SIZE < 0x100000000 := by
      unfold divCeil DESC_BYTES PAGE_SIZE
      split <;> omega
    have hhead : (q :: ranges).headD (0, 0) = q := rfl
    rw [hhead, ends_bind, ends_minus (show q.1 ≤ stop by omega), ends_bind]
    refine (sumPages_ends (q :: ranges) 0 hle (by omega)).imp (fun total s₃ ht =>
      ?_) (fun _ _ h => .inl h)
    obtain ⟨rfl, rfl⟩ := ht
    rw [ends_bind, hbytes, ends_asPfn hframes, ends_bind]
    refine (findHost_ends _ (q :: ranges) hle).imp (fun descStart s₄ hf => ?_) (fun _ _ h => .inl h)
    obtain ⟨rfl, host, hhost, hstart, hfits⟩ := hf
    generalize hdf : divCeil ((stop - q.1) * DESC_BYTES) PAGE_SIZE = descFrames at hframes hfits ⊢
    have hhostq := h.ordered.nonempty host hhost
    have hhosts := hhigh host hhost
    have hphys : pfnToPhys descStart < 0x100000000 := by
      unfold pfnToPhys PAGE_SHIFT
      rw [Nat.shiftLeft_eq]
      omega
    rw [ends_bind, ends_physToVirt]
    refine ⟨fun hover => .inr ⟨rfl, by unfold Beyond IDENTITY_BYTES; omega⟩, fun _ => ?_⟩
    rw [ends_bind]
    have hnew := Buddy.sound_new (List.replicate (stop - q.1) ⟨0, 0, 0, false⟩)
      (by rw [List.length_replicate]; unfold Buddy.NIL; omega)
    rw [List.length_replicate] at hnew
    have hnone : ∀ f, ¬ Buddy.Added [] f := fun f ⟨r, hr, _⟩ => (nomatch hr)
    refine (release_ends q.1 descStart descFrames (by unfold HHDM_MAX; omega) (q :: ranges)
      h.ordered (fun r hr => ⟨h.ordered.head_le hr, ?_⟩) (fun r hr hrs => ?_)
      ⟨Buddy.new (List.replicate (stop - q.1) ⟨0, 0, 0, false⟩), [], []⟩
      (hnew.congr fun f => ⟨False.elim, hnone f⟩) (fun f hf => absurd hf (hnone f))).imp
      (fun b s₅ hg => ?_) (fun _ _ h => .inl h)
    · have := hhigh r hr
      omega
    · have hr' := h.ordered.nonempty r hr
      obtain rfl := h.ordered.eq_of_mem hr hhost ⟨Nat.le_refl _, hr'⟩ ⟨by omega, by omega⟩
      exact hfits
    · show ∃ fa, some (FrameAllocator.mk b q.1) = some fa ∧ Exact regions _ fa
      refine ⟨_, rfl, h.exact hhost hstart hfits (fun r hr => h.ordered.head_le hr) ?_ ?_
        (Nat.zero_add _) hg⟩
      · show q.1 + (stop - q.1) ≤ HHDM_MAX
        unfold HHDM_MAX
        omega
      · show (stop - q.1) * DESC_BYTES ≤ descFrames * PAGE_SIZE
        rw [← hdf]
        exact le_divCeil_mul _

/-- **The set-up is exact on any map.**  It stops by a call of `fatal`, or every call of
`add_frames` is in range and gives new frames, together the usable frames below 4 GiB without
those of the descriptor array, which lies in one usable region; the count of free frames is that
of the usable ones less the descriptors'.  Nothing overflows and no cast drops bits, as long as
the direct map of the low 4 GiB is in the address space. -/
theorem init_exact (sort : SortByStart) (hhdm : Nat)
    (hh : hhdm + IDENTITY_BYTES ≤ 0x10000000000000000) (regions : List MemRegion)
    (frames : Option FrameAllocator) :
    (∃ msg frames', init sort hhdm regions frames = .error (.fatal msg) frames') ∨
      (∃ r fa, init sort hhdm regions frames = .ok r (some fa) ∧ Exact regions r fa) := by
  have h := init_ends (s := frames) sort hhdm regions
  cases hm : init sort hhdm regions frames with
  | ok r s' =>
    obtain ⟨fa, rfl, hexact⟩ := h.ok hm
    exact .inr ⟨r, fa, rfl, hexact⟩
  | error e s' =>
    rcases h.error hm with ⟨msg, rfl⟩ | ⟨-, hbeyond⟩
    · exact .inl ⟨msg, s', rfl⟩
    · exact absurd hh (Nat.not_le_of_lt hbeyond)

/-- Frames 1 to 3 are usable; the descriptors take frame 1. -/
theorem init_exact_threeFrames :
    ∃ r fa, init insertionSort 0 [⟨0x1000, 3, USABLE⟩] none = .ok r (some fa) ∧
    r = ⟨1, 3, 3, 1, 1⟩ ∧ Exact [⟨0x1000, 3, USABLE⟩] r fa := by
  have hinit : ∃ fa, init insertionSort 0 [⟨0x1000, 3, USABLE⟩] none = .ok ⟨1, 3, 3, 1,
    1⟩ (some fa) := ⟨_, rfl⟩
  obtain ⟨fa, hfa⟩ := hinit
  rcases init_exact insertionSort 0 (by decide) [⟨0x1000, 3, USABLE⟩] none with ⟨msg, t, hf⟩ | ⟨r,
    fa', hok, hexact⟩
  · rw [hfa] at hf
    cases hf
  · rw [hfa] at hok
    cases hok
    exact ⟨_, _, hfa, rfl, hexact⟩

end Memory

end Praesidium
