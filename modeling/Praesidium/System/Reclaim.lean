import Praesidium.CapCore.Frames
import Praesidium.CapCore.Zeroing
import Praesidium.System.Authority

/-!
Reclaiming frames across capability spaces.

Spaces whose roots are `Untyped`s over disjoint regions share one pool of frames: the
blocks of all of them, with one watermark for each region (`sysPool`).  Grants move and
duplicate blocks between spaces, so an object may outlive its last capability in the
space that made it, and the region's `Untyped` may be reset while a block of it is held
elsewhere: `destroy_slot` and `revoke` look at their own space only
(`delete_zeroes_lent_frame`).

Where every REVOKE and DELETE is `Careful` the pool stays sound, and no operation
zeroes or hands out a frame that a capability of another space names (`reclaim_safe`).
-/

namespace Praesidium

open Fallible CSpace Bump

variable {ι : Type} [DecidableEq ι] {size : ι → Nat}

/-! ## Systems of regions -/

/-- Each space is new, or new with a root `Untyped`; the regions share no frame. -/
structure Start (root : ι → Option (U64 × U32)) (s : System size) : Prop where
  bare : ∀ i, root i = none → s i = CSpace.new
  rooted : ∀ i base frames, root i = some (base, frames) →
    CSpace.setRootUntyped base frames CSpace.new = .ok () (s i)
  apart : ∀ i j, i ≠ j → ∀ r r', root i = some r → root j = some r' →
    r.1.toNat + r.2.toNat ≤ r'.1.toNat ∨ r'.1.toNat + r'.2.toNat ≤ r.1.toNat

/-- The region of a space, empty without a root. -/
def region (root : ι → Option (U64 × U32)) (i : ι) : U64 × U32 := (root i).getD (0, 0)

/-- The frames of all spaces. -/
def sysPool (s : System size) : Pool ι CapType :=
  ⟨{b | ∃ i, b ∈ (s i).blocks}, fun i => (s i).marks⟩

/-- The regions, their allocators and the pool; `irq_control` objects are not retyped, so
no space ever holds one. -/
structure RegionInv (root : ι → Option (U64 × U32)) (s : System size) : Prop where
  apart : ∀ i j, i ≠ j → (region root i).1.toNat + (region root i).2.toNat ≤
    (region root j).1.toNat ∨
    (region root j).1.toNat + (region root j).2.toNat ≤ (region root i).1.toNat
  carver : ∀ i, Carver (region root i).1 (region root i).2 (s i)
  known : ∀ i d, (s i).Live d → ((s i).slot d).cap.capType ≠ .irqControl
  ok : Ok (fun i => (region root i).1.toNat) (fun i => (region root i).2.toNat) (sysPool s)

variable {root : ι → Option (U64 × U32)} {s s' : System size}

omit [DecidableEq ι] in
theorem Start.regions (h : Start root s) (i j : ι) (hij : i ≠ j) :
    (region root i).1.toNat + (region root i).2.toNat ≤ (region root j).1.toNat ∨
      (region root j).1.toNat + (region root j).2.toNat ≤ (region root i).1.toNat := by
  unfold region
  cases hi : root i with
  | none => exact Or.inl (Nat.zero_le _)
  | some r =>
    cases hj : root j with
    | none => exact Or.inr (Nat.zero_le _)
    | some r' => exact h.apart i j hij r r' hi hj

omit [DecidableEq ι] in
/-- A space of the start holds its root at most. -/
theorem Start.live (h : Start root s) (i : ι) (d : Nat) (hd : (s i).Live d) :
    ∃ base frames, (s i).slot d = ⟨⟨.untyped, Rights.RETYPE, base, frames, 0, 0, 0⟩, NIL⟩ := by
  cases hr : root i with
  | none =>
    rw [h.bare i hr] at hd
    exact absurd hd (not_live_empty _ d (slot_new d))
  | some r => exact ⟨r.1, r.2, (live_rootUntyped (h.rooted i r.1 r.2 hr) d hd).2⟩

omit [DecidableEq ι] in
theorem Start.inv (h : Start root s) : RegionInv root s := by
  have hnone : ∀ i d, ¬ (s i).Backed d := by
    rintro i d ⟨hl, hb⟩
    obtain ⟨base, frames, hslot⟩ := h.live i d hl
    rw [hslot] at hb
    cases hb
  refine ⟨h.regions, fun i => ?_, fun i d hl => ?_, ?_, ?_, ?_⟩
  · unfold region
    cases hr : root i with
    | none =>
      rw [h.bare i hr]
      exact .new
    | some r => exact (FrameInv.init (h.rooted i r.1 r.2 hr)).carver
  · obtain ⟨base, frames, hslot⟩ := h.live i d hl
    rw [hslot]
    exact show CapType.untyped ≠ .irqControl by decide
  · rintro i w ⟨u, hu, rfl⟩
    obtain ⟨base, frames, hslot⟩ := h.live i u hu.1
    rw [hslot]
    exact Nat.zero_le _
  · rintro b ⟨i, d, hd, rfl⟩
    exact absurd hd (hnone i d)
  · rintro b ⟨i, d, hd, rfl⟩
    exact absurd hd (hnone i d)

/-! ## Careful steps -/

/-- No other space holds an object that the call zeroes. -/
def SoleHolder (s : System size) (i : ι) (c : Call) : Prop :=
  ∀ d, (s i).LastDoomed c d → ∀ j, j ≠ i → ∀ e, (s j).Live e →
    ((s j).slot e).cap.capType = ((s i).slot d).cap.capType →
    ((s j).slot e).cap.objref ≠ ((s i).slot d).cap.objref

/-- If slot `k` is an `Untyped`, all objects that start in its region hang below it. -/
def AllBelow (s : System size) (i : ι) (k : Nat) : Prop :=
  (s i).IsUntyped k → ∀ j e, (s j).Backed e →
    ((s i).slot k).cap.objref.toNat ≤ ((s j).slot e).cap.objref.toNat →
    ((s j).slot e).cap.objref.toNat < ((s i).slot k).cap.objref.toNat +
    ((s i).slot k).cap.size.toNat → j = i ∧ (s i).Below e k

/-- The condition on REVOKE and DELETE; every other step meets it. -/
def Careful (s : System size) : SysAction ι → Prop
  | .call i c => SoleHolder s i c ∧ ∀ k, c = .revoke k → AllBelow s i k
  | .grant _ _ _ _ _ _ _ => True

def CarefulStep (s : System size) (ev : SysEvent ι) (s' : System size) : Prop :=
  Careful s ev.act ∧ SysStep s ev s'

omit [DecidableEq ι] in
theorem careful_of_not_destroys (s : System size) (i : ι) (c : Call) (hc : ¬ c.Destroys) :
    Careful s (.call i c) := by
  refine ⟨fun d hd => ?_, fun k hk => ?_⟩
  · cases c with
    | revoke | delete => exact absurd trivial hc
    | _ => exact hd.doomed.elim
  · subst hk
    exact absurd trivial hc

/-! ## The pool after a step -/

variable {i j : ι} {cs' : CSpace (size i)} {c : Call} {v : Option U64} {d N : Nat} {cs : CSpace N}
  {e : Cte} {ev : SysEvent ι}

theorem blocks_update (X : Set (Block CapType)) (h : cs'.blocks ⊆ (s i).blocks ∪ X) :
    (sysPool (Function.update s i cs')).blocks ⊆ (sysPool s).blocks ∪ X := by
  rintro b ⟨j, hb⟩
  by_cases e : j = i
  · subst e
    rw [Function.update_self] at hb
    exact (h hb).imp (fun hb => ⟨j, hb⟩) id
  · rw [Function.update_of_ne e] at hb
    exact Or.inl ⟨j, hb⟩

theorem marks_update (r : ι) (hr : r ≠ i) (w : Nat)
    (hw : (sysPool (Function.update s i cs')).mark r w) : (sysPool s).mark r w := by
  change (Function.update s i cs' r).marks w at hw
  rwa [Function.update_of_ne hr] at hw

/-- **Calls keep the pool sound.** -/
theorem RegionInv.call (h : RegionInv root s) (hc : Careful s (.call i c))
    (hexec : c.exec (s i) = .ok v cs') (he : CallEffect (s i) c v cs') :
    Ok (fun i => (region root i).1.toNat) (fun i => (region root i).2.toNat)
      (sysPool (Function.update s i cs')) := by
  have hmark : ∀ w, (sysPool (Function.update s i cs')).mark i w → cs'.marks w := by
    intro w hw
    change (Function.update s i cs' i).marks w at hw
    rwa [Function.update_self] at hw
  rcases call_pool (h.carver i) he with ⟨hb, hm⟩ | ⟨ut, t, f, n, dest, rfl, hr⟩ | ⟨k, rfl,
    hk, hb, hm⟩
  · refine h.ok.shrink (fun b hb' => ?_) (fun r w hw => ?_)
    · rcases blocks_update ∅ (fun x hx => Or.inl (hb hx)) hb' with h' | h'
      · exact h'
      · exact h'.elim
    · by_cases e : r = i
      · subst e
        exact hm w (hmark w hw)
      · exact marks_update r e w hw
  · obtain ⟨hbase, hframes, -⟩ := (h.carver i).region ut ⟨hr.live, hr.untyped⟩
    have hblocks := retyped_blocks hr
    rw [hbase] at hblocks
    have hbudget := hr.budget
    rw [hframes, Nat.mul_comm] at hbudget
    exact h.ok.carve h.apart i _ f.toNat n.toNat t ⟨ut, ⟨hr.live, hr.untyped⟩,
      rfl⟩ hr.frames_pos hbudget
      (blocks_update _ hblocks) (fun w hw => retyped_marks (h.carver i) hr w (hmark w hw))
      (fun r hne w hw => marks_update r hne w hw)
  · -- whatever starts in the region was below `k`, and is gone
    obtain ⟨F, hF⟩ := (h.carver i).tree
    obtain ⟨hbase, hframes, -⟩ := (h.carver i).region k hk
    have hall := hc.2 k rfl hk
    rw [hbase, hframes] at hall
    refine h.ok.reset i (fun b hb' => ?_) ?_ (fun w hw => hm w (hmark w hw)) (fun r hne w hw =>
      marks_update r hne w hw)
    · rcases blocks_update ∅ (fun x hx => Or.inl (hb hx)) hb' with h' | h'
      · exact h'
      · exact h'.elim
    · rintro b ⟨j, d, hd, rfl⟩ ⟨hlo, hhi⟩
      by_cases e : j = i
      · subst e
        rw [Function.update_self] at hd hlo hhi
        obtain ⟨hl, hnd, hty, hslot⟩ := (revoke_survivor hF hexec).2 d hd.1
        have hdk : d ≠ k := by
          rintro rfl
          have := hd.2
          rw [hty, hk.2] at this
          cases this
        rw [hslot hdk] at hlo hhi
        exact hnd (hall j d ⟨hl, by rw [← hty]; exact hd.2⟩ hlo hhi).2
      · rw [Function.update_of_ne e] at hd hlo hhi
        exact e (hall j d hd hlo hhi).1

omit [DecidableEq ι] in
/-- An `Untyped` has no right to be granted. -/
theorem RegionInv.not_untyped (h : RegionInv root s) (hl : (s i).Live d)
    (hg : ((s i).slot d).cap.rights.contains Rights.GRANT = true) :
    ((s i).slot d).cap.capType ≠ .untyped := by
  intro hu
  rw [((h.carver i).region d ⟨hl, hu⟩).2.2] at hg
  exact absurd hg (by decide)

omit [DecidableEq ι] in
theorem untyped_put (hd : d < N) (he : e.cap.capType ≠ .untyped) (u : Nat)
    (hu : (cs.put d e).IsUntyped u) : cs.IsUntyped u ∧ (cs.put d e).slot u = cs.slot u := by
  unfold CSpace.IsUntyped CSpace.Live at hu ⊢
  rw [slot_put cs d u e hd] at hu ⊢
  by_cases h : u = d
  · rw [if_pos h] at hu
    exact absurd hu.2 he
  · rw [if_neg h] at hu ⊢
    exact ⟨hu, rfl⟩

/-- A grant leaves every `Untyped` where it is. -/
theorem grant_untyped {srcSlot dstSlot : Nat} {newRights : Rights} {badge : U64} {mode : GrantMode}
    {a' : CSpace (size i)} {b' : CSpace (size j)} (h : RegionInv root s) (hij : i ≠ j)
    (hg : Granted (s i) srcSlot (s j) dstSlot newRights badge mode a' b') (k : ι) (u : Nat)
    (hu : (Function.update (Function.update s i a') j b' k).IsUntyped u) :
    (s k).IsUntyped u ∧ (Function.update (Function.update s i a') j b' k).slot u =
      (s k).slot u := by
  by_cases hj : k = j
  · subst hj
    have hne := h.not_untyped hg.live hg.grantable
    rw [update_two_right, hg.dst] at hu ⊢
    refine untyped_put hg.inRange ?_ u hu
    exact hne
  · by_cases hi : k = i
    · subst hi
      rw [update_two_left s hij, hg.src] at hu ⊢
      by_cases hm : mode = .move
      · rw [if_pos hm] at hu ⊢
        exact untyped_put hg.live.lt (show CapType.null ≠ .untyped by decide) u hu
      · rw [if_neg hm] at hu ⊢
        exact ⟨hu, rfl⟩
    · rw [update_two_other s a' b' hi hj] at hu ⊢
      exact ⟨hu, rfl⟩

/-- **Grants keep the pool sound.** -/
theorem RegionInv.grant {a : SysAction ι} (h : RegionInv root s) (he : SysEffect s a v s')
    (hkept : ∀ k u, (s' k).IsUntyped u → (s k).IsUntyped u ∧ (s' k).slot u = (s k).slot u)
    (hno : ∀ i c, a ≠ .call i c) :
    Ok (fun i => (region root i).1.toNat) (fun i => (region root i).2.toNat) (sysPool s') := by
  refine h.ok.shrink ?_ ?_
  · rintro b ⟨k, d, hd, rfl⟩
    have horigin := sysEffect_origin he k d hd.1
    have hback := hd.2
    generalize (s' k).slot d = e at horigin hback
    cases horigin with
    | kept hl => exact ⟨k, _, ⟨hl, hback⟩, rfl⟩
    | @call c _ _ => exact absurd rfl (hno k c)
    | @granted j srcSlot _ _ _ _ hl _ _ => exact ⟨j, srcSlot, ⟨hl, hback⟩, rfl⟩
  · rintro k w ⟨u, hu, rfl⟩
    exact ⟨u, (hkept k u hu).1, by rw [(hkept k u hu).2]⟩

/-- Calls make no `irq_control`. -/
theorem Origin.known (h : Origin cs c e)
    (hk : ∀ d, cs.Live d → (cs.slot d).cap.capType ≠ .irqControl) :
    e.cap.capType ≠ .irqControl := by
  rcases h.source with ⟨d, hl, hty, -⟩ | ⟨_, newType, _, _, _, _, -, -, ht, hcap⟩ | ⟨hty, -⟩
  · rw [hty]
    exact hk d hl
  · rw [hcap]
    intro hn
    rw [show newType = .irqControl from hn] at ht
    cases ht
  · rw [hty]
    decide

/-- **Careful steps keep the invariant.** -/
theorem RegionInv.step (h : RegionInv root s) (hs : CarefulStep s ev s') : RegionInv root s' := by
  obtain ⟨act, ret⟩ := ev
  obtain ⟨hc, hs⟩ := hs
  rcases sysStep_spec hs with ⟨v, -, he⟩ | ⟨e, -, rfl⟩
  · have hknown : ∀ i d, (s' i).Live d → ((s' i).slot d).cap.capType ≠ .irqControl := by
      intro i d hd
      have horigin := sysEffect_origin he i d hd
      generalize (s' i).slot d = e at horigin
      cases horigin with
      | kept hl => exact h.known i _ hl
      | call horigin => exact horigin.known (h.known i)
      | @granted j srcSlot _ _ _ _ hl _ _ => exact h.known j srcSlot hl
    cases he with
    | @call i c _ cs' hexec he =>
      refine ⟨h.apart, fun k => ?_, hknown, h.call hc hexec he⟩
      by_cases e : k = i
      · subst e
        rw [Function.update_self]
        exact (h.carver k).call hexec he
      · rw [Function.update_of_ne e]
        exact h.carver k
    | @grant i j srcSlot dstSlot newRights badge mode a' b' hij hg =>
      have hkept := grant_untyped h hij hg
      refine ⟨h.apart, fun k => ?_, hknown, h.grant (.grant hij hg) hkept (fun _ _ => by simp)⟩
      refine (h.carver k).of_kept ?_ (hkept k)
      obtain ⟨F, hF⟩ := (h.carver k).tree
      rcases (SysEffect.grant hij hg).local_effect k with hsame | ⟨act, v', heff⟩
      · rw [hsame]
        exact ⟨F, hF⟩
      · exact heff.tree hF
  · exact h

/-! ## What a careful step zeroes -/

/-- The record names no frame of `[frame, frame + frames)`. -/
def RawCap.Avoids (cap : RawCap) (frame : U64) (frames : U32) : Prop :=
  cap.objref.toNat + cap.size.toNat ≤ frame.toNat ∨ frame.toNat + frames.toNat ≤ cap.objref.toNat

instance (cap : RawCap) (frame : U64) (frames : U32) : Decidable (cap.Avoids frame frames) :=
  inferInstanceAs (Decidable (_ ∨ _))

omit [DecidableEq ι] in
/-- A doomed capability whose object is zeroed is of a retyped type. -/
theorem RegionInv.backed (h : RegionInv root s) (hd : (s i).LastDoomed c d) : (s i).Backed d := by
  refine ⟨hd.live, ?_⟩
  have hnull : ((s i).slot d).cap.capType ≠ .null := fun hn => by
    have hl := hd.live
    unfold CSpace.Live RawCap.isNull at hl
    rw [hn] at hl
    cases hl
  have hknown := h.known i d hd.live
  have hplain := hd.plain
  generalize ((s i).slot d).cap.capType = t at hnull hknown hplain
  cases t <;> first | rfl | exact absurd rfl hnull | exact absurd rfl hknown | exact absurd (by decide) hplain

omit [DecidableEq ι] in
/-- **Nothing held elsewhere is zeroed.** -/
theorem RegionInv.avoids (h : RegionInv root s) (hc : SoleHolder s i c)
    (he : CallEffect (s i) c v cs') {z : U64 × U32} (hz : Zeroes (s i) c z) (hj : j ≠ i) {e : Nat}
    (hb : (s j).Backed e) : ((s j).slot e).cap.Avoids z.1 z.2 := by
  cases hz with
  | @fresh ut newType f n dest k hk =>
    cases he with
    | retype hr =>
      -- the new object lies above the watermark, inside the region
      obtain ⟨hbase, hframes, -⟩ := (h.carver i).region ut ⟨hr.live, hr.untyped⟩
      have hfits := hr.fits k hk
      have hbudget := hr.budget
      have hmul := mul_add_le k n.toNat f.toNat hk
      rw [hframes, Nat.mul_comm] at hbudget
      rw [hbase] at hfits
      exact h.ok.fresh h.apart i _ ⟨ut, ⟨hr.live, hr.untyped⟩, rfl⟩ _ ⟨j, e, hb, rfl⟩
        ⟨newType, (objAt ((s i).slot ut).cap f k).toNat, f.toNat⟩ (by dsimp only; omega)
        (by dsimp only; omega)
  | @last _ d hd =>
    rcases h.ok.apart _ ⟨j, e, hb, rfl⟩ _ ⟨i, d, h.backed hd, rfl⟩ with hsame | hdisj
    · have hty : ((s j).slot e).cap.capType = ((s i).slot d).cap.capType := congrArg Block.tag hsame
      have hob : ((s j).slot e).cap.objref.toNat = ((s i).slot d).cap.objref.toNat :=
        congrArg Block.start hsame
      exact absurd (BitVec.eq_of_toNat_eq hob) (hc d hd j hj e hb.1 hty)
    · exact hdisj

/-- The hook calls of a step, space by space. -/
theorem RegionInv.step_avoids (h : RegionInv root s) (hs : CarefulStep s ev s') (i : ι) :
    ∃ zs, (s' i).zeroed = (s i).zeroed ++ zs ∧
      ∀ z ∈ zs, ∀ j, j ≠ i → ∀ d, (s' j).Backed d → ((s' j).slot d).cap.Avoids z.1 z.2 := by
  have hnone : ∀ {cs : CSpace (size i)}, cs.zeroed = (s i).zeroed →
    ∃ zs, cs.zeroed = (s i).zeroed ++ zs ∧
      ∀ z ∈ zs, ∀ j, j ≠ i → ∀ d, (s' j).Backed d → ((s' j).slot d).cap.Avoids z.1 z.2 :=
    fun hcs => ⟨[], by rw [hcs, List.append_nil], fun z hz => by cases hz⟩
  obtain ⟨act, ret⟩ := ev
  obtain ⟨hc, hs⟩ := hs
  rcases sysStep_spec hs with ⟨v, -, he⟩ | ⟨e, -, rfl⟩
  · cases he with
    | @call k c _ cs' hexec he =>
      by_cases e : i = k
      · subst e
        obtain ⟨F, hF⟩ := (h.carver i).tree
        obtain ⟨zs, hz, hzs⟩ := call_zeroes hF hexec he
        refine ⟨zs, by rw [Function.update_self, hz], fun z hmem j hj d hd => ?_⟩
        rw [Function.update_of_ne hj] at hd ⊢
        exact h.avoids hc.1 he (hzs z hmem) hj hd
      · exact hnone (by rw [Function.update_of_ne e])
    | @grant k j _ _ _ _ mode a' b' hkj hg =>
      refine hnone ?_
      by_cases hj : i = j
      · subst hj
        rw [update_two_right, hg.dst]
        rfl
      · by_cases hk : i = k
        · subst hk
          rw [update_two_left s hkj, hg.src]
          split <;> rfl
        · rw [update_two_other s a' b' hk hj]
  · exact hnone rfl

/-- **Reclaiming is safe when it is careful.**  In every run whose steps are careful, a step
zeroes, and RETYPE hands out, no frame that a capability of another space names after it. -/
theorem reclaim_safe {t u : System size} {tr : List (SysEvent ι)} {ev : SysEvent ι}
    (hstart : Start root s) (hrun : Run CarefulStep s tr t) (hstep : CarefulStep t ev u) :
    (∀ i, ∃ zs, (u i).zeroed = (t i).zeroed ++ zs ∧
      ∀ z ∈ zs, ∀ j, j ≠ i → ∀ d, (u j).Backed d → ((u j).slot d).cap.Avoids z.1 z.2) ∧
    (∀ i ut newType framesPerObj count dest v,
      ev = ⟨.call i (.retype ut newType framesPerObj count dest), .ok v⟩ →
      ∀ k, k < count.toNat → ∀ j, j ≠ i → ∀ d, (u j).Backed d → ((u j).slot d).cap.Avoids
        ((u i).slot (dest + k)).cap.objref ((u i).slot (dest + k)).cap.size) := by
  have h : RegionInv root t := hrun.inv (RegionInv root) hstart.inv (fun _ _ _ hi hs => hi.step hs)
  refine ⟨h.step_avoids hstep, ?_⟩
  rintro i ut newType f n dest v rfl k hk j hj d hd
  obtain ⟨hc, hs⟩ := hstep
  rcases sysStep_spec hs with ⟨v', -, he⟩ | ⟨e, he, -⟩
  · cases he with
    | @call _ _ _ cs' hexec he =>
      rw [Function.update_of_ne hj] at hd ⊢
      rw [Function.update_self]
      have havoid := h.avoids hc.1 he (.fresh hk) hj hd
      cases he with
      | retype hr =>
        rw [hr.made k hk]
        exact havoid
  · cases he

/-! ## Frames held elsewhere -/

/-- The state after one more action. -/
def after (s : System size) (a : SysAction ι) (h : (sysNext s a).isSome = true) : System size :=
  ((sysNext s a).get h).2

theorem start_ownerAndPeer :
    Start (fun i : Party => if i = .owner then some (0, 64) else none) ownerAndPeer := by
  refine ⟨fun i hi => ?_, fun i base frames hi => ?_, fun i j hij r r' hi hj => ?_⟩
  · by_cases e : i = .owner
    · rw [if_pos e] at hi; cases hi
    · exact if_neg e
  · by_cases e : i = .owner
    · subst e
      cases hi
      rfl
    · rw [if_neg e] at hi; cases hi
  · by_cases e : i = .owner
    · by_cases e' : j = .owner
      · exact absurd (e.trans e'.symm) hij
      · rw [if_neg e'] at hj; cases hj
    · rw [if_neg e] at hi; cases hi

/-- The owner of a frame it lent revokes its `Untyped` and retypes it again. -/
def reissued : List (SysEvent Party) × System (fun _ : Party => 4) :=
  (drive sysNext lentFrame.2 [.call .owner (.revoke 0), .call .owner (.retype 0 .frame 1 1 1)]).get
    (by decide)

/-- The owner's frame is granted to the peer, then deleted by the owner: it is zeroed.  Or
the owner revokes its `Untyped`: the frame is handed out again.  Both times the peer
still holds it. -/
theorem delete_zeroes_lent_frame :
    Start (fun i : Party => if i = .owner then some (0, 64) else none) ownerAndPeer ∧
    lentFrame.1.map SysEvent.act =
      [.call .owner (.retype 0 .frame 1 1 1), .grant .owner .peer 1 0 Rights.READ 0 .mint] ∧
    Run SysStep ownerAndPeer lentFrame.1 lentFrame.2 ∧
    (∃ u, SysStep lentFrame.2 ⟨.call .owner (.delete 1), .ok none⟩ u ∧
      (u .owner).zeroed = (lentFrame.2 .owner).zeroed ++ [(0, 1)] ∧
      (u .peer).Backed 0 ∧ ¬ ((u .peer).slot 0).cap.Avoids 0 1) ∧
    (reissued.1.map SysEvent.act = [.call .owner (.revoke 0),
      .call .owner (.retype 0 .frame 1 1 1)] ∧
      Run SysStep lentFrame.2 reissued.1 reissued.2 ∧ ((reissued.2 .owner).slot 1).cap.objref = 0 ∧
      ((reissued.2 .owner).slot 1).cap.size = 1 ∧ (reissued.2 .peer).Backed 0 ∧
        ¬ ((reissued.2 .peer).slot 0).cap.Avoids 0 1) := by
  refine ⟨start_ownerAndPeer, rfl, lentFrame_run, ?_, rfl,
    ?_, by decide, by decide, ⟨by decide, by decide⟩, by decide⟩
  · exact ⟨after lentFrame.2 (.call .owner (.delete 1)) (by decide),
      rfl, by decide, ⟨by decide, by decide⟩, by decide⟩
  · exact run_of_drive step_of_sysNext _ _ reissued (Option.some_get _).symm

/-- The owner keeps one frame and hands the other over for good. -/
def handedFrame : List (SysEvent Party) × System (fun _ : Party => 4) :=
  (drive sysNext ownerAndPeer [.call .owner (.retype 0 .frame 1 2 1),
    .grant .owner .peer 1 0 Rights.READ 0 .move]).get (by decide)

/-- The peer's DELETE zeroes frame 0, not the owner's frame 1. -/
theorem reclaim_safe_handedFrame :
    ∃ u, CarefulStep handedFrame.2 ⟨.call .peer (.delete 0), .ok none⟩ u ∧ (u .owner).Backed 2 ∧
      ∃ zs, (u .peer).zeroed = (handedFrame.2 .peer).zeroed ++ zs ∧
        ∀ z ∈ zs, ((u .owner).slot 2).cap.Avoids z.1 z.2 := by
  have hrun : Run CarefulStep ownerAndPeer handedFrame.1 handedFrame.2 := by
    refine (run_of_drive step_of_sysNext _ _ handedFrame (Option.some_get _).symm).mono
      (fun s ev _ hev hs => ⟨?_, hs⟩)
    have hacts : ∀ ev ∈ handedFrame.1, ev.act = .call .owner (.retype 0 .frame 1 2 1) ∨
        ev.act = .grant .owner .peer 1 0 Rights.READ 0 .move := by decide
    rcases hacts ev hev with h | h
    · rw [h]
      exact careful_of_not_destroys s .owner _ id
    · rw [h]
      trivial
  have hcareful : Careful handedFrame.2 (.call .peer (.delete 0)) := by
    refine ⟨fun d hd j hj e he hty hob => ?_, fun k hk => by cases hk⟩
    have hj : j = .owner := by cases j <;> first | rfl | exact absurd rfl hj
    have hall : ∀ d < 4, ∀ e < 4, ¬ ((handedFrame.2 .peer).Live d ∧ (handedFrame.2 .owner).Live e ∧
        ((handedFrame.2 .owner).slot e).cap.capType = ((handedFrame.2 .peer).slot d).cap.capType ∧
        ((handedFrame.2 .owner).slot e).cap.objref =
        ((handedFrame.2 .peer).slot d).cap.objref) := by decide +kernel
    subst hj
    exact hall d hd.live.lt e he.lt ⟨hd.live, he, hty, hob⟩
  have hstep : CarefulStep handedFrame.2 ⟨.call .peer (.delete 0), .ok none⟩
      (after handedFrame.2 (.call .peer (.delete 0)) (by decide)) := ⟨hcareful, rfl⟩
  have hback : (after handedFrame.2 (.call .peer (.delete 0)) (by decide) .owner).Backed 2 :=
    ⟨by decide, by decide⟩
  obtain ⟨zs, hz, hzs⟩ := (reclaim_safe start_ownerAndPeer hrun hstep).1 .peer
  exact ⟨_, hstep, hback, zs, hz, fun z hmem => hzs z hmem .owner (by decide) 2 hback⟩

end Praesidium
