import Praesidium.CapCore.Frames
import Praesidium.CapCore.Zeroing

/-!
Zeroing is exact within a space.

RETYPE clears each object before any capability names it: it goes the same way with a
hook that looks for one at each call (`retype_zeroFirst`).  Every other operation clears
the objects whose last capability it destroys, each once:

    CallEffect cs c v cs' → Clears cs cs'        (call_clears, c not a RETYPE)

where `Clears cs cs'` lists the blocks `cs.blocks \ cs'.blocks` (`Bump.Frees`) beside the
hook calls made.  One destruction clears (`destroyed_clears`), and so does a chain of
them (`sweep_clears`).  Two things make the list right: an object is known by its type
and frame number, since blocks do not overlap (`FrameInv.named`), and a type that the
hook does not spare can be retyped (`Plain`).
-/

namespace Praesidium

open Fallible CSpace Bump

variable {N : Nat} {base : U64} {frames : U32} {cs cs' t : CSpace N}

/-- The hook call that clears a block. -/
def zeroCall (b : Block CapType) : U64 × U32 := (BitVec.ofNat 64 b.start, BitVec.ofNat 32 b.len)

theorem zeroCall_block (cap : RawCap) : zeroCall cap.block = (cap.objref, cap.size) := by
  simp [zeroCall, RawCap.block]

theorem retypeable_not_linear (ty : CapType) (h : isRetypeable ty = true) : ty ∉ linearTypes := by
  revert h
  cases ty <;> decide

/-! ## What the hook spares -/

/-- Every capability is of a type the hook spares or of one that RETYPE makes. -/
def Plain (cs : CSpace N) : Prop :=
  ∀ d, cs.Live d → (cs.slot d).cap.capType ∈ linearTypes ∨
    isRetypeable (cs.slot d).cap.capType = true

theorem Plain.new : Plain (CSpace.new : CSpace N) :=
  fun d hd => absurd hd (not_live_empty _ d (slot_new d))

variable {c : Call} {v : Option U64} {b : Boot} {d : Nat} {tr : List Event} {ev : Event}

theorem Plain.call (h : Plain cs) (he : CallEffect cs c v cs') : Plain cs' := by
  intro d hd
  rcases (call_origin he d hd).source with ⟨k, hk, hty, -⟩ | ⟨_, newType, _, _, _, _, -, -, hret,
    hcap⟩ | ⟨hty, -⟩
  · rw [hty]
    exact h k hk
  · rw [hcap]
    exact Or.inr hret
  · rw [hty]
    exact Or.inl (by decide)

theorem Plain.boot (h : Plain cs) (hb : Booted cs b cs')
    (hty : (b.cap cs.nextObj).capType ∈ linearTypes) : Plain cs' := by
  intro d hd
  unfold CSpace.Live at hd
  rw [hb.slot d] at hd ⊢
  by_cases e : d = b.slot
  · rw [if_pos e]
    exact Or.inl hty
  · rw [if_neg e] at hd ⊢
    exact h d hd

/-! ## Destructions -/

/-- An object is known by its type and its frame number. -/
def Named (cs : CSpace N) : Prop :=
  ∀ d k, cs.Backed d → cs.Backed k → (cs.slot k).cap.capType = (cs.slot d).cap.capType →
    (cs.slot k).cap.objref = (cs.slot d).cap.objref → (cs.slot k).cap.block = (cs.slot d).cap.block

theorem FrameInv.named (h : FrameInv base frames cs) : Named cs := by
  intro d k hd hk _ hob
  refine h.ok.same _ _ ⟨k, hk, rfl⟩ ⟨d, hd, rfl⟩ ?_
  show (cs.slot k).cap.objref.toNat = (cs.slot d).cap.objref.toNat
  rw [hob]

/-- The hook calls from `cs` to `cs'` are those of the blocks that are gone. -/
def Clears (cs cs' : CSpace N) : Prop :=
  ∃ L : List (Block CapType), cs'.zeroed = cs.zeroed ++ L.map zeroCall ∧
    Frees cs.blocks cs'.blocks L

theorem Clears.of_same (hz : cs'.zeroed = cs.zeroed) (hb : cs'.blocks = cs.blocks) :
    Clears cs cs' := by
  refine ⟨[], ?_, ?_⟩
  · simp [hz]
  · rw [hb]
    exact Frees.refl _

theorem Clears.trans (h : Clears cs t) (h' : Clears t cs') : Clears cs cs' := by
  obtain ⟨L, hz, hL⟩ := h
  obtain ⟨L', hz', hL'⟩ := h'
  refine ⟨L ++ L', ?_, hL.trans hL'⟩
  rw [hz', hz, List.map_append, List.append_assoc]

/-- What is left after a destruction. -/
theorem CSpace.Destroyed.backed (hd : Destroyed cs d t) (k : Nat) (hk : t.Backed k) :
    k ≠ d ∧ cs.Backed k ∧ t.slot k = cs.slot k := by
  obtain ⟨hne, hl⟩ := (hd.live_iff k).mp hk.1
  have hslot : t.slot k = cs.slot k := by
    refine hd.frame k hne fun hc => ?_
    have hty := hk.2
    rw [hd.credit k hc, show (cs.slot k).cap.capType = .sched from hc.2.2.2] at hty
    cases hty
  refine ⟨hne, ⟨hl, ?_⟩, hslot⟩
  rw [← hslot]
  exact hk.2

theorem CSpace.Destroyed.backed_of (hd : Destroyed cs d t) (k : Nat) (hne : k ≠ d)
    (hk : cs.Backed k) : t.Backed k ∧ t.slot k = cs.slot k := by
  have hslot : t.slot k = cs.slot k := by
    refine hd.frame k hne fun hc => ?_
    have hty := hk.2
    rw [show (cs.slot k).cap.capType = .sched from hc.2.2.2] at hty
    cases hty
  refine ⟨⟨(hd.live_iff k).mpr ⟨hne, hk.1⟩, ?_⟩, hslot⟩
  rw [hslot]
  exact hk.2

theorem CSpace.Destroyed.named (hd : Destroyed cs d t) (h : Named cs) : Named t := by
  intro i j hi hj hty hob
  obtain ⟨-, hi', ei⟩ := hd.backed i hi
  obtain ⟨-, hj', ej⟩ := hd.backed j hj
  rw [ei, ej] at hty hob ⊢
  exact h i j hi' hj' hty hob

theorem CSpace.Destroyed.plain (hd : Destroyed cs d t) (h : Plain cs) : Plain t := by
  intro k hk
  obtain ⟨hne, hl⟩ := (hd.live_iff k).mp hk
  obtain ⟨-, size, hcap⟩ := hd.kept k hne
  rw [hcap]
  exact h k hl

/-- **One destruction** clears the object if this was its last capability, and else nothing. -/
theorem destroyed_clears (hp : Plain cs) (hn : Named cs) (hl : cs.Live d) (hd : Destroyed cs d t) :
    Clears cs t := by
  have hsub : t.blocks ⊆ cs.blocks := by
    rintro b ⟨k, hk, rfl⟩
    obtain ⟨-, hk', hslot⟩ := hd.backed k hk
    exact ⟨k, hk', by rw [hslot]⟩
  have hother : ∀ k, k ≠ d → cs.Backed k → (cs.slot k).cap.block ∈ t.blocks := by
    intro k hne hk
    obtain ⟨hk', hslot⟩ := hd.backed_of k hne hk
    exact ⟨k, hk', by rw [hslot]⟩
  rcases hd.zeroed with ⟨⟨hty, hlast⟩, hz⟩ | ⟨hlast, hz⟩
  · have hdb : cs.Backed d := ⟨hl, (hp d hl).resolve_left hty⟩
    refine ⟨[(cs.slot d).cap.block], ?_, hsub, List.nodup_singleton _, fun b => ?_⟩
    · rw [hz, List.map_singleton, zeroCall_block]
    rw [List.mem_singleton]
    constructor
    · rintro rfl
      refine ⟨⟨d, hdb, rfl⟩, ?_⟩
      rintro ⟨k, hk, hblock⟩
      obtain ⟨hne, hk', hslot⟩ := hd.backed k hk
      rw [hslot] at hblock
      injection hblock with htag hstart _
      exact hlast k hne hk'.1 htag.symm (BitVec.eq_of_toNat_eq hstart.symm)
    · rintro ⟨⟨k, hk, rfl⟩, hgone⟩
      by_cases e : k = d
      · rw [e]
      · exact absurd (hother k e hk) hgone
  · -- another capability of this type names the object, and it names the same block
    refine ⟨[], by simp [hz], hsub, List.nodup_nil, fun b => ⟨fun hb => (by cases hb), ?_⟩⟩
    rintro ⟨⟨k, hk, rfl⟩, hgone⟩
    exfalso
    by_cases e : k = d
    · subst e
      apply hlast
      refine ⟨retypeable_not_linear _ hk.2, fun j hne hj hty hob => hgone ?_⟩
      have hjb : cs.Backed j := ⟨hj, by rw [hty]; exact hk.2⟩
      rw [← hn k j hk hjb hty hob]
      exact hother j hne hjb
    · exact hgone (hother k e hk)

theorem sweep_clears {c : Nat} (hp : Plain cs) (hn : Named cs) (hs : Sweep c cs t) :
    Plain t ∧ Named t ∧ Clears cs t := by
  induction hs with
  | refl => exact ⟨hp, hn, .of_same rfl rfl⟩
  | tail _ hd ih =>
    obtain ⟨d, -, hl, hd⟩ := hd
    obtain ⟨hpu, hnu, hcu⟩ := ih
    exact ⟨hd.plain hpu, hd.named hnu, hcu.trans (destroyed_clears hpu hnu hl hd)⟩

/-- Resetting a watermark touches no object. -/
theorem reclaimed_backed (c : Nat) (hc : c < N) (d : Nat) :
    ((t.reclaimed c).Backed d ↔ t.Backed d) ∧ (t.Backed d → (t.reclaimed c).slot d = t.slot d) := by
  by_cases h : d = c ∧ (t.slot c).cap.capType = .untyped
  · have hnot : ¬ t.Backed d := by
      rintro ⟨-, hty⟩
      rw [h.1, h.2] at hty
      cases hty
    refine ⟨⟨fun hd => ?_, fun hd => absurd hd hnot⟩, fun hd => absurd hd hnot⟩
    have hty := hd.2
    rw [slot_reclaimed t c d hc, if_pos h, show (t.slot c).cap.capType = .untyped from h.2] at hty
    cases hty
  · have hslot : (t.reclaimed c).slot d = t.slot d := by rw [slot_reclaimed t c d hc, if_neg h]
    unfold CSpace.Backed
    rw [live_reclaimed t c d hc, hslot]
    exact ⟨Iff.rfl, fun _ => rfl⟩

theorem reclaimed_blocks (c : Nat) (hc : c < N) : (t.reclaimed c).blocks = t.blocks := by
  ext b
  constructor
  · rintro ⟨d, hd, rfl⟩
    have hd' := (reclaimed_backed c hc d).1.mp hd
    exact ⟨d, hd', by rw [(reclaimed_backed c hc d).2 hd']⟩
  · rintro ⟨d, hd, rfl⟩
    exact ⟨d, (reclaimed_backed c hc d).1.mpr hd, by rw [(reclaimed_backed c hc d).2 hd]⟩

theorem reclaimed_clears (c : Nat) (hc : c < N) : Clears t (t.reclaimed c) :=
  .of_same (zeroed_reclaimed t c) (reclaimed_blocks c hc)

theorem reclaimed_plain (c : Nat) (hc : c < N) (h : Plain t) : Plain (t.reclaimed c) := by
  intro d hd
  have hl := (live_reclaimed t c d hc).mp hd
  rw [slot_reclaimed t c d hc]
  split
  · next e =>
    rw [← e.1]
    exact h d hl
  · exact h d hl

theorem reclaimed_named (c : Nat) (hc : c < N) (h : Named t) : Named (t.reclaimed c) := by
  intro i j hi hj hty hob
  have hi' := (reclaimed_backed c hc i).1.mp hi
  have hj' := (reclaimed_backed c hc j).1.mp hj
  rw [(reclaimed_backed c hc i).2 hi', (reclaimed_backed c hc j).2 hj'] at hty hob ⊢
  exact h i j hi' hj' hty hob

/-! ## Calls -/

/-- A change that leaves every object with a capability. -/
theorem blocks_kept
    (hkept : ∀ d, cs.Backed d → ∃ k, cs'.Backed k ∧ (cs'.slot k).cap = (cs.slot d).cap) :
    cs.blocks ⊆ cs'.blocks := by
  rintro b ⟨d, hd, rfl⟩
  obtain ⟨k, hk, hcap⟩ := hkept d hd
  exact ⟨k, hk, by rw [hcap]⟩

theorem blocks_put (e : Cte) (hd : d < N) (hfree : ¬ cs.Backed d) :
    cs.blocks ⊆ (cs.put d e).blocks := by
  refine blocks_kept fun k hk => ⟨k, ?_, ?_⟩
  all_goals
    have hne : k ≠ d := fun h => hfree (h ▸ hk)
    have hslot : (cs.put d e).slot k = cs.slot k := by rw [slot_put cs d k e hd, if_neg hne]
  · unfold CSpace.Backed CSpace.Live
    rw [hslot]
    exact hk
  · rw [hslot]

theorem not_backed_sched (h : (cs.slot d).cap.capType = .sched) : ¬ cs.Backed d := by
  rintro ⟨-, hty⟩
  rw [h] at hty
  cases hty

/-- **Calls.**  A call that is no RETYPE clears what it leaves without a capability. -/
theorem call_clears (hp : Plain cs) (hn : Named cs) (he : CallEffect cs c v cs')
    (hret : ¬ ∃ ut ty f n dest, c = .retype ut ty f n dest) : Clears cs cs' := by
  have hsub : cs'.blocks ⊆ cs.blocks := call_blocks he hret
  have same : cs'.zeroed = cs.zeroed → cs.blocks ⊆ cs'.blocks → Clears cs cs' :=
    fun hz hb => .of_same hz (Set.Subset.antisymm hsub hb)
  have hfree : ∀ d, ¬ cs.Live d → ¬ cs.Backed d := fun d hd hb => hd hb.1
  cases he with
  | retype hr => exact absurd ⟨_, _, _, _, _, rfl⟩ hret
  | mint _ _ _ hd hl | copy _ _ hd hl | mintReply hd hl =>
    exact same rfl (blocks_put _ hd (hfree _ hl))
  | stay => exact .of_same rfl rfl
  | delegateSelf => exact .of_same rfl rfl
  | @split src dest amount child parent next hl hty hd hfreed _ _ =>
    -- the child is new and the parent is a `Sched`: neither stood for an object
    refine same rfl ?_
    show cs.blocks ⊆ ((cs.put dest _).put src (cs.withBudget src parent)).blocks
    refine Set.Subset.trans (blocks_put _ hd (hfree _ hfreed))
      (blocks_put _ hl.lt (not_backed_sched ?_))
    have hne : src ≠ dest := fun e => hfreed (e ▸ hl)
    rw [slot_put _ _ _ _ hd, if_neg hne]
    exact hty
  | @delegate src dest amount s d hne hl hl' hty hty' _ =>
    refine same rfl ?_
    refine Set.Subset.trans (blocks_put _ hl.lt (not_backed_sched hty))
      (blocks_put _ hl'.lt (not_backed_sched ?_))
    rw [slot_put _ _ _ _ hl.lt, if_neg (fun e => hne e.symm)]
    exact hty'
  | @moveCap src dest _ hl hne hd hfreed hm =>
    refine same hm.zeroed (blocks_kept fun k hk => ?_)
    by_cases e : k = src
    · have hslot := hm.slot dest
      rw [if_neg hne, if_pos rfl] at hslot
      refine ⟨dest, ?_, by rw [hslot, e]⟩
      unfold CSpace.Backed CSpace.Live
      rw [hslot, ← e]
      exact hk
    · have hkd : k ≠ dest := fun e' => hfreed (e' ▸ hk.1)
      have hslot : (cs'.slot k).cap = (cs.slot k).cap := by
        rw [hm.slot k, if_neg e, if_neg hkd]
        unfold reparented
        split <;> rfl
      refine ⟨k, ?_, hslot⟩
      unfold CSpace.Backed CSpace.Live
      rw [hslot]
      exact hk
  | consumeReply hl _ hd => exact destroyed_clears hp hn hl hd
  | revoke hl hs => exact (sweep_clears hp hn hs).2.2.trans (reclaimed_clears _ hl.lt)
  | delete hl hs hl' hd =>
    obtain ⟨hpt, hnt, hct⟩ := sweep_clears hp hn hs
    refine (hct.trans (reclaimed_clears _ hl.lt)).trans (destroyed_clears ?_ ?_ hl' hd)
    · exact reclaimed_plain _ hl.lt hpt
    · exact reclaimed_named _ hl.lt hnt

/-! ## RETYPE -/

/-- A hook that is refused when a live capability of type `ty` names its object. -/
def zeroUnnamed (ty : CapType) (objref : U64) (frames : U32) : Op N Unit := do
  let cs ← get
  refuseIf (cs.another (retyped ty objref frames)) .overflow
  zero objref frames

/-- The hook calls `zs` of a retype: one for each object, in the order the objects are
made, and each before a capability names the object.  RETYPE goes the same way with a
hook that looks for one. -/
def ZeroFirst (cs : CSpace N) (ut : Nat) (newType : CapType) (framesPerObj count : U32) (dest : Nat)
    (zs : List (U64 × U32)) (cs' : CSpace N) : Prop :=
  zs = (List.range count.toNat).map (fun i =>
    (objAt (cs.slot ut).cap framesPerObj i, framesPerObj)) ∧
  (∀ i, i < count.toNat → (cs'.slot (dest + i)).cap =
    retyped newType (objAt (cs.slot ut).cap framesPerObj i) framesPerObj) ∧
  retypeWith (zeroUnnamed newType) ut newType framesPerObj count dest cs = .ok () cs'

section Retype

variable {ut dest : Nat} {newType : CapType} {framesPerObj count : U32}

/-- The new objects lie in the region, above every object there is. -/
theorem FrameInv.object (h : FrameInv base frames cs)
    (hr : Retyped cs ut newType framesPerObj count dest cs') (i : Nat) (hi : i < count.toNat) :
    base.toNat ≤ (objAt (cs.slot ut).cap framesPerObj i).toNat ∧
      (objAt (cs.slot ut).cap framesPerObj i).toNat + framesPerObj.toNat ≤ base.toNat +
        frames.toNat ∧
      ∀ b ∈ cs.blocks, b.Disjoint ⟨b.tag, (objAt (cs.slot ut).cap framesPerObj i).toNat,
        framesPerObj.toNat⟩ := by
  have hut : cs.IsUntyped ut := ⟨hr.live, hr.untyped⟩
  obtain ⟨hbase, hframes, -⟩ := h.carver.region ut hut
  have hbudget := hr.budget
  have hmul := mul_add_le i count.toNat framesPerObj.toNat hi
  rw [hframes, Nat.mul_comm] at hbudget
  rw [hr.fits i hi, hbase]
  refine ⟨by omega, by omega, fun b hb => ?_⟩
  apply h.ok.fresh (fun r r' hne => absurd rfl hne) () (cs.slot ut).cap.watermark.toNat ⟨ut, hut,
    rfl⟩ b hb
  · show base.toNat + (cs.slot ut).cap.watermark.toNat ≤ base.toNat + _ + i * framesPerObj.toNat
    omega
  · show base.toNat + _ + i * framesPerObj.toNat + framesPerObj.toNat ≤ base.toNat + frames.toNat
    omega

theorem retype_exec {v : Option U64}
    (hexec : (Call.retype ut newType framesPerObj count dest).exec cs = .ok v cs') :
    retype ut newType framesPerObj count dest cs = .ok () cs' := by
  have hends : Ends (Call.retype ut newType framesPerObj count dest).exec cs
      (fun _ t => retype ut newType framesPerObj count dest cs = .ok () t) (fun _ _ => True) := by
    unfold Call.exec
    rw [ends_bind]
    exact (ends_self _ cs).imp_any fun _ _ h => h
  exact hends.ok hexec

/-- Two hooks make one commit loop when they agree at each object it comes to. -/
theorem carve_congr (hook : U64 → U32 → Op N Unit) {start : U64} {n : Nat} (hn : n < 2 ^ 32)
    (h : ∀ k t (objref : U64), k < n →
      carve zero ut newType start framesPerObj dest k cs = .ok () t →
      objref.toNat = start.toNat + k * framesPerObj.toNat →
      hook objref framesPerObj t = zero objref framesPerObj t) :
    carve hook ut newType start framesPerObj dest n cs =
      carve zero ut newType start framesPerObj dest n cs := by
  unfold carve
  refine forRange_congr _ _ n fun k t hk ht => ?_
  cases hmul : Word.checkedMul (BitVec.ofNat 32 k) framesPerObj with
  | none => rfl
  | some offset =>
    cases hadd : Word.checkedAdd start (offset.setWidth 64) with
    | none => simp only [okOr, bind, EStateM.bind, pure, EStateM.pure, hadd]; rfl
    | some objref =>
      rw [Word.checkedMul_eq_some, BitVec.toNat_ofNat, Nat.mod_eq_of_lt (by omega)] at hmul
      have hsum := hadd
      rw [Word.checkedAdd_eq_some, BitVec.toNat_setWidth, hmul, Nat.mod_eq_of_lt] at hsum
      · have hcall := h k t objref hk ht hsum
        simp only [okOr, hadd, bind, EStateM.bind, pure, EStateM.pure, hcall]
      · have := offset.isLt
        omega

/-- Before round `i` no live capability of the new type names object `i`. -/
theorem retype_unnamed (h : FrameInv base frames cs)
    (hr : Retyped cs ut newType framesPerObj count dest cs') {start : U64} {s u : CSpace N}
    (hs : takeFrames ut newType framesPerObj count dest cs = .ok start s) (i : Nat)
    (hi : i < count.toNat)
    (hu : carve zero ut newType start framesPerObj dest i s = .ok () u) :
    u.another (retyped newType (objAt (cs.slot ut).cap framesPerObj i) framesPerObj) = false := by
  obtain ⟨-, hstart, watermark, -, rfl⟩ :=
    (takeFrames_spec cs ut newType framesPerObj count dest).ok hs
  have hput := fun k => slot_put cs ut k { cs.slot ut with
    cap := { (cs.slot ut).cap with watermark } } hr.live.lt
  have hbudget := hr.budget
  rw [Nat.mul_comm] at hbudget
  have hsize := (cs.slot ut).cap.size.isLt
  have hpos := hr.frames_pos
  have hstop := hr.stop
  have hmul := mul_add_le i count.toNat framesPerObj.toNat hi
  have hfits := hr.fits i hi
  obtain ⟨-, hmade, hkept, -⟩ := (carve_spec _ ut newType start framesPerObj dest i hpos
    (by omega) (by omega) (by omega)).ok hu
  rw [← Bool.not_eq_true, another_iff]
  rintro ⟨d, hd, hdty, hob⟩
  by_cases hnew : dest ≤ d ∧ d < dest + i
  · -- an object of an earlier round has a smaller frame number
    obtain ⟨j, rfl⟩ : ∃ j, d = dest + j := ⟨d - dest, by omega⟩
    have hj : j < i := by omega
    rw [hmade j hj, hstart] at hob
    have heq : (objAt (cs.slot ut).cap framesPerObj j).toNat =
      (objAt (cs.slot ut).cap framesPerObj i).toNat := congrArg BitVec.toNat hob
    rw [hr.fits j (by omega), hfits] at heq
    have hjmul := mul_add_le j i framesPerObj.toNat hj
    omega
  · -- anything else was there before, below the watermark
    have hslot := hkept d (by omega)
    have hdu : d ≠ ut := by
      rintro rfl
      rw [hslot, hput, if_pos rfl] at hdty
      have hret := hr.retypeable
      rw [← show _ = newType from hdty, hr.untyped] at hret
      cases hret
    rw [hput, if_neg hdu] at hslot
    have hdb : cs.Backed d := by
      unfold CSpace.Live at hd
      rw [hslot] at hd hdty
      exact ⟨hd, by rw [hdty]; exact hr.retypeable⟩
    have hdis := (h.object hr i hi).2.2 _ ⟨d, hdb, rfl⟩
    have hlen := (h.ok.placed _ ⟨d, hdb, rfl⟩).1
    rw [hslot] at hob
    have hsame : (cs.slot d).cap.block.start = (objAt (cs.slot ut).cap framesPerObj i).toNat :=
      congrArg BitVec.toNat hob
    unfold Block.Disjoint at hdis
    simp only [hsame] at hdis
    omega

/-- **RETYPE clears first.** -/
theorem retype_zeroFirst (h : FrameInv base frames cs)
    (hr : Retyped cs ut newType framesPerObj count dest cs')
    (hexec : retype ut newType framesPerObj count dest cs = .ok () cs') (zs : List (U64 × U32))
    (hzs : zs = (List.range count.toNat).map fun i =>
      (objAt (cs.slot ut).cap framesPerObj i, framesPerObj)) :
    ZeroFirst cs ut newType framesPerObj count dest zs cs' := by
  refine ⟨hzs, fun i hi => by rw [hr.made i hi], ?_⟩
  unfold retype retypeWith at hexec
  unfold retypeWith
  cases hs : takeFrames ut newType framesPerObj count dest cs with
  | error e s => simp only [bind, EStateM.bind, hs] at hexec; cases hexec
  | ok start s =>
    simp only [bind, EStateM.bind, hs] at hexec ⊢
    obtain ⟨-, hstart, -⟩ := (takeFrames_spec cs ut newType framesPerObj count dest).ok hs
    rw [← hexec]
    refine carve_congr _ count.isLt fun i u objref hi hu hobj => ?_
    have hsame : objref = objAt (cs.slot ut).cap framesPerObj i := by
      apply BitVec.eq_of_toNat_eq
      rw [hobj, hstart, hr.fits i hi]
    have hfree := retype_unnamed h hr hs i hi hu
    rw [← hsame] at hfree
    show (refuseIf (u.another (retyped newType objref framesPerObj) = true) Fault.overflow >>=
      fun _ => zero objref framesPerObj) u = _
    rw [refuseIf, hfree]
    rfl

end Retype

/-! ## Runs with one root `Untyped` -/

/-- The region that an action installs an `Untyped` over. -/
def Action.region : Action → Option (U64 × U32)
  | .boot (.rootUntyped base frames) => some (base, frames)
  | _ => none

/-- The regions installed in a run. -/
def regions (tr : List Event) : List (U64 × U32) := tr.filterMap fun ev => ev.act.region

/-- No frames but those of one root `Untyped`: no other is installed, no frame or
notification either, and nothing is granted. -/
def OneUntyped (tr : List Event) : Prop :=
  (∀ ev ∈ tr, FrameAction ev.act ∨ ev.act.region.isSome = true) ∧ (regions tr).length ≤ 1

instance (tr : List Event) : Decidable (OneUntyped tr) := inferInstanceAs (Decidable (_ ∧ _))

theorem OneUntyped.init (h : OneUntyped (tr ++ [ev])) : OneUntyped tr := by
  obtain ⟨hact, hlen⟩ := h
  refine ⟨fun e he => hact e (List.mem_append_left _ he), ?_⟩
  unfold regions at hlen ⊢
  rw [List.filterMap_append, List.length_append] at hlen
  omega

theorem boot_clears (hfree : ¬ cs.Live b.slot) (hb : Booted cs b cs')
    (hty : isRetypeable (b.cap cs.nextObj).capType = false) : Clears cs cs' := by
  refine .of_same hb.zeroed (Set.Subset.antisymm ?_ (blocks_kept fun d hd => ⟨d, ?_⟩))
  · rintro x ⟨d, hd, rfl⟩
    obtain ⟨hd', hslot⟩ := boot_backed hb hty d hd
    exact ⟨d, hd', by rw [hslot]⟩
  · have hne : d ≠ b.slot := fun e => hfree (e ▸ hd.1)
    have hslot : cs'.slot d = cs.slot d := by rw [hb.slot d, if_neg hne]
    unfold CSpace.Backed CSpace.Live
    rw [hslot]
    exact ⟨hd, rfl⟩

/-- Only an install makes an `Untyped`. -/
theorem frameStep_untyped (hs : FrameStep cs ev cs') (u : Nat) (hu : cs'.IsUntyped u) :
    ∃ k, cs.IsUntyped k := by
  obtain ⟨act, ret⟩ := ev
  obtain ⟨hact, hs⟩ := hs
  rcases step_spec hs with ⟨v, -, he⟩ | ⟨e, -, rfl⟩
  · cases he with
    | call hexec he =>
      obtain ⟨k, hk, -⟩ := (call_origin he u hu.1).untyped hu.2
      exact ⟨k, hk⟩
    | @boot b _ hfree hb =>
      refine ⟨u, ?_⟩
      unfold CSpace.IsUntyped CSpace.Live at hu ⊢
      rw [hb.slot u] at hu
      by_cases e : u = b.slot
      · rw [if_pos e] at hu
        have hty : (b.cap cs.nextObj).capType = .untyped := hu.2
        cases b <;> first | exact hact.elim | cases hty
      · rwa [if_neg e] at hu
    | grantOut => exact hact.elim
    | grantIn => exact hact.elim
  · exact ⟨u, hu⟩

/-- The roots of such a run are of types that the hook spares. -/
theorem boot_linear (obj : U64) (h : FrameAction (.boot b) ∨ (Action.boot b).region.isSome = true) :
    (b.cap obj).capType ∈ linearTypes ∧ isRetypeable (b.cap obj).capType = false := by
  cases b with
  | rootUntyped => exact ⟨show CapType.untyped ∈ linearTypes by decide, rfl⟩
  | rootSched => exact ⟨show CapType.sched ∈ linearTypes by decide, rfl⟩
  | rootDomain => exact ⟨show CapType.domain ∈ linearTypes by decide, rfl⟩
  | sharedRo => exact ⟨show CapType.sharedRo ∈ linearTypes by decide, rfl⟩
  | notification => exact absurd h (by rintro (h | h) <;> cases h)
  | frame => exact absurd h (by rintro (h | h) <;> cases h)

/-- The space after the run `tr`. -/
structure ZeroInv (tr : List Event) (cs : CSpace N) : Prop where
  plain : Plain cs
  before : regions tr = [] → (∀ base frames, FrameInv base frames cs) ∧ ∀ u, ¬ cs.IsUntyped u
  after : ∀ base frames, regions tr = [(base, frames)] → FrameInv base frames cs

theorem ZeroInv.new : ZeroInv [] (CSpace.new : CSpace N) := by
  refine ⟨.new, fun _ => ⟨fun base frames => .new, fun u hu => ?_⟩, fun base frames h =>
    (by cases h)⟩
  exact not_live_empty _ u (slot_new u) hu.1

theorem regions_snoc (tr : List Event) (ev : Event) :
    regions (tr ++ [ev]) = regions tr ++ ev.act.region.toList := by
  unfold regions
  rw [List.filterMap_append]
  cases h : ev.act.region <;> simp [h]

theorem Plain.step (h : Plain cs) (hact : FrameAction ev.act ∨ ev.act.region.isSome = true)
    (hs : Step cs ev cs') : Plain cs' := by
  obtain ⟨act, ret⟩ := ev
  rcases step_spec hs with ⟨v, -, he⟩ | ⟨e, -, rfl⟩
  · cases he with
    | call _ he => exact h.call he
    | boot _ hb => exact h.boot hb (boot_linear _ hact).1
    | grantOut => exact absurd hact (by rintro (h | h) <;> cases h)
    | grantIn => exact absurd hact (by rintro (h | h) <;> cases h)
  · exact h

theorem ZeroInv.step (h : ZeroInv tr cs) (hone : OneUntyped (tr ++ [ev])) (hs : Step cs ev cs') :
    ZeroInv (tr ++ [ev]) cs' := by
  have hact := hone.1 ev (List.mem_append_right _ (List.mem_singleton.mpr rfl))
  have hlen := hone.2
  rw [regions_snoc] at hlen
  refine ⟨h.plain.step hact hs, fun hnil => ?_, fun base frames hreg => ?_⟩
  · rw [regions_snoc, List.append_eq_nil_iff, Option.toList_eq_nil_iff] at hnil
    have hframe : FrameStep cs ev cs' := ⟨hact.resolve_right (by simp [hnil.2]), hs⟩
    obtain ⟨hinv, hno⟩ := h.before hnil.1
    refine ⟨fun base frames => (hinv base frames).step cs ev cs' hframe, fun u hu => ?_⟩
    obtain ⟨k, hk⟩ := frameStep_untyped hframe u hu
    exact hno k hk
  · rw [regions_snoc] at hreg
    cases hr : ev.act.region with
    | none =>
      rw [hr, Option.toList_none, List.append_nil] at hreg
      exact (h.after base frames hreg).step cs ev cs' ⟨hact.resolve_right (by simp [hr]), hs⟩
    | some region =>
      -- the first install: until now there was no `Untyped`
      rw [hr, Option.toList_some] at hreg hlen
      have hnil : regions tr = [] := by
        rw [List.length_append, List.length_singleton] at hlen
        exact List.eq_nil_of_length_eq_zero (by omega)
      rw [hnil, List.nil_append, List.cons.injEq] at hreg
      obtain ⟨hinv, hno⟩ := h.before hnil
      obtain ⟨act, ret⟩ := ev
      rw [hreg.1] at hr
      rcases step_spec hs with ⟨v, -, he⟩ | ⟨e, -, rfl⟩
      · cases he with
        | @boot b _ hfree hb =>
          cases b <;> cases hr
          exact (hinv base frames).root hno hfree hb
        | call => cases hr
        | grantOut => cases hr
        | grantIn => cases hr
      · exact hinv base frames

theorem zeroInv_run (hrun : Run Step (CSpace.new : CSpace N) tr cs) (hone : OneUntyped tr) :
    ZeroInv tr cs :=
  hrun.inv_trace (fun tr cs => OneUntyped tr → ZeroInv tr cs) (fun _ => .new)
    (fun _ _ _ _ ih hs hone => (ih hone.init).step hone hs) hone

/-- The space has the frame invariant of its region; without a region it has no objects. -/
theorem ZeroInv.frameInv (h : ZeroInv tr cs) (hone : OneUntyped tr) :
    ∃ base frames, FrameInv base frames cs ∧
      ((∃ u, cs.IsUntyped u) → (base, frames) ∈ regions tr) := by
  have hlen := hone.2
  match hr : regions tr with
  | [] =>
    obtain ⟨hinv, hno⟩ := h.before hr
    refine ⟨0, 0, hinv 0 0, ?_⟩
    rintro ⟨u, hu⟩
    exact absurd hu (hno u)
  | [(base, frames)] =>
    exact ⟨base, frames, h.after base frames hr, fun _ => List.mem_singleton.mpr rfl⟩
  | _ :: _ :: _ =>
    rw [hr] at hlen
    exact absurd hlen (by simp)

/-! ## The hook calls of a step -/

/-- The block `b` lost its last capability: one named it in `cs`, none does in `cs'`. -/
def Orphaned (cs cs' : CSpace N) (b : Block CapType) : Prop :=
  (∃ d, cs.Live d ∧ isRetypeable (cs.slot d).cap.capType = true ∧ (cs.slot d).cap.block = b) ∧
    ∀ k, cs'.Live k → (cs'.slot k).cap.capType = b.tag → (cs'.slot k).cap.objref.toNat ≠ b.start

/-- The hook calls `zs` are those of the blocks that lost their last capability, once each. -/
def LastCalls (cs : CSpace N) (zs : List (U64 × U32)) (cs' : CSpace N) : Prop :=
  ∃ L : List (Block CapType), zs = L.map zeroCall ∧ L.Nodup ∧ ∀ b, b ∈ L ↔ Orphaned cs cs' b

theorem orphaned_iff (h : FrameInv base frames cs) (hsub : cs'.blocks ⊆ cs.blocks)
    (b : Block CapType) : b ∈ cs.blocks ∧ b ∉ cs'.blocks ↔ Orphaned cs cs' b := by
  constructor
  · rintro ⟨⟨d, hd, rfl⟩, hgone⟩
    refine ⟨⟨d, hd.1, hd.2, rfl⟩, fun k hk hty hob => hgone ?_⟩
    have hkb : cs'.Backed k := ⟨hk, by rw [hty]; exact hd.2⟩
    have hmem : (cs'.slot k).cap.block ∈ cs'.blocks := ⟨k, hkb, rfl⟩
    rw [← h.ok.same _ _ (hsub hmem) ⟨d, hd, rfl⟩ hob]
    exact hmem
  · rintro ⟨⟨d, hl, hty, rfl⟩, hnone⟩
    refine ⟨⟨d, ⟨hl, hty⟩, rfl⟩, ?_⟩
    rintro ⟨k, hk, hblock⟩
    injection hblock with htag hstart _
    exact hnone k hk.1 htag.symm hstart.symm

theorem zeroCall_toNat (b : Block CapType) (hb : b ∈ cs.blocks) :
    (zeroCall b).1.toNat = b.start ∧ (zeroCall b).2.toNat = b.len := by
  obtain ⟨d, -, rfl⟩ := hb
  rw [zeroCall_block]
  exact ⟨rfl, rfl⟩

/-- The frames of a hook call are in the region.  But for a new object's own, no capability
of a retyped type that stays names one of them, nor does a window outside the region. -/
def Spares (base : U64) (frames : U32) (cs cs' : CSpace N) (z : U64 × U32) : Prop :=
  (base.toNat ≤ z.1.toNat ∧ z.1.toNat + z.2.toNat ≤ base.toNat + frames.toNat) ∧
    (∀ b ∈ cs.blocks, b ∈ cs'.blocks → b.Disjoint ⟨b.tag, z.1.toNat, z.2.toNat⟩) ∧
    ∀ d, cs'.Live d → (cs'.slot d).cap.capType = .sharedRo →
      (cs'.slot d).cap.block.Disjoint ⟨.sharedRo, base.toNat, frames.toNat⟩ →
      (cs'.slot d).cap.block.Disjoint ⟨.sharedRo, z.1.toNat, z.2.toNat⟩

theorem spares_of {z : U64 × U32} (hlo : base.toNat ≤ z.1.toNat)
    (hhi : z.1.toNat + z.2.toNat ≤ base.toNat + frames.toNat)
    (hstay : ∀ b ∈ cs.blocks, b ∈ cs'.blocks → b.Disjoint ⟨b.tag, z.1.toNat, z.2.toNat⟩) :
    Spares base frames cs cs' z := by
  refine ⟨⟨hlo, hhi⟩, hstay, fun d _ _ hout => ?_⟩
  rcases hout with hbelow | habove
  · exact Or.inl (hbelow.trans hlo)
  · exact Or.inr (hhi.trans habove)

theorem Clears.spares {L : List (Block CapType)} (h : FrameInv base frames cs)
    (hL : Frees cs.blocks cs'.blocks L) (z : U64 × U32) (hz : z ∈ L.map zeroCall) :
    Spares base frames cs cs' z := by
  obtain ⟨b, hb, rfl⟩ := List.mem_map.mp hz
  obtain ⟨hin, hout⟩ := (hL.mem b).mp hb
  obtain ⟨h1, h2⟩ := zeroCall_toNat b hin
  obtain ⟨-, _, hlo, hhi, -⟩ := h.ok.placed b hin
  refine spares_of (by rw [h1]; exact hlo) (by rw [h1, h2]; exact hhi) fun b' hb' hstay => ?_
  rw [h1, h2]
  rcases h.ok.apart b' hb' b hin with rfl | hdis
  · exact absurd hstay hout
  · exact hdis

/-- A step that is no successful RETYPE. -/
theorem step_clears (hp : Plain cs) (hn : Named cs) (hs : Step cs ev cs')
    (hact : FrameAction ev.act ∨ ev.act.region.isSome = true)
    (hret : ∀ ut newType framesPerObj count dest v,
      ev ≠ ⟨.call (.retype ut newType framesPerObj count dest), .ok v⟩) : Clears cs cs' := by
  obtain ⟨act, ret⟩ := ev
  rcases step_spec hs with ⟨v, rfl, he⟩ | ⟨e, -, rfl⟩
  · cases he with
    | call _ he =>
      refine call_clears hp hn he ?_
      rintro ⟨ut, ty, f, n, dest, rfl⟩
      exact hret ut ty f n dest v rfl
    | boot hfree hb => exact boot_clears hfree hb (boot_linear _ hact).2
    | grantOut => exact absurd hact (by rintro (h | h) <;> cases h)
    | grantIn => exact absurd hact (by rintro (h | h) <;> cases h)
  · exact .of_same rfl rfl

theorem destroy_linear (s t : CSpace N) (d : Nat) (hty : (s.slot d).cap.capType ∈ linearTypes)
    (hd : destroySlot d s = .ok () t) : t.zeroed = s.zeroed := by
  have hl : s.Live d := by
    unfold CSpace.Live RawCap.isNull
    generalize (s.slot d).cap.capType = ty at hty
    revert hty
    cases ty <;> decide
  rcases ((destroySlot_spec s d hl).ok hd).zeroed with ⟨hlast, -⟩ | ⟨-, hz⟩
  · exact absurd hty hlast.1
  · exact hz

/-- **Zeroing is exact.**  In a run from a new space with one root `Untyped` at most, each
step adds its hook calls `zs`.  A RETYPE clears each of its objects once, before any
capability names it.  Any other step clears exactly the objects whose last capability it
destroys, once each and over their whole size.  No call reaches a frame of an object that stays, or
one outside the region, and destroying a capability of a linear type calls nothing. -/
theorem zeroing_exact {tr : List Event} {ev : Event} (hrun : Run Step (CSpace.new : CSpace N) tr cs)
    (hstep : Step cs ev cs') (hone : OneUntyped (tr ++ [ev])) :
    ∃ zs, cs'.zeroed = cs.zeroed ++ zs ∧
      (∀ ut newType framesPerObj count dest v,
        ev = ⟨.call (.retype ut newType framesPerObj count dest), .ok v⟩ →
        ZeroFirst cs ut newType framesPerObj count dest zs cs') ∧
      ((∀ ut newType framesPerObj count dest v,
        ev ≠ ⟨.call (.retype ut newType framesPerObj count dest), .ok v⟩) →
        LastCalls cs zs cs') ∧
      (∀ z ∈ zs, ∃ base frames, (base, frames) ∈ regions tr ∧ Spares base frames cs cs' z) ∧
      (∀ (s t : CSpace N) (d : Nat), (s.slot d).cap.capType ∈ linearTypes →
        destroySlot d s = .ok () t →
        t.zeroed = s.zeroed) := by
  have hz := zeroInv_run hrun hone.init
  obtain ⟨base, frames, hinv, hreg⟩ := hz.frameInv hone.init
  have hact := hone.1 ev (List.mem_append_right _ (List.mem_singleton.mpr rfl))
  by_cases hret : ∃ ut newType framesPerObj count dest v,
      ev = ⟨.call (.retype ut newType framesPerObj count dest), .ok v⟩
  · obtain ⟨ut, newType, framesPerObj, count, dest, v, rfl⟩ := hret
    rcases step_spec hstep with ⟨v', hv, he⟩ | ⟨e, he, -⟩
    · cases he with
      | call hexec he =>
        cases he with
        | retype hr =>
          refine ⟨_, hr.zeroed, ?_, fun hne => absurd rfl (hne _ _ _ _ _ _), fun z hmem =>
            ?_, destroy_linear⟩
          · intro _ _ _ _ _ _ heq
            cases heq
            exact retype_zeroFirst hinv hr (retype_exec hexec) _ rfl
          · obtain ⟨i, hi, rfl⟩ := List.mem_map.mp hmem
            obtain ⟨h1, h2, h3⟩ := hinv.object hr i (List.mem_range.mp hi)
            exact ⟨base, frames, hreg ⟨ut, hr.live, hr.untyped⟩,
              spares_of h1 h2 fun b hb _ => h3 b hb⟩
    · cases he
  · have hne : ∀ ut newType framesPerObj count dest v,
        ev ≠ ⟨.call (.retype ut newType framesPerObj count dest), .ok v⟩ :=
      fun ut ty f n dest v he => hret ⟨ut, ty, f, n, dest, v, he⟩
    obtain ⟨L, hcalls, hL⟩ := step_clears hz.plain hinv.named hstep hact hne
    refine ⟨L.map zeroCall, hcalls, fun ut ty f n dest v he => absurd he (hne ut ty f n dest v),
      fun _ => ?_, fun z hmem => ?_, destroy_linear⟩
    · exact ⟨L, rfl, hL.nodup, fun b => (hL.mem b).trans (orphaned_iff hinv hL.sub b)⟩
    · refine ⟨base, frames, hreg ?_, Clears.spares hinv hL z hmem⟩
      obtain ⟨b, hb, -⟩ := List.mem_map.mp hmem
      obtain ⟨d, hd, -⟩ := ((hL.mem b).mp hb).1
      obtain ⟨F, hF⟩ := hinv.carver.tree
      obtain ⟨u, hu, -⟩ := hinv.rooted.descends hF d hd
      exact ⟨u, hu⟩

/-- A region of 8 frames at 100 cut into two frame objects, the second of them copied. -/
def copied : List Action :=
  [.boot (.rootUntyped 100 8), .call (.retype 0 .frame 4 2 1), .call (.copy 2 3)]

/-- The space after `copied` and some DELETEs. -/
def copiedThen (slots : List Nat) : List Event × CSpace 4 :=
  (drive next (CSpace.new : CSpace 4) (copied ++ slots.map fun d => .call (.delete d))).getD ([],
    CSpace.new)

/-- Deleting the first of two capabilities clears nothing, deleting the second one does. -/
theorem zeroing_exact_copied :
    (copiedThen [2]).2.zeroed = [(100, 4), (104, 4)] ∧
      (copiedThen [2, 3]).2.zeroed = [(100, 4), (104, 4), (104, 4)] ∧
      ∃ zs, (copiedThen [2, 3]).2.zeroed = (copiedThen [2]).2.zeroed ++ zs ∧
        LastCalls (copiedThen [2]).2 zs (copiedThen [2, 3]).2 := by
  have hrun : Run Step CSpace.new (copiedThen [2]).1 (copiedThen [2]).2 :=
    run_of_drive step_of_next _ (copied ++ [.call (.delete 2)]) (copiedThen [2]) rfl
  have hstep : Step (copiedThen [2]).2 ⟨.call (.delete 3), .ok none⟩ (copiedThen [2, 3]).2 :=
    ⟨trivial, rfl⟩
  obtain ⟨zs, hz, -, hlast, -⟩ := zeroing_exact hrun hstep (by decide)
  exact ⟨by decide, by decide, zs, hz, hlast (fun _ _ _ _ _ _ h => by cases h)⟩

/-- A window over the first frame of the region. -/
def windowed : List Action := [.boot (.rootUntyped 100 8), .boot (.sharedRo 1 100 1 0x1000)]

/-- RETYPE looks at no other capability: it clears the frame of a window into the region,
and that of the `Untyped`, and both stay. -/
theorem zeroing_reaches_window :
    ∃ (tr : List Event) (ev : Event) (cs cs' : CSpace 4), Run Step CSpace.new tr cs ∧
      Step cs ev cs' ∧ OneUntyped (tr ++ [ev]) ∧ cs'.zeroed = cs.zeroed ++ [(100, 1)] ∧
      cs'.slot 1 = cs.slot 1 ∧ (cs.slot 1).cap = ⟨.sharedRo, Rights.READ, 100, 1, 0, 1, 0⟩ ∧
      (cs'.slot 0).cap = ⟨.untyped, Rights.RETYPE, 100, 8, 1, 0, 0⟩ := by
  refine ⟨_, ⟨.call (.retype 0 .frame 1 1 2), .ok none⟩, _, _,
    run_of_drive step_of_next CSpace.new windowed _ rfl, ⟨trivial, rfl⟩, by decide, rfl, rfl, rfl,
    rfl⟩

end Praesidium
