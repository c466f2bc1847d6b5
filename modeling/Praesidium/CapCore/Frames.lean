import Praesidium.CapCore.MdbExact
import Praesidium.CapCore.Origin
import Praesidium.Lib.Bump

/-!
Frame ranges: RETYPE as a bump allocator.

A live capability of a retyped type stands for a block of frames, a live `Untyped`
for a region with its watermark.  So a space is a `Bump.Pool`, and every call is one
of the pool's changes (`call_pool`): it shrinks the pool, carves from the watermark,
or resets the watermark by REVOKE of the `Untyped`.

Within one space everything retyped hangs below the `Untyped` (`Rooted.descends`), so
the reset finds the region empty; hence RETYPE never allocates a frame twice and its
arithmetic never traps (`frames_never_overlap`).
-/

namespace Praesidium

open Fallible CSpace Bump

variable {N : Nat}

/-! ## The pool of a space -/

/-- The frames a record names. -/
def RawCap.block (cap : RawCap) : Block CapType := ⟨cap.capType, cap.objref.toNat, cap.size.toNat⟩

namespace CSpace

/-- Slot `d` holds a capability of a retyped type. -/
def Backed (cs : CSpace N) (d : Nat) : Prop :=
  cs.Live d ∧ isRetypeable (cs.slot d).cap.capType = true

/-- Slot `u` holds an `Untyped`. -/
def IsUntyped (cs : CSpace N) (u : Nat) : Prop := cs.Live u ∧ (cs.slot u).cap.capType = .untyped

def blocks (cs : CSpace N) : Set (Block CapType) :=
  {b | ∃ d, cs.Backed d ∧ b = (cs.slot d).cap.block}

def marks (cs : CSpace N) (w : Nat) : Prop :=
  ∃ u, cs.IsUntyped u ∧ w = (cs.slot u).cap.watermark.toNat

end CSpace

variable {c : Call} {e : Cte} {v : Option U64} {ut dest : Nat} {newType : CapType}
  {framesPerObj count : U32} {b : Boot}

theorem Origin.backed {cs : CSpace N} (h : Origin cs c e) (hb : isRetypeable e.cap.capType = true) :
    (∃ k, cs.Backed k ∧ e.cap.block = (cs.slot k).cap.block ∧
      ((cs.slot k).parent.isSome = true → e.parent.isSome = true)) ∨
    (∃ ut newType framesPerObj count dest i, c = .retype ut newType framesPerObj count dest ∧
      i < count.toNat ∧
      e = ⟨retyped newType (objAt (cs.slot ut).cap framesPerObj i) framesPerObj, some ut⟩) := by
  cases h with
  | @kept _ k _ hl hcap hp =>
    rw [hcap] at hb
    exact Or.inl ⟨k, ⟨hl, hb⟩, by rw [hcap], fun h => by rw [hp]; exact h⟩
  | rebudgeted b hl ht hcap =>
    have : e.cap.capType = .sched := by rw [hcap]; exact ht
    rw [this] at hb
    cases hb
  | charged w hl ht hw hcap | reclaimed hl ht hcap =>
    have : e.cap.capType = .untyped := by rw [hcap]; exact ht
    rw [this] at hb
    cases hb
  | @narrowed _ k _ rights badge hl ht hr hcap hp =>
    rw [hcap] at hb
    exact Or.inl ⟨k, ⟨hl, hb⟩, by rw [hcap]; rfl, fun _ => hp⟩
  | @carved ut newType f count dest i _ ht hi he =>
    exact Or.inr ⟨ut, newType, f, count, dest, i, rfl, hi, he⟩
  | split hl ht hcap => rw [hcap] at hb; cases hb
  | reply hcap => rw [hcap] at hb; cases hb

/-- An `Untyped` was there before; only RETYPE from it and REVOKE of it change its record. -/
theorem Origin.untyped {cs : CSpace N} (h : Origin cs c e) (hu : e.cap.capType = .untyped) :
    ∃ k, cs.IsUntyped k ∧ ∃ watermark, e.cap = { (cs.slot k).cap with watermark := watermark } ∧
      (watermark = (cs.slot k).cap.watermark ∨ (∃ t f n dest, c = .retype k t f n dest) ∨
        c = .revoke k) := by
  cases h with
  | @kept _ k _ hl hcap _ =>
    rw [hcap] at hu
    exact ⟨k, ⟨hl, hu⟩, _, hcap, Or.inl rfl⟩
  | rebudgeted b hl ht hcap =>
    rw [hcap] at hu
    exact absurd (ht.symm.trans hu) (by decide)
  | @charged ut t f n dest _ w hl ht hw hcap =>
    exact ⟨ut, ⟨hl, ht⟩, w, hcap, Or.inr (Or.inl ⟨t, f, n, dest, rfl⟩)⟩
  | @reclaimed k _ hl ht hcap => exact ⟨k, ⟨hl, ht⟩, 0, hcap, Or.inr (Or.inr rfl)⟩
  | @narrowed _ k _ rights badge hl ht hr hcap hp =>
    rw [hcap] at hu
    have hty : (cs.slot k).cap.capType = .untyped := hu
    rw [hty] at ht
    exact absurd ht (by decide)
  | @carved _ newType _ _ _ _ _ ht _ he =>
    rw [he] at hu
    have hty : newType = .untyped := hu
    rw [hty] at ht
    cases ht
  | split hl ht hcap => rw [hcap] at hu; cases hu
  | reply hcap => rw [hcap] at hu; cases hu

/-! ## Spaces with at most one `Untyped` -/

/-- A tree with at most one `Untyped`, over `frames` frames from `base`, that cannot be
granted away. -/
structure Carver (base : U64) (frames : U32) (cs : CSpace N) : Prop where
  tree : ∃ F, Tree cs.slot F
  region : ∀ u, cs.IsUntyped u →
    (cs.slot u).cap.objref = base ∧ (cs.slot u).cap.size = frames ∧
    (cs.slot u).cap.rights = Rights.RETYPE
  single : cs.weigh (names .untyped base) ≤ 1

theorem weigh_pair (w : RawCap → Nat) (cs : CSpace N) (a b : Nat) (ha : a < N) (hb : b < N)
    (hab : a ≠ b) : w (cs.slot a).cap + w (cs.slot b).cap ≤ cs.weigh w := by
  have hsub : ({a, b} : Finset Nat) ⊆ Finset.range N := by
    intro x hx
    rw [Finset.mem_insert, Finset.mem_singleton] at hx
    rw [Finset.mem_range]
    rcases hx with rfl | rfl <;> assumption
  have hsum : ∑ x ∈ ({a, b} : Finset Nat), w (cs.slot x).cap = w (cs.slot a).cap +
    w (cs.slot b).cap := Finset.sum_pair hab
  rw [← hsum]
  exact Finset.sum_le_sum_of_subset hsub

variable {base : U64} {frames : U32} {cs cs' : CSpace N}

theorem Carver.uniq (h : Carver base frames cs) (u u' : Nat) (hu : cs.IsUntyped u)
    (hu' : cs.IsUntyped u') : u = u' := by
  apply Classical.byContradiction
  intro hne
  have hone : ∀ u, cs.IsUntyped u → names .untyped base (cs.slot u).cap = 1 :=
    fun u hu => if_pos ⟨hu.2, (h.region u hu).1⟩
  have hpair := weigh_pair (names .untyped base) cs u u' hu.1.lt hu'.1.lt hne
  have hsingle := h.single
  rw [hone u hu, hone u' hu'] at hpair
  omega

/-- A change that leaves the `Untyped` alone. -/
theorem Carver.of_kept (h : Carver base frames cs) (htree : ∃ F, Tree cs'.slot F)
    (hkept : ∀ u, cs'.IsUntyped u → cs.IsUntyped u ∧ cs'.slot u = cs.slot u) :
    Carver base frames cs' := by
  refine ⟨htree, fun u hu => ?_, Nat.le_trans (Finset.sum_le_sum fun k _ => ?_) h.single⟩
  · rw [(hkept u hu).2]
    exact h.region u (hkept u hu).1
  · by_cases hn : (cs'.slot k).cap.capType = .untyped
    · have hlive : cs'.Live k := by
        unfold CSpace.Live RawCap.isNull
        rw [hn]
        rfl
      rw [(hkept k ⟨hlive, hn⟩).2]
    · have hzero : names .untyped base (cs'.slot k).cap = 0 := if_neg fun h' => hn h'.1
      omega

theorem Carver.call (h : Carver base frames cs) (hexec : c.exec cs = .ok v cs')
    (he : CallEffect cs c v cs') : Carver base frames cs' := by
  obtain ⟨F, hF⟩ := h.tree
  refine ⟨call_tree hF hexec he, fun u hu => ?_, ?_⟩
  · obtain ⟨k, hk, watermark, hcap, -⟩ := (call_origin he u hu.1).untyped hu.2
    rw [hcap]
    exact h.region k hk
  · have hle := call_weigh_le (holdings .untyped base (by decide)) he
    have hminted : minted (holdings .untyped base (by decide)) c = 0 := by cases c <;> rfl
    have hsingle := h.single
    change cs'.weigh (names .untyped base) ≤ cs.weigh (names .untyped base) + _ at hle
    omega

/-! ## Calls as changes of the pool -/

/-- The new objects of a retype are the next blocks above the watermark. -/
theorem retyped_blocks (hr : Retyped cs ut newType framesPerObj count dest cs') :
    cs'.blocks ⊆ cs.blocks ∪ carved (fun _ : Unit => (cs.slot ut).cap.objref.toNat) ()
      (cs.slot ut).cap.watermark.toNat framesPerObj.toNat count.toNat newType := by
  rintro b ⟨d, hd, rfl⟩
  rcases (call_origin (.retype hr) d hd.1).backed hd.2 with ⟨k, hk, hblock, -⟩ | ⟨_, _, _, _, _, i,
    hc, hi, he⟩
  · exact Or.inl ⟨k, hk, hblock⟩
  · cases hc
    refine Or.inr ⟨i, hi, ?_⟩
    rw [he]
    show Block.mk newType (objAt (cs.slot ut).cap framesPerObj i).toNat framesPerObj.toNat = _
    rw [hr.fits i hi]

theorem retyped_marks (h : Carver base frames cs)
    (hr : Retyped cs ut newType framesPerObj count dest cs') (w : Nat) (hw : cs'.marks w) :
    w = (cs.slot ut).cap.watermark.toNat + count.toNat * framesPerObj.toNat := by
  obtain ⟨u, hu, rfl⟩ := hw
  obtain ⟨watermark, hcharge, hslot⟩ := hr.charged
  have hut : u = ut := by
    by_cases hnew : dest ≤ u ∧ u < dest + count.toNat
    · -- the new objects are of no `Untyped` type
      have hmade := hr.made (u - dest) (by omega)
      rw [show dest + (u - dest) = u by omega] at hmade
      have hty := hu.2
      rw [hmade] at hty
      have hret := hr.retypeable
      rw [show newType = .untyped from hty] at hret
      cases hret
    · by_cases e : u = ut
      · exact e
      · have hsame := hr.frame u e (by omega)
        have hold : cs.IsUntyped u := by
          unfold CSpace.IsUntyped CSpace.Live at hu ⊢
          rwa [hsame] at hu
        exact h.uniq u ut hold ⟨hr.live, hr.untyped⟩
  rw [hut, hslot, Nat.mul_comm]
  exact hcharge

/-- A call that shrinks the pool. -/
def Shrinks (cs cs' : CSpace N) : Prop := cs'.blocks ⊆ cs.blocks ∧ ∀ w, cs'.marks w → cs.marks w

/-- Only RETYPE makes objects. -/
theorem call_blocks (he : CallEffect cs c v cs')
    (hret : ¬ ∃ ut t f n dest, c = .retype ut t f n dest) : cs'.blocks ⊆ cs.blocks := by
  rintro b ⟨d, hd, rfl⟩
  rcases (call_origin he d hd.1).backed hd.2 with ⟨k, hk, hblock, -⟩ | ⟨ut, t, f, n, dest, _, hc, -⟩
  · exact ⟨k, hk, hblock⟩
  · exact absurd ⟨ut, t, f, n, dest, hc⟩ hret

/-- **Calls as pool changes.** -/
theorem call_pool (h : Carver base frames cs) (he : CallEffect cs c v cs') :
    Shrinks cs cs' ∨
    (∃ ut newType framesPerObj count dest, c = .retype ut newType framesPerObj count dest ∧
      Retyped cs ut newType framesPerObj count dest cs') ∨
    (∃ k, c = .revoke k ∧ cs.IsUntyped k ∧ cs'.blocks ⊆ cs.blocks ∧ ∀ w, cs'.marks w → w = 0) := by
  by_cases hret : ∃ ut t f n dest, c = .retype ut t f n dest
  · obtain ⟨ut, t, f, n, dest, rfl⟩ := hret
    cases he with
    | retype hr => exact Or.inr (Or.inl ⟨ut, t, f, n, dest, rfl, hr⟩)
  have hblocks := call_blocks he hret
  by_cases hrev : ∃ k, c = .revoke k ∧ cs.IsUntyped k
  · obtain ⟨k, rfl, hk⟩ := hrev
    refine Or.inr (Or.inr ⟨k, rfl, hk, hblocks, ?_⟩)
    rintro w ⟨u, hu, rfl⟩
    cases he with
    | @revoke _ t hl hs =>
      -- the `Untyped` of the new space was one before, so it is `k`
      have hut : t.Live u := (live_reclaimed t k u hl.lt).mp hu.1
      have hty : (t.slot u).cap.capType = .untyped := by
        rw [← (touched_reclaimed k (hs.live_self hl) u).capType]; exact hu.2
      obtain ⟨h1, -, h3⟩ := sweep_entry hs u hut
      have hold : (cs.slot u).cap.capType = .untyped := by
        rcases h3 with h3 | ⟨h3, b, hb⟩
        · rw [← h3]; exact hty
        · rw [hb] at hty; exact hty
      have huk : u = k := h.uniq u k ⟨h1, hold⟩ hk
      subst huk
      rw [slot_reclaimed t u u hl.lt, if_pos ⟨rfl, hty⟩]
      rfl
  · refine Or.inl ⟨hblocks, ?_⟩
    rintro w ⟨u, hu, rfl⟩
    obtain ⟨k, hk, watermark, hcap, hsame | ⟨t, f, n, dest, hc⟩ | hc⟩ :=
      (call_origin he u hu.1).untyped hu.2
    · exact ⟨k, hk, by rw [hcap, hsame]⟩
    · exact absurd ⟨k, t, f, n, dest, hc⟩ hret
    · exact absurd ⟨k, hc, hk⟩ hrev

/-! ## One space -/

/-- Every object hangs below something. -/
def Rooted (cs : CSpace N) : Prop := ∀ d, cs.Backed d → (cs.slot d).parent.isSome = true

/-- Up from an object the links lead through records of its type to an `Untyped`. -/
theorem Rooted.descends {F : Forest Nat} (hr : Rooted cs) (h : Tree cs.slot F) (d : Nat)
    (hd : cs.Backed d) : ∃ u, cs.IsUntyped u ∧ F.Desc d u := by
  obtain ⟨r, hrank⟩ := F.ranked
  induction hn : r d using Nat.strong_induction_on generalizing d with
  | _ n ih =>
    obtain ⟨p, hp⟩ := Option.isSome_iff_exists.mp (hr d hd)
    have hpar : F.par d = some p := by rw [h.par d, hp]
    have hpl : cs.Live p := (h.parent_live d p hp).2
    rcases h.kin d p hp with ⟨hu, -⟩ | ⟨hty, -⟩
    · exact ⟨p, ⟨hpl, hu⟩, F.desc_of_par d p hpar⟩
    · have hpb : cs.Backed p := ⟨hpl, by rw [← hty]; exact hd.2⟩
      obtain ⟨u, hu, hpu⟩ := ih (r p) (by rw [← hn]; exact hrank d p hpar) p hpb rfl
      exact ⟨u, hu, (F.desc_of_par d p hpar).trans hpu⟩

theorem Rooted.call (hr : Rooted cs) (he : CallEffect cs c v cs') : Rooted cs' := by
  intro d hd
  rcases (call_origin he d hd.1).backed hd.2 with ⟨k, hk, -, hp⟩ | ⟨_, _, _, _, _, _, -, -, hslot⟩
  · exact hp (hr k hk)
  · rw [hslot]; rfl

/-- The pool of one space. -/
def CSpace.pool (cs : CSpace N) : Pool Unit CapType := ⟨cs.blocks, fun _ => cs.marks⟩

structure FrameInv (base : U64) (frames : U32) (cs : CSpace N) : Prop where
  carver : Carver base frames cs
  rooted : Rooted cs
  ok : Ok (fun _ => base.toNat) (fun _ => frames.toNat) cs.pool

/-- After REVOKE of the `Untyped` no object is left. -/
theorem FrameInv.revoked {k : Nat} (h : FrameInv base frames cs) (hk : cs.IsUntyped k)
    (hexec : (Call.revoke k).exec cs = .ok v cs') (d : Nat) : ¬ cs'.Backed d := by
  intro hd
  obtain ⟨F, hF⟩ := h.carver.tree
  obtain ⟨hl, hnd, hty, -⟩ := (revoke_survivor hF hexec).2 d hd.1
  obtain ⟨u, hu, hdu⟩ := h.rooted.descends hF d ⟨hl, by rw [← hty]; exact hd.2⟩
  rw [h.carver.uniq u k hu hk] at hdu
  exact hnd ((below_iff hF d k).mpr hdu)

theorem FrameInv.call (h : FrameInv base frames cs) (hexec : c.exec cs = .ok v cs')
    (he : CallEffect cs c v cs') : FrameInv base frames cs' := by
  refine ⟨h.carver.call hexec he, h.rooted.call he, ?_⟩
  rcases call_pool h.carver he with ⟨hb, hm⟩ | ⟨ut, t, f, n, dest, rfl, hr⟩ | ⟨k, rfl, hk, hb, hm⟩
  · exact h.ok.shrink hb (fun _ => hm)
  · obtain ⟨hbase, hframes, -⟩ := h.carver.region ut ⟨hr.live, hr.untyped⟩
    have hblocks := retyped_blocks hr
    rw [hbase] at hblocks
    have hbudget := hr.budget
    rw [hframes, Nat.mul_comm] at hbudget
    exact h.ok.carve (fun r r' hne => absurd rfl hne) () _ f.toNat n.toNat t ⟨ut,
      ⟨hr.live, hr.untyped⟩, rfl⟩ hr.frames_pos
      hbudget hblocks (retyped_marks h.carver hr) (fun r' hne => absurd rfl hne)
  · refine h.ok.reset () hb ?_ hm (fun r' hne => absurd rfl hne)
    rintro b ⟨d, hd, rfl⟩
    exact absurd hd (h.revoked hk hexec d)

/-! ## Runs -/

/-- The actions on a space whose only frames come from its root `Untyped`. -/
def FrameAction : Action → Prop
  | .boot (.rootSched _ _ _) => True
  | .boot (.rootDomain _ _) => True
  | .boot (.sharedRo _ _ _ _) => True
  | .call _ => True
  | _ => False

instance (a : Action) : Decidable (FrameAction a) :=
  match a with
  | .boot (.rootUntyped _ _) => isFalse id
  | .boot (.rootSched _ _ _) => isTrue trivial
  | .boot (.rootDomain _ _) => isTrue trivial
  | .boot (.notification _ _ _) => isFalse id
  | .boot (.sharedRo _ _ _ _) => isTrue trivial
  | .boot (.frame _ _ _ _) => isFalse id
  | .call _ => isTrue trivial
  | .grantOut _ _ _ _ _ _ => isFalse id
  | .grantIn _ _ _ _ _ _ => isFalse id

def FrameStep (cs : CSpace N) (ev : Event) (cs' : CSpace N) : Prop :=
  FrameAction ev.act ∧ Step cs ev cs'

/-- Installing a root leaves the objects alone. -/
theorem boot_backed (hb : Booted cs b cs') (hty : isRetypeable (b.cap cs.nextObj).capType = false)
    (d : Nat) (hd : cs'.Backed d) : cs.Backed d ∧ cs'.slot d = cs.slot d := by
  unfold CSpace.Backed CSpace.Live at hd ⊢
  rw [hb.slot d] at hd ⊢
  by_cases e : d = b.slot
  · rw [if_pos e] at hd
    exact absurd (hd.2.symm.trans hty) (by decide)
  · rw [if_neg e] at hd ⊢
    exact ⟨hd, rfl⟩

/-- Installing a root that is neither an `Untyped` nor an object changes no pool. -/
theorem FrameInv.boot (h : FrameInv base frames cs) (hfree : ¬ cs.Live b.slot)
    (hb : Booted cs b cs')
    (hty : (b.cap cs.nextObj).capType ≠ .untyped ∧
    isRetypeable (b.cap cs.nextObj).capType = false) :
    FrameInv base frames cs' := by
  obtain ⟨F, hF⟩ := h.carver.tree
  have hbacked := boot_backed hb hty.2
  have huntyped : ∀ u, cs'.IsUntyped u → cs.IsUntyped u ∧ cs'.slot u = cs.slot u := by
    intro u hu
    unfold CSpace.IsUntyped CSpace.Live at hu ⊢
    rw [hb.slot u] at hu ⊢
    by_cases e : u = b.slot
    · rw [if_pos e] at hu
      exact absurd hu.2 hty.1
    · rw [if_neg e] at hu ⊢
      exact ⟨hu, rfl⟩
  refine ⟨h.carver.of_kept (root_tree _ hF hfree (Boot.cap_isNull _ _) hb.slot) huntyped,
    fun d hd => ?_, h.ok.shrink ?_ ?_⟩
  · rw [(hbacked d hd).2]
    exact h.rooted d (hbacked d hd).1
  · rintro blk ⟨d, hd, rfl⟩
    exact ⟨d, (hbacked d hd).1, by rw [(hbacked d hd).2]⟩
  · rintro _ w ⟨u, hu, rfl⟩
    exact ⟨u, (huntyped u hu).1, by rw [(huntyped u hu).2]⟩

theorem FrameInv.step (cs : CSpace N) (ev : Event) (cs' : CSpace N) (h : FrameInv base frames cs)
    (hs : FrameStep cs ev cs') : FrameInv base frames cs' := by
  obtain ⟨act, ret⟩ := ev
  obtain ⟨hact, hs⟩ := hs
  rcases step_spec hs with ⟨v, -, he⟩ | ⟨e, -, rfl⟩
  · cases he with
    | @boot b _ hfree hb =>
      refine h.boot hfree hb ?_
      cases b with
      | rootSched => exact ⟨show CapType.sched ≠ .untyped by decide, rfl⟩
      | rootDomain => exact ⟨show CapType.domain ≠ .untyped by decide, rfl⟩
      | sharedRo => exact ⟨show CapType.sharedRo ≠ .untyped by decide, rfl⟩
      | rootUntyped => exact hact.elim
      | notification => exact hact.elim
      | frame => exact hact.elim
    | call hexec he => exact h.call hexec he
    | grantOut => exact hact.elim
    | grantIn => exact hact.elim
  · exact h

/-! ## New spaces -/

theorem weigh_new (N : Nat) (base : U64) :
    (CSpace.new : CSpace N).weigh (names .untyped base) = 0 := by
  unfold CSpace.weigh
  apply Finset.sum_eq_zero
  intro k _
  rw [slot_new]
  rfl

theorem Carver.new : Carver base frames (CSpace.new : CSpace N) := by
  have hnone : ∀ u, ¬ (CSpace.new : CSpace N).IsUntyped u :=
    fun u hu => not_live_empty _ u (slot_new u) hu.1
  refine ⟨⟨_, Tree.nil⟩, fun u hu => absurd hu (hnone u), ?_⟩
  rw [weigh_new]
  exact Nat.zero_le 1

theorem FrameInv.new : FrameInv base frames (CSpace.new : CSpace N) := by
  have hdead : ∀ d, ¬ (CSpace.new : CSpace N).Live d := fun d => not_live_empty _ d (slot_new d)
  have hnone : ∀ d, ¬ (CSpace.new : CSpace N).Backed d := fun d hd => hdead d hd.1
  refine ⟨.new, fun d hd => absurd hd (hnone d), ?_, ?_, ?_⟩
  · rintro _ w ⟨u, hu, rfl⟩
    exact absurd hu.1 (hdead u)
  · rintro b ⟨d, hd, rfl⟩
    exact absurd hd (hnone d)
  · rintro b ⟨d, hd, rfl⟩
    exact absurd hd (hnone d)

/-- Without an `Untyped` there are no objects. -/
theorem FrameInv.bare (h : FrameInv base frames cs) (hno : ∀ u, ¬ cs.IsUntyped u) (d : Nat) :
    ¬ cs.Backed d := by
  intro hd
  obtain ⟨F, hF⟩ := h.carver.tree
  obtain ⟨u, hu, -⟩ := h.rooted.descends hF d hd
  exact hno u hu

/-- Installing the root `Untyped`. -/
theorem FrameInv.root (h : FrameInv base frames cs) (hno : ∀ u, ¬ cs.IsUntyped u)
    (hfree : ¬ cs.Live 0) (hb : Booted cs (.rootUntyped base frames) cs') :
    FrameInv base frames cs' := by
  obtain ⟨F, hF⟩ := h.carver.tree
  have hslot : ∀ k, cs'.slot k = if k = 0 then ⟨⟨.untyped, Rights.RETYPE, base, frames, 0, 0, 0⟩,
    NIL⟩ else cs.slot k := hb.slot
  have huntyped : ∀ u, cs'.IsUntyped u →
    cs'.slot u = ⟨⟨.untyped, Rights.RETYPE, base, frames, 0, 0, 0⟩, NIL⟩ := by
    intro u hu
    by_cases e : u = 0
    · rw [hslot u, if_pos e]
    · unfold CSpace.IsUntyped CSpace.Live at hu
      rw [hslot u, if_neg e] at hu
      exact absurd hu (hno u)
  have hbacked : ∀ d, ¬ cs'.Backed d := fun d hd => h.bare hno d (boot_backed hb rfl d hd).1
  refine ⟨⟨root_tree _ hF hfree rfl hslot, fun u hu => ?_, ?_⟩, fun d hd =>
    absurd hd (hbacked d), ?_⟩
  · rw [huntyped u hu]
    exact ⟨rfl, rfl, rfl⟩
  · -- nothing but slot 0 counts
    have hsum := weigh_change_one (names .untyped base) cs cs' 0 hb.inRange
      (fun k hk => by rw [hslot k, if_neg hk])
    have hzero : cs.weigh (names .untyped base) = 0 := by
      apply Finset.sum_eq_zero
      intro k _
      refine if_neg fun hn => hno k ⟨?_, hn.1⟩
      unfold CSpace.Live RawCap.isNull
      rw [hn.1]
      rfl
    have hone : names .untyped base (cs'.slot 0).cap ≤ 1 := by
      unfold names
      split <;> omega
    omega
  · refine h.ok.reset () ?_ ?_ ?_ (fun r' hne => absurd rfl hne)
    · rintro b ⟨d, hd, rfl⟩
      exact absurd hd (hbacked d)
    · rintro b ⟨d, hd, rfl⟩
      exact absurd hd (hbacked d)
    · rintro w ⟨u, hu, rfl⟩
      rw [huntyped u hu]
      rfl

section

variable (h : CSpace.setRootUntyped base frames CSpace.new = .ok () cs)

include h

/-- A new space with its root `Untyped`. -/
theorem slot_rootUntyped :
    0 < N ∧ ∀ k, cs.slot k = if k = 0 then ⟨⟨.untyped, Rights.RETYPE, base, frames, 0, 0, 0⟩, NIL⟩
      else .EMPTY := by
  have hb : Booted CSpace.new (.rootUntyped base frames) cs :=
    (boot_spec (.rootUntyped base frames) _).ok h
  refine ⟨hb.inRange, fun k => ?_⟩
  rw [hb.slot k, slot_new]
  rfl

/-- It holds the `Untyped` and nothing else. -/
theorem live_rootUntyped (d : Nat) (hd : cs.Live d) :
    d = 0 ∧ cs.slot d = ⟨⟨.untyped, Rights.RETYPE, base, frames, 0, 0, 0⟩, NIL⟩ := by
  have hslot := (slot_rootUntyped h).2 d
  by_cases e : d = 0
  · rw [if_pos e] at hslot
    exact ⟨e, hslot⟩
  · rw [if_neg e] at hslot
    exact absurd hd (not_live_empty cs d hslot)

theorem FrameInv.init :
    FrameInv base frames cs :=
  FrameInv.new.root (fun u hu => not_live_empty _ u (slot_new u) hu.1)
  (not_live_empty _ 0 (slot_new 0)) ((boot_spec (.rootUntyped base frames) _).ok h)

end

/-- **RETYPE never allocates a frame twice.**  From a root `Untyped` over `frames` frames at
`base`, in every reachable state: there is one `Untyped` at most and its watermark is
within its size; every object lies below the watermark; two objects are the same or
disjoint; and no arithmetic of `retype` traps. -/
theorem frames_never_overlap {cs₀ : CSpace N} {tr : List Event}
    (hfit : base.toNat + frames.toNat ≤ 2 ^ 64)
    (hboot : CSpace.setRootUntyped base frames CSpace.new = .ok () cs₀)
    (hrun : Run FrameStep cs₀ tr cs) :
    (∀ u u', cs.IsUntyped u → cs.IsUntyped u' → u = u') ∧
    (∀ u, cs.IsUntyped u → (cs.slot u).cap.objref = base ∧ (cs.slot u).cap.size = frames ∧
      (cs.slot u).cap.watermark.toNat ≤ (cs.slot u).cap.size.toNat) ∧
    (∀ d, cs.Backed d → ∃ u, cs.IsUntyped u ∧ base.toNat ≤ (cs.slot d).cap.objref.toNat ∧
      (cs.slot d).cap.objref.toNat + (cs.slot d).cap.size.toNat ≤ base.toNat + (cs.slot
        u).cap.watermark.toNat) ∧
    (∀ d d', cs.Backed d → cs.Backed d' →
      (cs.slot d).cap.block = (cs.slot d').cap.block ∨
        (cs.slot d).cap.block.Disjoint (cs.slot d').cap.block) ∧
    (∀ ut newType framesPerObj count dest t,
      CSpace.retype ut newType framesPerObj count dest cs ≠ .error .overflow t) := by
  have h : FrameInv base frames cs :=
    hrun.inv (FrameInv base frames) (FrameInv.init hboot) FrameInv.step
  have hmark : ∀ u, cs.IsUntyped u → (cs.slot u).cap.watermark.toNat ≤ frames.toNat :=
    fun u hu => h.ok.marks () _ ⟨u, hu, rfl⟩
  refine ⟨h.carver.uniq, fun u hu => ?_, fun d hd => ?_, fun d d' hd hd' =>
    ?_, fun ut t f n dest s hexec => ?_⟩
  · obtain ⟨h1, h2, -⟩ := h.carver.region u hu
    refine ⟨h1, h2, ?_⟩
    rw [h2]
    exact hmark u hu
  · obtain ⟨F, hF⟩ := h.carver.tree
    obtain ⟨u, hu, -⟩ := h.rooted.descends hF d hd
    obtain ⟨-, r, h1, -, h3⟩ := h.ok.placed _ ⟨d, hd, rfl⟩
    exact ⟨u, hu, h1, h3 _ ⟨u, hu, rfl⟩⟩
  · exact h.ok.apart _ ⟨d, hd, rfl⟩ _ ⟨d', hd', rfl⟩
  · rcases (CSpace.retype_spec cs ut t f n dest).error hexec with ⟨⟨e, he⟩, -⟩ | ⟨-, hl, hu, hnot⟩
    · cases he
    · obtain ⟨h1, h2, -⟩ := h.carver.region ut ⟨hl, hu⟩
      have := hmark ut ⟨hl, hu⟩
      refine hnot ⟨by rw [h2]; exact this, ?_⟩
      rw [h1, h2]
      exact hfit

/-- A region of 8 frames at 100, with its root capability only. -/
def region100 : CSpace 4 :=
  ⟨#v[⟨⟨.untyped, Rights.RETYPE, 100, 8, 0, 0, 0⟩, NIL⟩, .EMPTY, .EMPTY, .EMPTY], 1, []⟩

/-- The region after a retype, a REVOKE of all of it and another retype. -/
def recarved : List Event × CSpace 4 :=
  (drive next region100 [.call (.retype 0 .frame 4 2 1), .call (.revoke 0),
    .call (.retype 0 .endpoint 1 2 1), .call (.copy 2 3)]).get (by decide)

theorem frames_never_overlap_recarved :
    recarved.2.Backed 1 ∧ recarved.2.Backed 3 ∧
      ((recarved.2.slot 1).cap.block = (recarved.2.slot 3).cap.block ∨
        (recarved.2.slot 1).cap.block.Disjoint (recarved.2.slot 3).cap.block) := by
  have hrun : Run FrameStep region100 recarved.1 recarved.2 := by
    refine (run_of_drive step_of_next _ _ recarved (Option.some_get _).symm).mono
      (fun _ ev _ hev hs => ⟨?_, hs⟩)
    have hall : ∀ ev ∈ recarved.1, FrameAction ev.act := by decide
    exact hall ev hev
  have h1 : recarved.2.Backed 1 := ⟨by decide, by decide⟩
  have h3 : recarved.2.Backed 3 := ⟨by decide, by decide⟩
  exact ⟨h1, h3, (@frames_never_overlap 4 100 8 recarved.2 region100 recarved.1 (by decide) rfl
    hrun).2.2.2.1 1 3 h1 h3⟩

end Praesidium
