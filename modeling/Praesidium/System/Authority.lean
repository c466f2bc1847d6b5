import Praesidium.CapCore.MdbRun
import Praesidium.System.Basic

/-!
Authority: which rights to which objects a system of capability spaces holds.

`Holds s t o k` is the abstract view of a system: some capability of type `t` to object
`o` carries right `k`.  A step adds to this view only what RETYPE makes:

    Holds s' t o k → Holds s t o k ∨ Makes s ev t o ∧ k is a default right of t      (sysStep_holds)

and so does a run (`run_holds`, `no_amplification`).
-/

namespace Praesidium

open Fallible CSpace

variable {ι : Type} {size : ι → Nat}

/-! ## The abstract view -/

/-- The object a record names.  Splitting a `Sched` makes fresh ids, so there all CPU time
is one object. -/
def RawCap.object (cap : RawCap) : Option U64 :=
  if cap.capType = .sched then none else some cap.objref

/-- Some capability to the object carries the right. -/
def Holds (s : System size) (t : CapType) (o : Option U64) (k : Nat) : Prop :=
  ∃ i d, (s i).Live d ∧ ((s i).slot d).cap.capType = t ∧ ((s i).slot d).cap.object = o ∧
    Rights.bits ((s i).slot d).cap.rights k

/-- The event is a successful RETYPE that makes the object. -/
def Makes (s : System size) (ev : SysEvent ι) (t : CapType) (o : Option U64) : Prop :=
  ∃ i ut framesPerObj count dest v k, ev = ⟨.call i (.retype ut t framesPerObj count dest), .ok v⟩ ∧
    k < count.toNat ∧ o = some (objAt ((s i).slot ut).cap framesPerObj k)

/-- Some event of a run from `s` makes the object. -/
def Produced [DecidableEq ι] (s : System size) (tr : List (SysEvent ι)) (t : CapType)
    (o : Option U64) : Prop :=
  ∃ pre ev post u, tr = pre ++ ev :: post ∧ Run SysStep s pre u ∧ Makes u ev t o

variable {s : System size} {i : ι} {tr : List (SysEvent ι)}

/-- A record holds no more than its source. -/
theorem holds_of_source {e : Nat} {cap : RawCap} {k : Nat} (hl : (s i).Live e)
    (hty : cap.capType = ((s i).slot e).cap.capType)
    (hobj : cap.capType = .sched ∨ cap.objref = ((s i).slot e).cap.objref)
    (hr : cap.rights.subsetOf ((s i).slot e).cap.rights = true) (hk : Rights.bits cap.rights k) :
    Holds s cap.capType cap.object k := by
  refine ⟨i, e, hl, hty.symm, ?_, (Rights.subsetOf_iff _ _).mp hr k hk⟩
  unfold RawCap.object
  rw [← hty]
  rcases hobj with hs | hobj
  · rw [if_pos hs, if_pos hs]
  · rw [hobj]

/-- What a call leaves was held before, or RETYPE made it. -/
theorem origin_holds {c : Call} {e : Cte} (h : Origin (s i) c e) (v : Option U64) (k : Nat)
    (hk : Rights.bits e.cap.rights k) :
    Holds s e.cap.capType e.cap.object k ∨
      (Makes s ⟨.call i c, .ok v⟩ e.cap.capType e.cap.object ∧
        Rights.bits (defaultRights e.cap.capType) k) := by
  rcases h.source with ⟨d, hl, hty, hobj, hr⟩ | ⟨ut, newType, f, count, dest, n, rfl, hn, ht,
    hcap⟩ | ⟨-, hnone⟩
  · exact Or.inl (holds_of_source hl hty hobj hr hk)
  · have hobj : (retyped newType (objAt ((s i).slot ut).cap f n) f).object =
      some (objAt ((s i).slot ut).cap f n) :=
      if_neg fun hs : newType = .sched => by rw [hs] at ht; cases ht
    rw [hcap] at hk ⊢
    exact Or.inr ⟨⟨i, ut, f, count, dest, v, n, rfl, hn, hobj⟩, hk⟩
  · rw [hnone] at hk
    simp [Rights.bits, Rights.empty] at hk

/-! ## Steps and runs -/

variable [DecidableEq ι]

/-- **No step amplifies.** -/
theorem sysStep_holds {s' : System size} {ev : SysEvent ι} (h : SysStep s ev s') (t : CapType)
    (o : Option U64) (k : Nat) (hk : Holds s' t o k) :
    Holds s t o k ∨ (Makes s ev t o ∧ Rights.bits (defaultRights t) k) := by
  obtain ⟨act, ret⟩ := ev
  rcases sysStep_spec h with ⟨v, hv, he⟩ | ⟨e, -, rfl⟩
  · cases show ret = .ok v from hv
    obtain ⟨i, d, hl, rfl, rfl, hr⟩ := hk
    have horigin := sysEffect_origin he i d hl
    generalize (s' i).slot d = e at horigin hr
    cases horigin with
    | kept hl' => exact Or.inl (holds_of_source hl' rfl (Or.inr rfl) (Rights.subsetOf_refl _) hr)
    | call horigin => exact origin_holds horigin v k hr
    | granted hl' _ hn => exact Or.inl (holds_of_source hl' rfl (Or.inr rfl) hn hr)
  · exact Or.inl hk

theorem Produced.snoc {t : CapType} {o : Option U64} (h : Produced s tr t o) (ev : SysEvent ι) :
    Produced s (tr ++ [ev]) t o := by
  obtain ⟨pre, ev', post, u, rfl, hrun, hmake⟩ := h
  exact ⟨pre, ev', post ++ [ev], u, by simp, hrun, hmake⟩

/-- **No run amplifies.** -/
theorem run_holds {t : System size} (hrun : Run SysStep s tr t) (ty : CapType) (o : Option U64)
    (k : Nat) (hk : Holds t ty o k) :
    Holds s ty o k ∨ (Produced s tr ty o ∧ Rights.bits (defaultRights ty) k) := by
  induction hrun with
  | nil => exact Or.inl hk
  | @snoc u _ tr ev hrun hs ih =>
    rcases sysStep_holds hs ty o k hk with hold | ⟨hmake, hdef⟩
    · exact (ih hold).imp id fun h => ⟨h.1.snoc ev, h.2⟩
    · exact Or.inr ⟨⟨tr, ev, [], u, rfl, hrun, hmake⟩, hdef⟩

/-- **No rights amplification.**  After any run every right of every live capability was
there at the start, on a capability of the same type to the same object, or is a default
right of an object that RETYPE made on the way.  In a space built up from `new`, a child of
anything but an `Untyped` has its parent's type and no more rights. -/
theorem no_amplification {s t : System size} {tr : List (SysEvent ι)} (hrun : Run SysStep s tr t) :
    (∀ i d, (t i).Live d → ∀ k, Rights.bits ((t i).slot d).cap.rights k →
      Holds s ((t i).slot d).cap.capType ((t i).slot d).cap.object k ∨
        (Produced s tr ((t i).slot d).cap.capType ((t i).slot d).cap.object ∧
          Rights.bits (defaultRights ((t i).slot d).cap.capType) k)) ∧
    (∀ (N : Nat) (tr' : List Event) (cs : CSpace N), Run Step CSpace.new tr' cs → ∀ d p, cs.Live d →
      (cs.slot d).parent = some p → cs.Live p → (cs.slot p).cap.capType ≠ .untyped →
      (cs.slot d).cap.capType = (cs.slot p).cap.capType ∧
        (cs.slot d).cap.rights.subsetOf (cs.slot p).cap.rights = true) := by
  refine ⟨fun i d hl k hk => run_holds hrun _ _ k ⟨i, d, hl, rfl, rfl, hk⟩,
    fun N tr' cs hrun' d p _ hp _ hu => ?_⟩
  obtain ⟨F, h⟩ := reachable_tree hrun'
  rcases h.kin d p hp with ⟨hu', -⟩ | ⟨hty, -, hr⟩
  · exact absurd hu' hu
  · exact ⟨hty, hr⟩

/-- A space with its root `Untyped` and an empty one. -/
def ownerAndPeer : System (fun _ : Party => 4) := fun i =>
  if i = .owner then CSpace.new.put 0 ⟨Boot.cap 1 (.rootUntyped 0 64), NIL⟩ else CSpace.new

/-- The owner makes a frame and grants it on, for reading only. -/
def lentFrame : List (SysEvent Party) × System (fun _ : Party => 4) :=
  (drive sysNext ownerAndPeer [.call .owner (.retype 0 .frame 1 1 1),
    .grant .owner .peer 1 0 Rights.READ 0 .mint]).get (by decide)

theorem lentFrame_run : Run SysStep ownerAndPeer lentFrame.1 lentFrame.2 :=
  run_of_drive step_of_sysNext _ _ lentFrame (Option.some_get _).symm

/-- The right to read the frame was made with it; nobody had it before. -/
theorem no_amplification_lentFrame :
    Rights.bits ((lentFrame.2 .peer).slot 0).cap.rights 0 ∧
      (Holds ownerAndPeer .frame (some 0) 0 ∨ (Produced ownerAndPeer lentFrame.1 .frame (some 0) ∧
        Rights.bits (defaultRights .frame) 0)) ∧
      (frameFamily.2.slot 3).cap.rights.subsetOf (frameFamily.2.slot 2).cap.rights = true := by
  have hbit : Rights.bits ((lentFrame.2 .peer).slot 0).cap.rights 0 := by unfold Rights.bits; decide
  have h := no_amplification lentFrame_run
  exact ⟨hbit, h.1 .peer 0 (by decide) 0 hbit,
    (h.2 4 _ _ frameFamily_run 3 2 (by decide) rfl (by decide) (by decide)).2⟩

end Praesidium
