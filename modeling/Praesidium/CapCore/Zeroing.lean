import Praesidium.CapCore.MdbExact

/-!
Which frames a call zeroes.

RETYPE zeroes each object before its capability exists.  REVOKE and DELETE zero the
object of a doomed capability if no capability to it is left in the space.  No other
call touches the hook.

    CallEffect cs c v cs' → cs'.zeroed = cs.zeroed ++ zs with Zeroes cs c z for each z in zs
        (call_zeroes)

Only the space itself is looked at, so this says nothing about holders in other spaces.
-/

namespace Praesidium

open Fallible CSpace

variable {N : Nat} {cs t : CSpace N} {F : Forest Nat}

/-- The slots a call is going to destroy. -/
def CSpace.Doomed (cs : CSpace N) : Call → Nat → Prop
  | .revoke c, d => cs.Below d c
  | .delete c, d => d = c ∨ cs.Below d c
  | _, _ => False

/-- Slot `d` is doomed, and with it the last capability of the space to its object. -/
structure CSpace.LastDoomed (cs : CSpace N) (c : Call) (d : Nat) : Prop where
  live : cs.Live d
  doomed : cs.Doomed c d
  plain : (cs.slot d).cap.capType ∉ linearTypes
  last : ∀ k, cs.Live k → ¬ cs.Doomed c k → (cs.slot k).cap.capType = (cs.slot d).cap.capType →
    (cs.slot k).cap.objref ≠ (cs.slot d).cap.objref

/-- The reasons for a call to zero frames. -/
inductive Zeroes (cs : CSpace N) : Call → U64 × U32 → Prop
  | fresh {ut newType framesPerObj count dest i} : i < count.toNat →
      Zeroes cs (.retype ut newType framesPerObj count dest) (objAt (cs.slot ut).cap framesPerObj i,
      framesPerObj)
  | last {c d} : cs.LastDoomed c d → Zeroes cs c ((cs.slot d).cap.objref, (cs.slot d).cap.size)

theorem zeroed_reclaimed (cs : CSpace N) (c : Nat) : (cs.reclaimed c).zeroed = cs.zeroed := by
  unfold reclaimed
  split <;> rfl

variable {c : Nat}

/-- What is left after `revoke` names what it named. -/
theorem pruned_same (hp : Pruned cs F c t) (hl : cs.Live c) (k : Nat) (hk : cs.Live k)
    (hkc : ¬ F.Desc k c) :
    t.Live k ∧ (t.slot k).cap.capType = (cs.slot k).cap.capType ∧
      (t.slot k).cap.objref = (cs.slot k).cap.objref := by
  have htouch := hp.touched hl k hkc
  refine ⟨?_, htouch.capType, htouch.objref⟩
  unfold CSpace.Live
  rw [htouch.isNull]
  exact hk

/-- The frames zeroed below `c`. -/
theorem pruned_zeroes (call : Call) (hp : Pruned cs F c t) (h : Tree cs.slot F) (hl : cs.Live c)
    (hdoom : ∀ d, cs.Below d c → cs.Doomed call d) :
    ∃ zs, (t.reclaimed c).zeroed = cs.zeroed ++ zs ∧ ∀ z ∈ zs, Zeroes cs call z := by
  obtain ⟨zs, hz, hzs⟩ := hp.zeroed
  refine ⟨zs, by rw [zeroed_reclaimed, hz], fun z hmem => ?_⟩
  obtain ⟨d, hd, rfl, hty, hlast⟩ := hzs z hmem
  refine .last ⟨(h.live d).mp hd.live.1, hdoom d ((below_iff h d c).mpr hd), hty,
    fun k hk hnot hkty hob => ?_⟩
  have hkc : ¬ F.Desc k c := fun hkc => hnot (hdoom k ((below_iff h k c).mpr hkc))
  obtain ⟨h1, h2, h3⟩ := pruned_same hp hl k hk hkc
  exact hlast k h1 (by rw [h2, hkty]) (by rw [h3, hob])

/-- The frames zeroed with `c` itself. -/
theorem delete_zeroes {u t : CSpace N} (h : Tree cs.slot F) (hl : cs.Live c) (hu : Pruned cs F c u)
    (hd : Destroyed (u.reclaimed c) c t) :
    ∃ zs, t.zeroed = cs.zeroed ++ zs ∧ ∀ z ∈ zs, Zeroes cs (.delete c) z := by
  obtain ⟨zs, hz, hzs⟩ := pruned_zeroes (.delete c) hu h hl (fun d hd => Or.inr hd)
  rcases hd.zeroed with ⟨hlast, hz'⟩ | ⟨-, hz'⟩
  · refine ⟨zs ++ [(((u.reclaimed c).slot c).cap.objref, ((u.reclaimed c).slot c).cap.size)], ?_,
      fun z hmem => ?_⟩
    · rw [hz', hz, List.append_assoc]
    · rcases List.mem_append.mp hmem with hmem | hmem
      · exact hzs z hmem
      rw [List.mem_singleton.mp hmem]
      have hslot := hu.slot_self h hl.lt
      obtain ⟨hplain, hlast⟩ := hlast
      rw [hslot] at hplain hlast ⊢
      have hns : (cs.slot c).cap.capType ≠ .sched := fun hs => by
        rw [show (cs.revokedCap c).capType = (cs.slot c).cap.capType from rfl, hs] at hplain
        exact hplain (by decide)
      have hsize : (cs.revokedCap c).size = (cs.slot c).cap.size := if_neg hns
      show Zeroes cs (.delete c) ((cs.slot c).cap.objref, (cs.revokedCap c).size)
      rw [hsize]
      refine .last ⟨hl, Or.inl rfl, hplain, fun k hk hnot hkty hob => ?_⟩
      have hkc : k ≠ c := fun e => hnot (Or.inl e)
      have hkd : ¬ F.Desc k c := fun hkd => hnot (Or.inr ((below_iff h k c).mpr hkd))
      have hslot : (u.reclaimed c).slot k = cs.slot k := hu.slot_other hl.lt hkc hkd
      have hlive : (u.reclaimed c).Live k := by
        unfold CSpace.Live
        rw [hslot]
        exact hk
      exact hlast k hkc hlive (by rw [hslot]; exact hkty) (by rw [hslot]; exact hob)
  · exact ⟨zs, by rw [hz', hz], hzs⟩

/-- **Calls zero only what they make or destroy.** -/
theorem call_zeroes {cs' : CSpace N} {c : Call} {v : Option U64} (h : Tree cs.slot F)
    (hexec : c.exec cs = .ok v cs') (he : CallEffect cs c v cs') :
    ∃ zs, cs'.zeroed = cs.zeroed ++ zs ∧ ∀ z ∈ zs, Zeroes cs c z := by
  have hnone : ∀ {x : CSpace N}, x.zeroed = cs.zeroed → ∃ zs, x.zeroed = cs.zeroed ++ zs ∧
    ∀ z ∈ zs, Zeroes cs c z := fun hx => ⟨[], by rw [hx, List.append_nil], fun z hz => by cases hz⟩
  cases he with
  | retype hr =>
    refine ⟨_, hr.zeroed, fun z hz => ?_⟩
    obtain ⟨i, hi, rfl⟩ := List.mem_map.mp hz
    exact .fresh (List.mem_range.mp hi)
  | moveCap _ _ _ _ hm => exact hnone hm.zeroed
  | consumeReply hl ht hd =>
    -- a `Reply` stands for no frames
    rcases hd.zeroed with ⟨hlast, -⟩ | ⟨-, hz⟩
    · exact absurd (ht ▸ hlast.1) (by decide)
    · exact hnone hz
  | @revoke c =>
    obtain ⟨hl, u, hu, heq⟩ := revoke_pruned h hexec
    rw [heq]
    exact pruned_zeroes (.revoke c) hu h hl (fun d hd => hd)
  | delete =>
    obtain ⟨hl, u, hu, -, hd⟩ := delete_pruned h hexec
    exact delete_zeroes h hl hu hd
  | mint | copy | stay | split | delegateSelf | delegate | mintReply => exact hnone rfl

end Praesidium
