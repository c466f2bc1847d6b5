import Praesidium.CapCore.Action

/-!
Where the records of a capability space come from.

After a call, every live entry is one of eight things: an entry that was there, one
whose budget or watermark changed, a narrowed derivation of one, an object carved
from an `Untyped`, a split-off `Sched`, or a fresh `Reply`.

    CallEffect cs c v cs' → cs'.Live d → Origin cs c (cs'.slot d)        (call_origin)

This is all that rights, frame ranges and object identities depend on (`Origin.source`).
-/

namespace Praesidium

open CSpace

variable {N : Nat}

/-- The entry `e`, live after call `c` on `cs`, by where it came from. -/
inductive Origin (cs : CSpace N) : Call → Cte → Prop
  | kept {c k e} : cs.Live k → e.cap = (cs.slot k).cap →
      e.parent.isSome = (cs.slot k).parent.isSome → Origin cs c e
  | rebudgeted {c k e} (b : Budget) : cs.Live k → (cs.slot k).cap.capType = .sched →
      e.cap = b.writeInto (cs.slot k).cap → Origin cs c e
  | charged {ut newType framesPerObj count dest e} (watermark : U32) : cs.Live ut →
      (cs.slot ut).cap.capType = .untyped →
      watermark.toNat = (cs.slot ut).cap.watermark.toNat + framesPerObj.toNat * count.toNat →
      e.cap = { (cs.slot ut).cap with watermark := watermark } →
      Origin cs (.retype ut newType framesPerObj count dest) e
  | reclaimed {k e} : cs.Live k → (cs.slot k).cap.capType = .untyped →
      e.cap = { (cs.slot k).cap with watermark := 0 } → Origin cs (.revoke k) e
  | narrowed {c k e} (rights : Rights) (badge : U64) : cs.Live k →
      (cs.slot k).cap.capType ∉ linearTypes → rights.subsetOf (cs.slot k).cap.rights = true →
      e.cap = { (cs.slot k).cap with rights := rights, badge := badge } → e.parent.isSome = true →
      Origin cs c e
  | carved {ut newType framesPerObj count dest i e} : isRetypeable newType = true →
      i < count.toNat →
      e = ⟨retyped newType (objAt (cs.slot ut).cap framesPerObj i) framesPerObj, some ut⟩ →
      Origin cs (.retype ut newType framesPerObj count dest) e
  | split {src dest amount child e} : cs.Live src → (cs.slot src).cap.capType = .sched →
      e.cap = schedChild (cs.slot src).cap cs.nextObj child → Origin cs (.split src dest amount) e
  | reply {dest caller badge e} : e.cap = ⟨.reply, Rights.empty, caller, 0, 0, 0, badge⟩ →
      Origin cs (.mintReply dest caller badge) e

variable {cs cs' t : CSpace N} {c : Call} {e : Cte} {dest src : Nat} {amount : U32}

/-- The type, object and rights of a record: those of a record that was there, with fewer
rights and for a split-off `Sched` a fresh object, or those of a new object or `Reply`. -/
theorem Origin.source (h : Origin cs c e) :
    (∃ k, cs.Live k ∧ e.cap.capType = (cs.slot k).cap.capType ∧
      (e.cap.capType = .sched ∨ e.cap.objref = (cs.slot k).cap.objref) ∧
      e.cap.rights.subsetOf (cs.slot k).cap.rights = true) ∨
    (∃ ut newType framesPerObj count dest i, c = .retype ut newType framesPerObj count dest ∧
      i < count.toNat ∧
      isRetypeable newType = true ∧ e.cap = retyped newType (objAt (cs.slot ut).cap framesPerObj i)
        framesPerObj) ∨
    (e.cap.capType = .reply ∧ e.cap.rights = Rights.empty) := by
  cases h with
  | @kept _ k _ hl hcap hp | @rebudgeted _ k _ b hl ht hcap | @reclaimed k _ hl ht hcap =>
    rw [hcap]
    exact Or.inl ⟨k, hl, rfl, Or.inr rfl, Rights.subsetOf_refl _⟩
  | @charged ut _ _ _ _ _ w hl ht hw hcap =>
    rw [hcap]
    exact Or.inl ⟨ut, hl, rfl, Or.inr rfl, Rights.subsetOf_refl _⟩
  | @narrowed _ k _ rights badge hl ht hr hcap hp =>
    rw [hcap]
    exact Or.inl ⟨k, hl, rfl, Or.inr rfl, hr⟩
  | @carved ut newType f count dest i _ ht hi he =>
    rw [he]
    exact Or.inr (Or.inl ⟨ut, newType, f, count, dest, i, rfl, hi, ht, rfl⟩)
  | @split src _ _ child _ hl ht hcap =>
    rw [hcap]
    exact Or.inl ⟨src, hl, ht.symm, Or.inl rfl, Rights.subsetOf_refl _⟩
  | reply hcap =>
    rw [hcap]
    exact Or.inr (Or.inr ⟨rfl, rfl⟩)

theorem Origin.of_entry (k : Nat) (hl : cs.Live k) (hp : e.parent = (cs.slot k).parent)
    (he : e.cap = (cs.slot k).cap ∨
      ((cs.slot k).cap.capType = .sched ∧ ∃ b : Budget, e.cap = b.writeInto (cs.slot k).cap)) :
    Origin cs c e := by
  rcases he with he | ⟨hs, b, hb⟩
  · exact .kept hl he (by rw [hp])
  · exact .rebudgeted b hl hs hb

/-- An entry of a table in which only slot `d` was written. -/
theorem origin_put (d : Nat) (e : Cte) (hd : d < N) (he : Origin cs c e) (k : Nat)
    (hk : (cs.put d e).Live k) : Origin cs c ((cs.put d e).slot k) := by
  unfold CSpace.Live at hk
  rw [slot_put cs d k e hd] at hk ⊢
  by_cases h : k = d
  · rw [if_pos h]; exact he
  · rw [if_neg h] at hk ⊢
    exact .kept hk rfl rfl

theorem retyped_origin {ut : Nat} {newType : CapType} {framesPerObj count : U32}
    (hr : Retyped cs ut newType framesPerObj count dest cs') (d : Nat) (hd : cs'.Live d) :
    Origin cs (.retype ut newType framesPerObj count dest) (cs'.slot d) := by
  by_cases hnew : dest ≤ d ∧ d < dest + count.toNat
  · have hmade := hr.made (d - dest) (by omega)
    rw [show dest + (d - dest) = d by omega] at hmade
    exact .carved hr.retypeable (by omega) hmade
  · by_cases hut : d = ut
    · obtain ⟨watermark, hw, hslot⟩ := hr.charged
      rw [hut, hslot]
      exact .charged watermark hr.live hr.untyped hw rfl
    · have hsame := hr.frame d hut (by omega)
      unfold CSpace.Live at hd
      rw [hsame] at hd ⊢
      exact .kept hd rfl rfl

/-- A move takes the record along and rewrites the links of its children. -/
theorem moved_origin (hl : cs.Live src) (hm : Moved cs src dest cs') (d : Nat) (hd : cs'.Live d) :
    Origin cs (.moveCap src dest) (cs'.slot d) := by
  unfold CSpace.Live at hd
  rw [hm.slot d] at hd ⊢
  by_cases h1 : d = src
  · rw [if_pos h1] at hd; cases hd
  · rw [if_neg h1] at hd ⊢
    by_cases h2 : d = dest
    · rw [if_pos h2]; exact .kept hl rfl rfl
    · rw [if_neg h2] at hd ⊢
      unfold reparented at hd ⊢
      by_cases h3 : (cs.slot d).parent = some src
      · rw [if_pos h3] at hd ⊢
        exact .kept hd rfl (by rw [h3]; rfl)
      · rw [if_neg h3] at hd ⊢
        exact .kept hd rfl rfl

theorem split_origin (child parent : Budget) (next : U64) (hl : cs.Live src)
    (ht : (cs.slot src).cap.capType = .sched) (hdest : dest < N) (d : Nat) :
    let cs' := cs.afterSplit src dest child parent next
    cs'.Live d → Origin cs (.split src dest amount) (cs'.slot d) := by
  intro cs' hd
  unfold CSpace.Live at hd
  rw [slot_split cs child parent next hl hdest d] at hd ⊢
  by_cases h1 : d = src
  · rw [if_pos h1]; exact .rebudgeted parent hl ht rfl
  · rw [if_neg h1] at hd ⊢
    by_cases h2 : d = dest
    · rw [if_pos h2]; exact .split hl ht rfl
    · rw [if_neg h2] at hd ⊢
      exact .kept hd rfl rfl

theorem delegate_origin (s b : Budget) (hl : cs.Live src) (hl' : cs.Live dest)
    (ht : (cs.slot src).cap.capType = .sched) (ht' : (cs.slot dest).cap.capType = .sched) (d : Nat)
    (hd : ((cs.put src (cs.withBudget src s)).put dest (cs.withBudget dest b)).Live d) :
    Origin cs (.delegate src dest amount)
      (((cs.put src (cs.withBudget src s)).put dest (cs.withBudget dest b)).slot d) := by
  unfold CSpace.Live at hd
  rw [slot_put _ dest d _ hl'.lt, slot_put cs src d _ hl.lt] at hd ⊢
  by_cases h1 : d = dest
  · rw [if_pos h1]; exact .rebudgeted b hl' ht' rfl
  · rw [if_neg h1] at hd ⊢
    by_cases h2 : d = src
    · rw [if_pos h2]; exact .rebudgeted s hl ht rfl
    · rw [if_neg h2] at hd ⊢
      exact .kept hd rfl rfl

theorem revoke_origin {c : Nat} (hl : cs.Live c) (hs : Sweep c cs t) (d : Nat)
    (hd : (t.reclaimed c).Live d) : Origin cs (.revoke c) ((t.reclaimed c).slot d) := by
  obtain ⟨h1, h2, h3⟩ := sweep_entry hs d ((live_reclaimed t c d hl.lt).mp hd)
  rw [slot_reclaimed t c d hl.lt]
  by_cases hu : d = c ∧ (t.slot c).cap.capType = .untyped
  · obtain ⟨rfl, hty⟩ := hu
    rw [if_pos ⟨rfl, hty⟩]
    rcases h3 with h3 | ⟨h3, b, hb⟩
    · exact .reclaimed hl (by rw [← h3, hty]) (by rw [h3])
    · -- a credited record is a `Sched`
      rw [hb] at hty
      exact absurd (h3.symm.trans hty) (by decide)
  · rw [if_neg hu]
    exact .of_entry d h1 h2 h3

theorem delete_origin {c : Nat} (hl : cs.Live c) (hs : Sweep c cs t)
    (hdes : Destroyed (t.reclaimed c) c cs') (d : Nat) (hd : cs'.Live d) :
    Origin cs (.delete c) (cs'.slot d) := by
  obtain ⟨hne, hd'⟩ := (hdes.live_iff d).mp hd
  obtain ⟨h1, h2, h3⟩ := sweep_entry hs d ((live_reclaimed t c d hl.lt).mp hd')
  have hslot : (t.reclaimed c).slot d = t.slot d := by
    rw [slot_reclaimed t c d hl.lt, if_neg (fun h => hne h.1)]
  by_cases hc : (t.reclaimed c).Credits c d
  · rw [hdes.credit d hc, hslot]
    have hs' : (t.slot d).cap.capType = .sched := by rw [← hslot]; exact hc.2.2.2
    rcases h3 with h3 | ⟨h3, b, hb⟩
    · rw [h3] at hs' ⊢
      exact .rebudgeted ⟨_, (cs.slot d).cap.watermark, (cs.slot d).cap.aux⟩ h1 hs' rfl
    · simp only [hb]
      exact .rebudgeted ⟨_, b.consumed, b.period⟩ h1 h3 rfl
  · rw [hdes.frame d hne hc, hslot]
    exact .of_entry d h1 h2 h3

/-- **Every live record has an origin.** -/
theorem call_origin {v : Option U64} (he : CallEffect cs c v cs') (d : Nat) (hd : cs'.Live d) :
    Origin cs c (cs'.slot d) := by
  cases he with
  | retype hr => exact retyped_origin hr d hd
  | @mint src dest newRights badge hl ht hr hdest _ =>
    exact origin_put dest _ hdest (.narrowed newRights badge hl ht hr rfl rfl) d hd
  | @copy src dest hl ht hdest _ =>
    refine origin_put dest _ hdest ?_ d hd
    refine .narrowed (cs.slot src).cap.rights (cs.slot src).cap.badge hl ht
      (Rights.subsetOf_refl _) rfl ?_
    show (if (cs.slot src).parent = NIL then some src else (cs.slot src).parent).isSome = true
    cases (cs.slot src).parent with
    | none => rfl
    | some p => rfl
  | stay => exact .kept hd rfl rfl
  | moveCap hl _ _ _ hm => exact moved_origin hl hm d hd
  | split hl ht hdest => exact split_origin _ _ _ hl ht hdest d hd
  | delegateSelf => exact .kept hd rfl rfl
  | delegate _ hl hl' ht ht' => exact delegate_origin _ _ hl hl' ht ht' d hd
  | @mintReply dest _ _ hdest _ => exact origin_put dest _ hdest (.reply rfl) d hd
  | @consumeReply dest _ hl _ hdes =>
    -- one destruction is a sweep of length one, as seen from a slot that is not there
    have hs : Sweep N cs cs' :=
      Relation.ReflTransGen.single ⟨dest, by have := hl.lt; omega, hl, hdes⟩
    obtain ⟨h1, h2, h3⟩ := sweep_entry hs d hd
    exact .of_entry d h1 h2 h3
  | revoke hl hs => exact revoke_origin hl hs d hd
  | delete hl hs _ hdes => exact delete_origin hl hs hdes d hd

end Praesidium
