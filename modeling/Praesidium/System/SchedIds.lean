import Praesidium.CapCore.MdbExact
import Praesidium.Lib.Serial
import Praesidium.System.Basic

/-!
The identities of `Sched` objects across capability spaces.

A `Sched` takes its `objref` from the counter of the space it is made in, and a move-grant carries
it to another space.  Counters of different spaces give the same numbers, so a space can come to
hold two `Sched`s of one `objref` (`scheds_collide`).  They stay distinct where every space has an
issuer of its own and takes `Sched`s only from spaces of the same issuer:

    Run (Issued home) (fun _ => CSpace.new) tr s → the Scheds of a space are distinct
        (scheds_distinct)
-/

namespace Praesidium

open Fallible CSpace

/-! ## Identities in one space -/

/-- The object id of the `Sched` at slot `d`. -/
def CSpace.schedId {N : Nat} (cs : CSpace N) (d : Nat) : Option U64 :=
  if (cs.slot d).cap.capType = .sched then some (cs.slot d).cap.objref else none

section Calls

variable {N : Nat} {cs cs' t : CSpace N}

variable {d : Nat}

theorem schedId_some {o : U64} :
    cs.schedId d = some o ↔ (cs.slot d).cap.capType = .sched ∧ (cs.slot d).cap.objref = o := by
  unfold CSpace.schedId
  split
  · next h => exact ⟨fun he => ⟨h, Option.some.inj he⟩, fun he => congrArg some he.2⟩
  · next h => exact ⟨fun he => (nomatch he), fun he => absurd he.1 h⟩

/-- A record of the same type and object. -/
theorem schedId_congr {N' : Nat} {cs' : CSpace N'} {k : Nat}
    (ht : (cs'.slot k).cap.capType = (cs.slot d).cap.capType)
    (ho : (cs'.slot k).cap.objref = (cs.slot d).cap.objref) : cs'.schedId k = cs.schedId d := by
  unfold CSpace.schedId
  rw [ht, ho]

theorem schedId_of_ne (h : (cs.slot d).cap.capType ≠ .sched) : cs.schedId d = none := if_neg h

/-- No id is new and the counter stays. -/
structure Dropped (cs cs' : CSpace N) : Prop where
  ids : ∀ d, cs'.schedId d = cs.schedId d ∨ cs'.schedId d = none
  nextObj : cs'.nextObj = cs.nextObj

theorem Dropped.refl (cs : CSpace N) : Dropped cs cs := ⟨fun _ => .inl rfl, rfl⟩

theorem Dropped.trans (h : Dropped cs t) (h' : Dropped t cs') : Dropped cs cs' := by
  refine ⟨fun d => ?_, h'.nextObj.trans h.nextObj⟩
  rcases h'.ids d with hd | hd
  · rw [hd]
    exact h.ids d
  · exact .inr hd

theorem Dropped.of_put {e : Cte} (hd : d < N) (he : e.cap.capType ≠ .sched) :
    Dropped cs (cs.put d e) := by
  refine ⟨fun k => ?_, rfl⟩
  by_cases hk : k = d
  · refine .inr (schedId_of_ne ?_)
    rw [slot_put cs d k e hd, if_pos hk]
    exact he
  · refine .inl (schedId_congr ?_ ?_)
    all_goals rw [slot_put cs d k e hd, if_neg hk]

theorem Destroyed.dropped (h : Destroyed cs d t) : Dropped cs t := by
  refine ⟨fun k => ?_, h.nextObj⟩
  by_cases hk : k = d
  · refine .inr (schedId_of_ne ?_)
    rw [hk, h.self]
    exact CapType.noConfusion
  · refine .inl ?_
    by_cases hc : cs.Credits d k
    · exact schedId_congr (by rw [h.credit k hc]) (by rw [h.credit k hc])
    · exact schedId_congr (by rw [h.frame k hk hc]) (by rw [h.frame k hk hc])

theorem Sweep.dropped {c : Nat} (h : Sweep c cs t) : Dropped cs t := by
  induction h with
  | refl => exact .refl _
  | tail _ hd ih =>
    obtain ⟨d, -, _, hd⟩ := hd
    exact ih.trans (Destroyed.dropped hd)

theorem dropped_reclaimed (c : Nat) (hc : c < N) : Dropped cs (cs.reclaimed c) := by
  refine ⟨fun k => .inl ?_, nextObj_reclaimed c⟩
  by_cases h : k = c ∧ (cs.slot c).cap.capType = .untyped
  · refine schedId_congr ?_ ?_
    all_goals rw [slot_reclaimed cs c k hc, if_pos h, h.1]
  · refine schedId_congr ?_ ?_
    all_goals rw [slot_reclaimed cs c k hc, if_neg h]

theorem Retyped.dropped {ut dest : Nat} {newType : CapType} {framesPerObj count : U32}
    (hr : Retyped cs ut newType framesPerObj count dest cs') : Dropped cs cs' := by
  refine ⟨fun k => ?_, hr.nextObj⟩
  by_cases hk : dest ≤ k ∧ k < dest + count.toNat
  · have hmade := hr.made (k - dest) (by omega)
    rw [show dest + (k - dest) = k by omega] at hmade
    refine .inr (schedId_of_ne ?_)
    rw [hmade]
    intro hc
    have hty : newType = .sched := hc
    have := hr.retypeable
    rw [hty] at this
    cases this
  · refine .inl ?_
    by_cases e : k = ut
    · obtain ⟨watermark, -, hut⟩ := hr.charged
      rw [e]
      exact schedId_congr (by rw [hut]) (by rw [hut])
    · have hsame := hr.frame k e (by omega)
      exact schedId_congr (by rw [hsame]) (by rw [hsame])

/-- What a call does to the ids of its space: `split` issues the next one, `move_cap` moves one, and
no other call makes one. -/
inductive IdEffect (cs : CSpace N) : Call → CSpace N → Prop
  | dropped {c cs'} : Dropped cs cs' → IdEffect cs c cs'
  | issued {src dest amount cs'} : cs'.nextObj.toNat = cs.nextObj.toNat + 1 →
      (∀ d, cs'.schedId d = if d = dest then some cs.nextObj else cs.schedId d) →
      IdEffect cs (.split src dest amount) cs'
  | moved {src dest cs'} : cs'.nextObj = cs.nextObj →
      (∀ d, cs'.schedId d = if d = src then none else if d = dest then cs.schedId src
      else cs.schedId d) → IdEffect cs (.moveCap src dest) cs'

theorem call_ids {c : Call} {v : Option U64} (h : CallEffect cs c v cs') : IdEffect cs c cs' := by
  cases h with
  | retype hr => exact .dropped (Retyped.dropped hr)
  | @mint src dest newRights badge _ ht _ hd _ =>
    refine .dropped (.of_put hd ?_)
    show (cs.slot src).cap.capType ≠ .sched
    exact fun hc => ht (hc ▸ (by decide))
  | @copy src dest _ ht hd _ => exact .dropped (.of_put hd fun hc => ht (hc ▸ (by decide)))
  | stay => exact .dropped (.refl _)
  | @moveCap src dest _ hl hne hd hfree hm =>
    refine .moved hm.nextObj fun k => ?_
    by_cases hks : k = src
    · rw [if_pos hks]
      refine schedId_of_ne ?_
      rw [hm.slot, if_pos hks]
      exact CapType.noConfusion
    · rw [if_neg hks]
      by_cases hkd : k = dest
      · rw [if_pos hkd]
        exact schedId_congr (by rw [hm.slot, if_neg hks, if_pos hkd])
          (by rw [hm.slot, if_neg hks, if_pos hkd])
      · rw [if_neg hkd]
        have same : (cs'.slot k).cap = (cs.slot k).cap := by
          rw [hm.slot, if_neg hks, if_neg hkd]
          unfold reparented
          split <;> rfl
        exact schedId_congr (by rw [same]) (by rw [same])
  | @split src dest amount child parent next hl ht hd hfree hs hnext =>
    refine .issued hnext fun k => ?_
    have hne : src ≠ dest := fun e => hfree (e ▸ hl)
    have slots := slot_split cs child parent next hl hd
    by_cases hks : k = src
    · rw [if_neg (hks ▸ hne)]
      refine schedId_congr ?_ ?_
      all_goals
        rw [slots, if_pos hks, hks]
        rfl
    · by_cases hkd : k = dest
      · rw [if_pos hkd]
        refine schedId_some.mpr ⟨?_, ?_⟩
        all_goals
          rw [slots, if_neg hks, if_pos hkd]
          rfl
      · rw [if_neg hkd]
        refine schedId_congr ?_ ?_
        all_goals rw [slots, if_neg hks, if_neg hkd]
  | delegateSelf => exact .dropped (.refl _)
  | @delegate src dest amount s d hne hl hl' _ _ _ =>
    have slots : ∀ k, ((cs.put src (cs.withBudget src s)).put dest (cs.withBudget dest d)).slot k =
        if k = dest then cs.withBudget dest d else if k = src then cs.withBudget src s
          else cs.slot k := by
      intro k
      rw [slot_put _ dest k _ hl'.lt, slot_put cs src k _ hl.lt]
    refine .dropped ⟨fun k => .inl ?_, rfl⟩
    by_cases hkd : k = dest
    · refine schedId_congr ?_ ?_
      all_goals
        rw [slots, if_pos hkd, hkd]
        rfl
    · by_cases hks : k = src
      · refine schedId_congr ?_ ?_
        all_goals
          rw [slots, if_neg hkd, if_pos hks, hks]
          rfl
      · refine schedId_congr ?_ ?_
        all_goals rw [slots, if_neg hkd, if_neg hks]
  | mintReply hd _ => exact .dropped (.of_put hd CapType.noConfusion)
  | consumeReply _ _ hd => exact .dropped (Destroyed.dropped hd)
  | revoke hl hs => exact .dropped ((Sweep.dropped hs).trans (dropped_reclaimed _ hl.lt))
  | delete hl hs _ hd =>
    exact .dropped (((Sweep.dropped hs).trans (dropped_reclaimed _ hl.lt)).trans
      (Destroyed.dropped hd))

/-- `set_root_sched` at an empty slot. -/
theorem setRootSched_ids (cs : CSpace N) (slot : Nat) (budget period : U32) :
    Ends (CSpace.setRootSched slot budget period) cs
      (fun _ cs' => cs'.nextObj.toNat = cs.nextObj.toNat + 1 ∧
      ∀ d, cs'.schedId d = if d = slot then some cs.nextObj else cs.schedId d)
        (fun _ _ => True) := by
  unfold CSpace.setRootSched
  rw [ends_bind, CSpace.ends_takeObj]
  refine ⟨fun _ => trivial, fun next hnext => ?_⟩
  rw [CSpace.ends_writeSlot]
  refine ⟨fun _ => trivial, fun hd => ⟨hnext, fun k => ?_⟩⟩
  by_cases hk : k = slot
  · rw [if_pos hk]
    refine schedId_some.mpr ⟨?_, ?_⟩
    all_goals rw [slot_put _ slot k _ hd, if_pos hk]
  · rw [if_neg hk]
    refine schedId_congr ?_ ?_
    all_goals
      rw [slot_put _ slot k _ hd, if_neg hk]
      rfl

end Calls

/-! ## Identities across spaces -/

variable {ι : Type} {size : ι → Nat}

/-- The place `(i, d)` is slot `d` of space `i`. -/
def schedIds (s : System size) (p : ι × Nat) : Option U64 := (s p.1).schedId p.2

/-- The `Sched`s of the spaces of one issuer are distinct, and their ids were issued by it. -/
structure Homed (home : ι → ι) (s : System size) : Prop where
  distinct : Serial.Distinct (fun p : ι × Nat => home p.1) (schedIds s)
  below : ∀ p o, schedIds s p = some o → o.toNat < (s (home p.1)).nextObj.toNat

namespace Homed

variable {home : ι → ι} {s s' : System size}

theorem init (home : ι → ι) : Homed home (fun i => (CSpace.new : CSpace (size i))) := by
  have empty : ∀ p : ι × Nat, schedIds (fun i => (CSpace.new : CSpace (size i))) p = none :=
    fun p => schedId_of_ne (by rw [slot_new]; exact CapType.noConfusion)
  constructor
  case distinct =>
    intro p q o _ hp
    rw [empty] at hp
    cases hp
  case below =>
    intro p o hp
    rw [empty] at hp
    cases hp

/-- Ids that were there, at places of the same issuer. -/
theorem of_old (h : Homed home s) (hd : Serial.Distinct (fun p : ι × Nat => home p.1) (schedIds s'))
    (hold : ∀ p o, schedIds s' p = some o → ∃ q, schedIds s q = some o ∧ home q.1 = home p.1)
    (hnext : ∀ i, (s' i).nextObj = (s i).nextObj) : Homed home s' := by
  refine ⟨hd, fun p o hp => ?_⟩
  obtain ⟨q, hq, hg⟩ := hold p o hp
  rw [hnext, ← hg]
  exact h.below q o hq

theorem drop (h : Homed home s) (hids : ∀ p, schedIds s' p = schedIds s p ∨ schedIds s' p = none)
    (hnext : ∀ i, (s' i).nextObj = (s i).nextObj) : Homed home s' := by
  refine h.of_old (h.distinct.drop hids) (fun p o hp => ?_) hnext
  rcases hids p with hs | hs
  · exact ⟨p, hs ▸ hp, rfl⟩
  · rw [hs] at hp
    cases hp

end Homed

variable [DecidableEq ι]

inductive SchedEvent (ι : Type) where
  | rootSched (i : ι) (slot : Nat) (budget period : U32)
  | act (ev : SysEvent ι)

/-- A `set_root_sched` at a valid, empty slot, a call or a grant. -/
def SchedStep (s : System size) : SchedEvent ι → System size → Prop
  | .rootSched i slot budget period, s' => slot < size i ∧ ¬ (s i).Live slot ∧
      ∃ cs', CSpace.setRootSched slot budget period (s i) = .ok () cs' ∧
      s' = Function.update s i cs'
  | .act ev, s' => SysStep s ev s'

/-- `home` is the issuer of each space.  Only an issuer makes `Sched`s, and they are granted only
between spaces of one issuer. -/
def Homely (home : ι → ι) (s : System size) : SchedEvent ι → Prop
  | .rootSched i _ _ _ => home i = i
  | .act ⟨.call i (.split _ _ _), .ok _⟩ => home i = i
  | .act ⟨.grant i j srcSlot _ _ _ _, .ok _⟩ =>
    ((s i).slot srcSlot).cap.capType = .sched → home i = home j
  | _ => True

/-- What is read of one space, after one of them has changed. -/
theorem read_update {β : Type} (f : ∀ j, CSpace (size j) → β) (s : System size) (i : ι)
    (cs : CSpace (size i)) (j : ι) :
    f j (Function.update s i cs j) = if j = i then f i cs else f j (s j) := by
  split
  · next h =>
    subst h
    rw [Function.update_self]
  · next h => rw [Function.update_of_ne h]

theorem schedIds_update (s : System size) (i : ι) (cs : CSpace (size i)) (p : ι × Nat) :
    schedIds (Function.update s i cs) p = if p.1 = i then cs.schedId p.2 else schedIds s p :=
  read_update (fun _ cs => cs.schedId p.2) s i cs p.1

theorem nextObj_update (s : System size) (i : ι) (cs : CSpace (size i)) (j : ι) :
    (Function.update s i cs j).nextObj = if j = i then cs.nextObj else (s j).nextObj :=
  read_update (fun _ cs => cs.nextObj) s i cs j

namespace Homed

variable {home : ι → ι} {s s' : System size}

theorem move (h : Homed home s) {p q : ι × Nat} (hg : home p.1 = home q.1)
    (hids : ∀ r, schedIds s' r = if r = p then none else if r = q then schedIds s p
      else schedIds s r) (hnext : ∀ i, (s' i).nextObj = (s i).nextObj) : Homed home s' := by
  refine h.of_old (h.distinct.move hg hids) (fun r o hr => ?_) hnext
  rw [hids] at hr
  split at hr
  · cases hr
  · split at hr
    · next hrq => exact ⟨p, hr, by rw [hrq]; exact hg⟩
    · exact ⟨r, hr, rfl⟩

variable {i : ι} {cs : CSpace (size i)}

/-- The issuer gives out the next id. -/
theorem issue (h : Homed home s) {d : Nat} (hi : home i = i)
    (hnext : cs.nextObj.toNat = (s i).nextObj.toNat + 1)
    (hids : ∀ k, cs.schedId k = if k = d then some (s i).nextObj else (s i).schedId k) :
    Homed home (Function.update s i cs) := by
  have places : ∀ p, schedIds (Function.update s i cs) p = if p = (i, d) then some (s i).nextObj
    else schedIds s p := by
    rintro ⟨j, k⟩
    rw [schedIds_update]
    dsimp only
    by_cases hj : j = i
    · subst hj
      rw [if_pos rfl, hids]
      by_cases hk : k = d
      · rw [if_pos hk, if_pos (by rw [hk])]
      · rw [if_neg hk, if_neg (by rintro ⟨⟩; exact hk rfl)]
        rfl
    · rw [if_neg hj, if_neg (by rintro ⟨⟩; exact hj rfl)]
  have later : ∀ j, (s j).nextObj.toNat ≤ (Function.update s i cs j).nextObj.toNat := by
    intro j
    rw [nextObj_update]
    split
    · next hj =>
      subst hj
      omega
    · exact Nat.le_refl _
  constructor
  case distinct =>
    refine h.distinct.issue (fun q hq hc => ?_) places
    -- an id of this issuer is below its counter
    have below := h.below q _ hc
    rw [show home q.1 = i from hq.trans hi] at below
    exact Nat.lt_irrefl _ below
  case below =>
    intro p o hp
    rw [places] at hp
    split at hp
    · next hpi =>
      cases hp
      rw [hpi]
      dsimp only
      rw [hi, Function.update_self]
      omega
    · exact Nat.lt_of_lt_of_le (h.below p o hp) (later _)

theorem call (h : Homed home s) {c : Call} {v : Option U64} (he : CallEffect (s i) c v cs)
    (hi : ∀ src dest amount, c = .split src dest amount → home i = i) :
    Homed home (Function.update s i cs) := by
  have counters : cs.nextObj = (s i).nextObj →
    ∀ j, (Function.update s i cs j).nextObj = (s j).nextObj := by
    intro hn j
    rw [nextObj_update]
    split
    · next hj =>
      subst hj
      exact hn
    · rfl
  cases call_ids he with
  | dropped hd =>
    refine h.drop (fun p => ?_) (counters hd.nextObj)
    rw [schedIds_update]
    obtain ⟨j, k⟩ := p
    split
    · next hj =>
      cases hj
      exact hd.ids k
    · exact .inl rfl
  | issued hnext hids => exact h.issue (hi _ _ _ rfl) hnext hids
  | @moved src dest _ hnext hids =>
    refine h.move (p := (i, src)) (q := (i, dest)) rfl ?_ (counters hnext)
    rintro ⟨j, k⟩
    rw [schedIds_update]
    dsimp only
    by_cases hj : j = i
    · subst hj
      rw [if_pos rfl, hids]
      simp only [Prod.mk.injEq, true_and]
      rfl
    · rw [if_neg hj, if_neg (by rintro ⟨⟩; exact hj rfl), if_neg (by rintro ⟨⟩; exact hj rfl)]

/-- Only a move takes a `Sched` to another space. -/
theorem grant (h : Homed home s) {j : ι} {srcSlot dstSlot : Nat} {newRights : Rights} {badge : U64}
    {mode : GrantMode} {a : CSpace (size i)} {b : CSpace (size j)} (hij : i ≠ j)
    (hg : Granted (s i) srcSlot (s j) dstSlot newRights badge mode a b)
    (hhome : ((s i).slot srcSlot).cap.capType = .sched → home i = home j) :
    Homed home (Function.update (Function.update s i a) j b) := by
  have counters : ∀ k, (Function.update (Function.update s i a) j b k).nextObj = (s k).nextObj := by
    intro k
    rw [nextObj_update, nextObj_update]
    split
    · next hk =>
      subst hk
      rw [hg.dst]
      rfl
    · split
      · next hk =>
        subst hk
        rw [hg.src]
        split <;> rfl
      · rfl
  have vacated : ∀ k, a.schedId k = if mode = .move ∧
    k = srcSlot then none else (s i).schedId k := by
    intro k
    rw [hg.src]
    by_cases hm : mode = .move
    · rw [if_pos hm]
      by_cases hk : k = srcSlot
      · rw [if_pos ⟨hm, hk⟩]
        refine schedId_of_ne ?_
        rw [slot_put _ srcSlot k _ hg.live.lt, if_pos hk]
        exact CapType.noConfusion
      · rw [if_neg fun hc => hk hc.2]
        refine schedId_congr ?_ ?_
        all_goals rw [slot_put _ srcSlot k _ hg.live.lt, if_neg hk]
    · rw [if_neg hm, if_neg fun hc => hm hc.1]
  have filled : ∀ k, b.schedId k = if k = dstSlot then (s i).schedId srcSlot
    else (s j).schedId k := by
    intro k
    rw [hg.dst]
    by_cases hk : k = dstSlot
    · rw [if_pos hk]
      refine schedId_congr ?_ ?_
      all_goals rw [slot_put _ dstSlot k _ hg.inRange, if_pos hk]
    · rw [if_neg hk]
      refine schedId_congr ?_ ?_
      all_goals rw [slot_put _ dstSlot k _ hg.inRange, if_neg hk]
  by_cases hs : ((s i).slot srcSlot).cap.capType = .sched
  · have hm : mode = .move := by
      cases mode with
      | move => rfl
      | mint => exact absurd (by rw [hs]; decide) (hg.mintable rfl)
    refine h.move (p := (i, srcSlot)) (q := (j, dstSlot)) (hhome hs) ?_ counters
    rintro ⟨k, d⟩
    rw [schedIds_update, schedIds_update]
    dsimp only
    by_cases hk : k = j
    · subst hk
      rw [if_pos rfl, filled, if_neg fun hc => hij (Prod.mk.inj hc).1.symm]
      simp only [Prod.mk.injEq, true_and]
      rfl
    · rw [if_neg hk]
      by_cases hki : k = i
      · subst hki
        rw [if_pos rfl, vacated]
        rw [if_neg (show ¬ (k, d) = (j, dstSlot) from fun hc => hk (Prod.mk.inj hc).1)]
        simp only [Prod.mk.injEq, true_and, hm]
        rfl
      · rw [if_neg hki, if_neg fun hc => hki (Prod.mk.inj hc).1, if_neg fun hc =>
          hk (Prod.mk.inj hc).1]
  · refine h.drop ?_ counters
    rintro ⟨k, d⟩
    rw [schedIds_update, schedIds_update]
    dsimp only
    by_cases hk : k = j
    · subst hk
      rw [if_pos rfl, filled]
      split
      · exact .inr (schedId_of_ne hs)
      · exact .inl rfl
    · rw [if_neg hk]
      by_cases hki : k = i
      · subst hki
        rw [if_pos rfl, vacated]
        split
        · exact .inr rfl
        · exact .inl rfl
      · rw [if_neg hki]
        exact .inl rfl

/-- **One step.** -/
theorem step (h : Homed home s) {ev : SchedEvent ι} (hs : SchedStep s ev s')
    (hhome : Homely home s ev) : Homed home s' := by
  cases ev with
  | rootSched i slot budget period =>
    obtain ⟨_, _, cs, hok, rfl⟩ := hs
    obtain ⟨hnext, hids⟩ := (setRootSched_ids (s i) slot budget period).ok hok
    exact h.issue hhome hnext hids
  | act ev =>
    obtain ⟨act, ret⟩ := ev
    rcases sysStep_spec hs with ⟨v, hv, he⟩ | ⟨e, _, rfl⟩
    · cases show ret = .ok v from hv
      cases he with
      | call _ he =>
        refine h.call he ?_
        rintro src dest amount rfl
        exact hhome
      | grant hij hg => exact h.grant hij hg hhome
    · exact h

end Homed

/-- A step in which `home` is kept to. -/
def Issued (home : ι → ι) (s : System size) (ev : SchedEvent ι) (s' : System size) : Prop :=
  SchedStep s ev s' ∧ Homely home s ev

/-- **`Sched` objects have distinct identities, with one issuer for each group of spaces.**  Two
different live `Sched`s of one space have different `objref`s. -/
theorem scheds_distinct (home : ι → ι) {tr : List (SchedEvent ι)} {s : System size}
    (h : Run (Issued home) (fun i => (CSpace.new : CSpace (size i))) tr s) (i : ι) (d d' : Nat)
    (hd : ((s i).slot d).cap.capType = .sched) (hd' : ((s i).slot d').cap.capType = .sched)
    (hne : d ≠ d') : ((s i).slot d).cap.objref ≠ ((s i).slot d').cap.objref := by
  have homed : Homed home s := h.inv (Homed home) (.init home) fun _ _ _ hk hs => hk.step hs.1 hs.2
  intro hc
  have same := homed.distinct (i, d) (i, d') _ rfl (schedId_some.mpr ⟨hd, rfl⟩)
    (schedId_some.mpr ⟨hd', hc.symm⟩)
  cases same
  exact hne rfl

/-- A loader splits its budget and hands two parts to the peer. -/
def budgetsHandedOver : List (SchedEvent Party) :=
  [.rootSched .owner 0 1000 10, .act ⟨.call .owner (.split 0 1 100), .ok none⟩,
    .act ⟨.call .owner (.split 0 2 50), .ok none⟩,
    .act ⟨.grant .owner .peer 1 0 Rights.GRANT 0 .move, .ok none⟩,
    .act ⟨.grant .owner .peer 2 1 Rights.GRANT 0 .move, .ok none⟩]

theorem scheds_distinct_oneIssuer :
    ∃ s : System (fun _ : Party => 4),
    Run (Issued fun _ => .owner) (fun _ => CSpace.new) budgetsHandedOver s ∧
      ((s .peer).slot 0).cap.capType = .sched ∧ ((s .peer).slot 1).cap.capType = .sched ∧
      ((s .peer).slot 0).cap.objref ≠ ((s .peer).slot 1).cap.objref := by
  have run : ∃ s : System (fun _ : Party => 4), Run (Issued fun _ => .owner) (fun _ =>
    CSpace.new) budgetsHandedOver s ∧
      ((s .peer).slot 0).cap.capType = .sched ∧ ((s .peer).slot 1).cap.capType = .sched :=
    ⟨_, .cons ⟨⟨by decide, by decide, _, rfl, rfl⟩, rfl⟩ (.cons ⟨rfl, rfl⟩ (.cons ⟨rfl, rfl⟩
      (.cons ⟨rfl, fun _ => rfl⟩ (.cons ⟨rfl, fun _ => rfl⟩ (.nil _))))), rfl, rfl⟩
  obtain ⟨s, hrun, h0, h1⟩ := run
  exact ⟨s, hrun, h0, h1, scheds_distinct _ hrun .peer 0 1 h0 h1 (by decide)⟩

/-- Both parties install a root `Sched`, and one moves its own to the other: two `Sched`s of object
1. -/
theorem scheds_collide :
    ∃ s : System (fun _ : Party => 4),
    Run SchedStep (fun _ => CSpace.new) [.rootSched .owner 0 1000 10, .rootSched .peer 0 500 10,
      .act ⟨.grant .owner .peer 0 1 Rights.GRANT 0 .move, .ok none⟩] s ∧
      ((s .peer).slot 0).cap.capType = .sched ∧ ((s .peer).slot 1).cap.capType = .sched ∧
      ((s .peer).slot 0).cap.objref = ((s .peer).slot 1).cap.objref :=
  ⟨_, .cons ⟨by decide, by decide, _, rfl, rfl⟩ (.cons ⟨by decide, by decide, _, rfl, rfl⟩
  (.cons rfl (.nil _))),
    rfl, rfl, rfl⟩

end Praesidium
