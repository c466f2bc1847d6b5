import Praesidium.System.Basic

/-!
Conservation across capability spaces.

CPU time and the capabilities that are never duplicated are weights (`Weight`), so
one law of a step covers both: a step adds to a weight at most what `mint_reply` makes.

    total W.w s' ≤ total W.w s + minting W ev                      (sysStep_total_le)
    total schedSize s' ≤ total schedSize s                         (time_never_forged)
    consumed k tr + total (names .reply k) s ≤ replied k tr        (replies_bounded)

`Reply` and `SharedRo` records cross no grant, so what a space holds of them changes
only by its own calls (`held_le`).
-/

namespace Praesidium

open Fallible CSpace

variable {ι : Type} {size : ι → Nat}

/-! ## Steps and weights -/

/-- What a step may add to a weight. -/
def minting (W : Weight) : SysEvent ι → Nat
  | ⟨.call _ c, .ok _⟩ => minted W c
  | _ => 0

/-- The steps that are exact: budget or capabilities move, or a `Reply` is made. -/
def SysAction.Transfers : SysAction ι → Prop
  | .call _ c => c.Transfers
  | .grant _ _ _ _ _ _ _ => True

theorem minting_schedTime (ev : SysEvent ι) : minting schedTime ev = 0 := by
  obtain ⟨act, ret⟩ := ev
  cases act with
  | call i c =>
    cases ret with
    | ok v => cases c <;> rfl
    | error e => rfl
  | grant => rfl

section Totals

variable [DecidableEq ι] [Fintype ι]

variable {s s' : System size} {ev : SysEvent ι}

/-- **No step adds to a linear quantity**, `mint_reply` apart. -/
theorem sysStep_total_le (W : Weight) (h : SysStep s ev s') :
    total W.w s' ≤ total W.w s + minting W ev := by
  obtain ⟨act, ret⟩ := ev
  rcases sysStep_spec h with ⟨v, hv, he⟩ | ⟨e, -, rfl⟩
  · cases show ret = .ok v from hv
    rcases sysEffect_total W he with ⟨i, c, cs', hact, -, hc, hsum⟩ | ⟨i, j, a, b, r, g, m, -, hsum⟩
    · cases show act = .call i c from hact
      have hle := call_weigh_le W hc
      show _ ≤ total W.w s + minted W c
      omega
    · rw [hsum]
      exact Nat.le_add_right _ _
  · exact Nat.le_add_right _ _

theorem sysStep_total_eq (W : Weight) {v : Option U64} (h : SysStep s ev s') (hok : ev.ret = .ok v)
    (ht : ev.act.Transfers) : total W.w s' = total W.w s + minting W ev := by
  obtain ⟨act, ret⟩ := ev
  cases show ret = .ok v from hok
  rcases sysStep_spec h with ⟨v', -, he⟩ | ⟨e, hv, -⟩
  · rcases sysEffect_total W he with ⟨i, c, cs', hact, -, hc, hsum⟩ | ⟨i, j, a, b, r, g, m,
      hact, hsum⟩
    · cases show act = .call i c from hact
      have heq := call_weigh_eq W ht hc
      show _ = total W.w s + minted W c
      omega
    · cases show act = .grant i j a b r g m from hact
      exact hsum
  · cases hv

/-! ## CPU time -/

theorem sysStep_time_le (h : SysStep s ev s') : total schedSize s' ≤ total schedSize s := by
  have hle := sysStep_total_le schedTime h
  rwa [minting_schedTime] at hle

/-- **CPU time is never forged.**  Along every run the capacity of all `Sched` capabilities
together never grows, and the steps that move budget or capabilities keep it. -/
theorem time_never_forged {s t u : System size} {tr : List (SysEvent ι)} {ev : SysEvent ι}
    (hrun : Run SysStep s tr t) (hstep : SysStep t ev u) :
    total schedSize t ≤ total schedSize s ∧ total schedSize u ≤ total schedSize t ∧
      (∀ v, ev.ret = .ok v → ev.act.Transfers → total schedSize u = total schedSize t) := by
  refine ⟨?_, sysStep_time_le hstep, fun v hv ht => ?_⟩
  · exact hrun.inv (fun x => total schedSize x ≤ total schedSize s) (Nat.le_refl _)
      (fun x ev y hx hs => Nat.le_trans (sysStep_time_le hs) hx)
  · have heq := sysStep_total_eq schedTime hstep hv ht
    rwa [minting_schedTime] at heq

/-- A space with a root `Sched` and an empty one. -/
def loaderSpaces : System (fun _ : Party => 4) := fun i =>
  if i = .owner then CSpace.new.put 0 ⟨Boot.cap 1 (.rootSched 0 1000 10), NIL⟩ else CSpace.new

/-- Part of the budget is split off and handed to the other space, which answers a call. -/
def handedOver : List (SysEvent Party) × System (fun _ : Party => 4) :=
  (drive sysNext loaderSpaces [.call .owner (.split 0 1 100),
    .grant .owner .peer 1 0 Rights.DERIVE 0 .move,
    .call .peer (.mintReply 1 7 0), .call .peer (.consumeReply 1)]).get (by decide)

theorem handedOver_run : Run SysStep loaderSpaces handedOver.1 handedOver.2 :=
  run_of_drive step_of_sysNext _ _ handedOver (Option.some_get _).symm

theorem time_never_forged_handedOver :
    total schedSize handedOver.2 ≤ 1000 ∧
      ∃ u, SysStep handedOver.2 ⟨.call .owner (.split 0 1 50), .ok none⟩ u ∧
        total schedSize u = total schedSize handedOver.2 := by
  have hstep : SysStep handedOver.2 ⟨.call .owner (.split 0 1 50), .ok none⟩
      ((sysNext handedOver.2 (.call .owner (.split 0 1 50))).get (by decide)).2 := rfl
  have h := time_never_forged handedOver_run hstep
  exact ⟨h.1, _, hstep, h.2.2 none rfl trivial⟩

end Totals

/-! ## Replies -/

/-- The space and the caller of a successful `mint_reply`. -/
def mintsReply : SysEvent ι → Option (ι × U64)
  | ⟨.call i (.mintReply _ caller _), .ok _⟩ => some (i, caller)
  | _ => none

/-- The caller id a successful `consume_reply` returned. -/
def consumesReply : SysEvent ι → Option U64
  | ⟨.call _ (.consumeReply _), .ok v⟩ => v
  | _ => none

/-- How often a run made a `Reply` for caller `k`. -/
def replied (k : U64) (tr : List (SysEvent ι)) : Nat :=
  tr.countP fun ev => (mintsReply ev).map Prod.snd = some k

/-- How often a run consumed one. -/
def consumed (k : U64) (tr : List (SysEvent ι)) : Nat :=
  tr.countP fun ev => consumesReply ev = some k

/-- What a step adds to the holdings of one object. -/
theorem minting_holdings (ty : CapType) (o : U64) (ht : ty ∈ singleTypes) (ev : SysEvent ι) :
    minting (holdings ty o ht) ev = if ty = .reply ∧ (mintsReply ev).map Prod.snd = some o then 1
      else 0 := by
  obtain ⟨act, ret⟩ := ev
  have hnone : (0 : Nat) = if ty = .reply ∧ (none : Option U64) = some o then 1 else 0 := by simp
  cases act with
  | grant => exact hnone
  | call i c =>
    cases ret with
    | error e => cases c <;> exact hnone
    | ok v =>
      cases c with
      | mintReply dest caller badge =>
        show (if CapType.reply = ty ∧ caller = o then 1 else 0) = if ty = .reply ∧
          some caller = some o then 1 else 0
        simp only [Option.some.injEq, eq_comm]
      | _ => exact hnone

variable {N : Nat}

/-- A consumed `Reply` is gone from its space. -/
theorem consume_weigh {cs cs' : CSpace N} {dest : Nat} {v : Option U64}
    (h : CallEffect cs (.consumeReply dest) v cs') (k : U64) :
    cs'.weigh (names .reply k) + (if v = some k then 1 else 0) = cs.weigh (names .reply k) := by
  cases h with
  | consumeReply hl ht hd =>
    have hsum := weigh_change_one (names .reply k) cs cs' dest hl.lt (fun j hj => by
      rw [hd.frame j hj (fun hc => absurd (ht.symm.trans hc.1) (by decide))])
    have hself : names .reply k (cs'.slot dest).cap = 0 := by rw [hd.self]; rfl
    have hold : names .reply k (cs.slot dest).cap = if some (cs.slot dest).cap.objref =
      some k then 1 else 0 := by
      unfold names
      simp only [ht, true_and, Option.some.injEq]
    omega

section Replies

variable [DecidableEq ι] [Fintype ι]

variable {s : System size}

theorem sysStep_replies {s' : System size} {ev : SysEvent ι} (h : SysStep s ev s') (k : U64) :
    total (names .reply k) s' + (if consumesReply ev = some k then 1 else 0) ≤
      total (names .reply k) s + (if (mintsReply ev).map Prod.snd = some k then 1 else 0) := by
  by_cases hc : consumesReply ev = some k
  · -- only a successful `consume_reply` has a value here
    obtain ⟨act, ret⟩ := ev
    rcases sysStep_spec h with ⟨v, hv, he⟩ | ⟨e, hv, -⟩
    · cases show ret = .ok v from hv
      cases he with
      | @call i c _ cs' _ he =>
        cases c with
        | consumeReply dest =>
          have hcs := consume_weigh he k
          have hsum := total_update (names .reply k) s i cs'
          have hk : v = some k := hc
          rw [if_pos hk] at hcs
          rw [if_pos hc]
          omega
        | _ => cases hc
      | grant => cases hc
    · cases show ret = .error e from hv
      cases act with
      | call i c => cases c <;> cases hc
      | grant => cases hc
  · have hle := sysStep_total_le (holdings .reply k (by decide)) h
    rw [minting_holdings] at hle
    simp only [true_and] at hle
    rw [if_neg hc]
    exact hle

/-- **Replies are answered once.** -/
theorem replies_bounded {t : System size} {tr : List (SysEvent ι)} (hrun : Run SysStep s tr t)
    (hnone : ∀ i d, (s i).Live d → ((s i).slot d).cap.capType ≠ .reply) (k : U64) :
    consumed k tr + total (names .reply k) t ≤ replied k tr := by
  have hzero : total (names .reply k) s = 0 := by
    unfold total CSpace.weigh
    refine Finset.sum_eq_zero (fun i _ => Finset.sum_eq_zero (fun d _ => if_neg ?_))
    rintro ⟨hty, -⟩
    refine hnone i d ?_ hty
    unfold CSpace.Live RawCap.isNull
    rw [hty]
    rfl
  refine hrun.inv_trace (fun tr t => consumed k tr + total (names .reply k) t ≤ replied k tr) ?_ ?_
  · show 0 + total (names .reply k) s ≤ 0
    omega
  · intro tr u ev v hi hs
    have hone := sysStep_replies hs k
    unfold consumed replied at hi ⊢
    rw [List.countP_append, List.countP_append, List.countP_singleton, List.countP_singleton]
    simp only [decide_eq_true_eq]
    omega

end Replies

/-! ## Holdings of one space -/

theorem mem_singleTypes : ∀ ty ∈ [CapType.reply, .sharedRo], ty ∈ singleTypes := by decide

/-- A grant brings no `Reply` and no `SharedRo`. -/
theorem grant_names {M : Nat} {a a' : CSpace N} {b b' : CSpace M} {srcSlot dstSlot : Nat}
    {newRights : Rights} {badge : U64} {mode : GrantMode}
    (h : Granted a srcSlot b dstSlot newRights badge mode a' b') (ty : CapType) (o : U64)
    (ht : ty ∈ [CapType.reply, .sharedRo]) :
    a'.weigh (names ty o) ≤ a.weigh (names ty o) ∧ b'.weigh (names ty o) = b.weigh
      (names ty o) := by
  have hty : ((a.slot srcSlot).cap.capType ≠ ty) := fun e => h.transferable (e ▸ ht)
  constructor
  · rw [h.src]
    by_cases hm : mode = .move
    · rw [if_pos hm]
      have hput := weigh_put (names ty o) a srcSlot .EMPTY h.live.lt
      have hempty : names ty o Cte.EMPTY.cap = 0 := (holdings ty o (mem_singleTypes ty ht)).w_empty
      omega
    · rw [if_neg hm]
  · rw [h.dst]
    have hplace := weigh_place (holdings ty o (mem_singleTypes ty ht)) dstSlot
      ⟨{ (a.slot srcSlot).cap with rights := newRights, badge := badge }, NIL⟩ h.inRange h.free
    have hnew : names ty o { (a.slot srcSlot).cap with rights := newRights, badge := badge } = 0 :=
      if_neg fun hn => hty hn.1
    exact hplace.trans (by rw [show (holdings ty o (mem_singleTypes ty ht)).w _ = 0 from hnew]; rfl)

/-- What one space holds of a `Reply` or a `SharedRo` grows only by its own `mint_reply`. -/
theorem held_le [DecidableEq ι] {s s' : System size} {ev : SysEvent ι} (h : SysStep s ev s')
    (ty : CapType) (o : U64) (ht : ty ∈ [CapType.reply, .sharedRo]) (i : ι) :
    (s' i).weigh (names ty o) ≤
      (s i).weigh (names ty o) + (if ty = .reply ∧ mintsReply ev = some (i, o) then 1 else 0) := by
  have ht' := mem_singleTypes ty ht
  obtain ⟨act, ret⟩ := ev
  rcases sysStep_spec h with ⟨v, hv, he⟩ | ⟨e, -, rfl⟩
  · cases show ret = .ok v from hv
    cases he with
    | @call k c _ cs' _ he =>
      by_cases hk : i = k
      · subst hk
        rw [Function.update_self]
        have hle := call_weigh_le (holdings ty o ht') he
        have hminted : minted (holdings ty o ht') c =
            if ty = .reply ∧ mintsReply (⟨.call i c, .ok v⟩ : SysEvent ι) =
              some (i, o) then 1 else 0 := by
          cases c with
          | mintReply dest caller badge =>
            show (if CapType.reply = ty ∧ caller = o then 1 else 0) =
              if ty = .reply ∧ some (i, caller) = some (i, o) then 1 else 0
            simp only [Option.some.injEq, Prod.mk.injEq, true_and, eq_comm]
          | _ => simp [minted, mintsReply]
        rw [← hminted]
        exact hle
      · rw [Function.update_of_ne hk]
        exact Nat.le_add_right _ _
    | @grant k j _ _ _ _ _ a' b' hkj hg =>
      obtain ⟨h1, h2⟩ := grant_names hg ty o ht
      by_cases hj : i = j
      · subst hj
        rw [update_two_right]
        omega
      · by_cases hk : i = k
        · subst hk
          rw [update_two_left s hkj]
          omega
        · rw [update_two_other s a' b' hk hj]
          exact Nat.le_add_right _ _
  · exact Nat.le_add_right _ _

/-! ## Linear capabilities -/

/-- **Linear capabilities stay linear.**  No step of a run adds a capability to an object of
type `Untyped`, `Reply`, `Domain` or `SharedRo`, except `mint_reply`, which adds exactly
its own; a `Reply` is consumed at most as often as it was made; and `Reply` and `SharedRo`
records appear in a space only by its own `mint_reply`. -/
theorem linear_stay_linear [DecidableEq ι] [Fintype ι] {s t u : System size}
    {tr : List (SysEvent ι)} {ev : SysEvent ι} (hrun : Run SysStep s tr t)
    (hstep : SysStep t ev u) :
    (mintsReply ev = none → ∀ ty ∈ singleTypes, ∀ o, total (names ty o) u ≤ total (names ty o) t) ∧
    (∀ i caller, mintsReply ev = some (i, caller) → ∀ ty ∈ singleTypes, ∀ o,
      total (names ty o) u = total (names ty o) t + if ty = .reply ∧ o = caller then 1 else 0) ∧
    ((∀ i d, (s i).Live d → ((s i).slot d).cap.capType ≠ .reply) →
      ∀ k, consumed k tr ≤ replied k tr) ∧
    (∀ ty ∈ [CapType.reply, .sharedRo], ∀ o i, (u i).weigh (names ty o) ≤
      (t i).weigh (names ty o) + if ty = .reply ∧ mintsReply ev = some (i, o) then 1 else 0) := by
  refine ⟨fun hm ty ht o => ?_, fun i caller hm ty ht o => ?_, fun hnone k => ?_, fun ty ht o i =>
    held_le hstep ty o ht i⟩
  · have hle := sysStep_total_le (holdings ty o ht) hstep
    rw [minting_holdings, hm] at hle
    rwa [if_neg (by simp)] at hle
  · -- a successful `mint_reply` is one of the exact steps
    have hexact : (∃ v, ev.ret = .ok v) ∧ ev.act.Transfers := by
      obtain ⟨act, ret⟩ := ev
      cases act with
      | grant => cases hm
      | call j c =>
        cases ret with
        | error e => cases c <;> cases hm
        | ok v =>
          cases c with
          | mintReply => exact ⟨⟨v, rfl⟩, trivial⟩
          | _ => cases hm
    obtain ⟨⟨v, hv⟩, ht'⟩ := hexact
    have heq := sysStep_total_eq (holdings ty o ht) hstep hv ht'
    rw [minting_holdings, hm] at heq
    rw [show total (names ty o) u = _ from heq]
    simp only [Option.map_some, Option.some.injEq, eq_comm]
    rfl
  · have := replies_bounded hrun hnone k
    omega

theorem linear_stay_linear_handedOver :
    consumed 7 handedOver.1 ≤ replied 7 handedOver.1 ∧
      ∃ u, SysStep handedOver.2 ⟨.call .peer (.mintReply 1 9 0), .ok none⟩ u ∧
        total (names .reply 9) u = total (names .reply 9) handedOver.2 + 1 := by
  have hstep : SysStep handedOver.2 ⟨.call .peer (.mintReply 1 9 0), .ok none⟩
      ((sysNext handedOver.2 (.call .peer (.mintReply 1 9 0))).get (by decide)).2 := rfl
  have hnone : ∀ (i : Party) (d : Nat), (loaderSpaces i).Live d →
    ((loaderSpaces i).slot d).cap.capType ≠ .reply := by
    have hall : ∀ i : Party, ∀ d < 4, ((loaderSpaces i).slot d).cap.capType ≠ .reply := by decide
    exact fun i d hl => hall i d hl.lt
  have h := linear_stay_linear handedOver_run hstep
  exact ⟨h.2.2.1 hnone 7, _, hstep, h.2.1 .peer 9 rfl .reply (by decide) 9⟩

end Praesidium
