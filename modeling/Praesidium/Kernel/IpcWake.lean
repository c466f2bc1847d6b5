import Praesidium.Kernel.IpcCall

/-!
No party sleeps on a message or an answer it could have.

A poll that has to wait leaves a waker, and whoever delivers takes it and fires it.  So a blocked
party either has been woken since its last poll, or its waker is in place and nothing is there for
it (`Armed`), and with the phases of the calls it is known what it waits for (`no_lost_wake`).
-/

namespace Praesidium

open Function (update update_self update_of_ne update_eq_self)

namespace Ipc

/-! ## Wakes -/

/-- The event is a poll of `p`'s future. -/
def Event.polls (p : PartyId) : Event → Bool
  | .pending q _ | .returned q _ | .request q _ _ => q == p
  | _ => false

/-- Whether `p`'s task was woken since `p` was last polled, after one more event. -/
def noteWake (task : PartyId → Waker) (p : PartyId) (due : Bool) (ev : Event) : Bool :=
  ev.wakes.contains (task p) || (due && !ev.polls p)

def woken (task : PartyId → Waker) (tr : List Event) (p : PartyId) : Bool :=
  tr.foldl (noteWake task p) false

/-- The party waits inside a future. -/
def Blocked (stage : PartyId → Stage) (p : PartyId) : Prop :=
  stage p = .calling ⟨p, none, true⟩ ∨ stage p = .receiving ⟨p, true⟩

structure Armed (task : PartyId → Waker) (tr : List Event) (c : Core) : Prop where
  owner : ∀ p wk, c.wakers p = some wk → wk = task p
  ready : ∀ p, Blocked c.stage p →
    woken task tr p = true ∨ (c.wakers p = some (task p) ∧ c.responses p = none ∧
    c.delivered p = none)

section

variable {task : PartyId → Waker} {tr : List Event} {ev : Event} {c c' : Core}
  {ph : PartyId → Phase} {p r : PartyId}

theorem woken_snoc (tr : List Event) (ev : Event) (p : PartyId) :
    woken task (tr ++ [ev]) p = noteWake task p (woken task tr p) ev := by
  unfold woken
  rw [List.foldl_append]
  rfl

/-- A wake is there until the party is polled. -/
theorem woken_keep (h : woken task tr p = true) (hp : ev.polls p = false) :
    woken task (tr ++ [ev]) p = true := by
  rw [woken_snoc, noteWake, h, hp]
  simp

theorem woken_new (h : task p ∈ ev.wakes) : woken task (tr ++ [ev]) p = true := by
  rw [woken_snoc, noteWake, List.contains_iff_mem.mpr h]
  rfl

theorem not_blocked_running {stage : PartyId → Stage} (h : stage p = .running) :
    ¬ Blocked stage p := by
  rintro (hb | hb)
  · rw [h] at hb
    cases hb
  · rw [h] at hb
    cases hb

theorem blocked_other {st : Stage} (hb : Blocked (update c.stage p st) r) (hr : r ≠ p) :
    Blocked c.stage r := by
  unfold Blocked at hb
  rw [update_of_ne hr] at hb
  exact hb

/-- A waker is left by its owner, or taken. -/
theorem owned_update {wakers : PartyId → Option Waker}
    (h : ∀ q wk, wakers q = some wk → wk = task q) {v : Option Waker}
    (hv : ∀ wk, v = some wk → wk = task p) (q : PartyId) (wk : Waker)
    (hw : update wakers p v q = some wk) : wk = task q := by
  by_cases hq : q = p
  · subst hq
    rw [update_self] at hw
    exact hv wk hw
  · exact h q wk ((update_of_ne hq ..).symm.trans hw)

namespace Armed

variable (h : Armed task tr c)

include h

/-- What the step leaves a blocked party as it was. -/
theorem keep (hb : Blocked c.stage r) (hp : ev.polls r = false) (hw : c'.wakers r = c.wakers r)
    (hr : c'.responses r = c.responses r) (hd : c'.delivered r = c.delivered r) :
    woken task (tr ++ [ev]) r = true ∨ (c'.wakers r = some (task r) ∧ c'.responses r = none ∧
      c'.delivered r = none) := by
  rw [hw, hr, hd]
  exact (h.ready r hb).imp_left fun hwk => woken_keep hwk hp

/-- The party registers, and nothing is there for it. -/
theorem register (endpoint : EndpointState Message) (st : Stage) (hr : c.responses p = none)
    (hd : c.delivered p = none) :
    Armed task (tr ++ [.pending p []]) { c with
      endpoint, wakers := update c.wakers p (some (task p)), stage := update c.stage p st } := by
  refine ⟨owned_update h.owner fun _ hv => (Option.some.inj hv).symm, fun r hb => ?_⟩
  by_cases hrp : r = p
  · subst hrp
    exact .inr ⟨update_self .., hr, hd⟩
  · exact h.keep (blocked_other hb hrp) (beq_eq_false_iff_ne.mpr (Ne.symm hrp))
      (update_of_ne hrp ..) rfl rfl

variable {q : PartyId}

/-- Whoever is delivered to is woken: it was before, or its waker was in place. -/
theorem fired (hb : Blocked c.stage q) (hp : ev.polls q = false)
    (hw : ev.wakes = (c.wakers q).toList) : woken task (tr ++ [ev]) q = true := by
  obtain hwk | ⟨hwk, _⟩ := h.ready q hb
  · exact woken_keep hwk hp
  · refine woken_new ?_
    rw [hw, hwk]
    exact List.mem_singleton.mpr rfl

theorem hand (ha : Agrees c ph) {rest : List PartyId} {msg : Message}
    (hst : c.stage p = .calling ⟨p, some msg, false⟩) (hq : c.endpoint.receivers = q :: rest) :
    Armed task (tr ++ [.pending p (c.wakers q).toList]) { c with
      endpoint := { c.endpoint with receivers := rest }
      delivered := update c.delivered q (some (p, msg))
      wakers := update (update c.wakers q none) p (some (task p))
      stage := update c.stage p (.calling ⟨p, none, true⟩) } := by
  have listening : c.stage q = .receiving ⟨q, true⟩ :=
    (ha.listening.receivers q).mp (.inl (by rw [hq]; exact List.mem_cons_self ..))
  have hqp : q ≠ p := by
    rintro rfl
    rw [hst] at listening
    cases listening
  have taken := owned_update (p := q) (v := none) h.owner fun _ hv => (nomatch hv)
  refine ⟨owned_update taken fun _ hv => (Option.some.inj hv).symm, fun r hb => ?_⟩
  by_cases hrp : r = p
  · subst hrp
    obtain ⟨_, made⟩ := ha.made hst
    refine .inr ⟨update_self .., ?_, ?_⟩
    · exact (ha.located r).answered.trans (by rw [made]; rfl)
    · dsimp only
      rw [update_of_ne (Ne.symm hqp)]
      exact ha.not_delivered (by rw [hst]; intro hc; cases hc)
  · have old := blocked_other hb hrp
    have other : Event.polls r (.pending p (c.wakers q).toList) = false :=
      beq_eq_false_iff_ne.mpr (Ne.symm hrp)
    by_cases hrq : r = q
    · subst hrq
      exact .inl (h.fired old other rfl)
    · refine h.keep old other ?_ rfl (update_of_ne hrq ..)
      dsimp only
      rw [update_of_ne hrp, update_of_ne hrq]

/-- The party runs on with what it got; the others do not notice. -/
theorem leave {endpoint : EndpointState Message} {delivered : PartyId → Option (PartyId × Message)}
    {responses : PartyId → Option Message} {reply : Nat → Option PartyId}
    (hp : ∀ r, ev.polls r = (p == r)) (hd : ∀ r, r ≠ p → delivered r = c.delivered r)
    (hr : ∀ r, r ≠ p → responses r = c.responses r) :
    Armed task (tr ++ [ev]) { c with
      endpoint, delivered, responses, reply, stage := update c.stage p .running } := by
  refine ⟨h.owner, fun r hb => ?_⟩
  by_cases hrp : r = p
  · subst hrp
    exact absurd hb (not_blocked_running (update_self ..))
  · exact h.keep (blocked_other hb hrp) ((hp r).trans (beq_eq_false_iff_ne.mpr (Ne.symm hrp))) rfl
      (hr r hrp) (hd r hrp)

/-- The party enters a future; its first poll is still to come. -/
theorem enter {st : Stage} (hst : st ≠ .calling ⟨p, none, true⟩ ∧ st ≠ .receiving ⟨p, true⟩)
    (hp : ∀ r, ev.polls r = false) :
    Armed task (tr ++ [ev]) { c with stage := update c.stage p st } := by
  refine ⟨h.owner, fun r hb => ?_⟩
  by_cases hrp : r = p
  · subst hrp
    unfold Blocked at hb
    dsimp only at hb
    rw [update_self] at hb
    exact absurd hb (by rintro (hc | hc); exacts [hst.1 hc, hst.2 hc])
  · exact h.keep (blocked_other hb hrp) (hp r) rfl rfl rfl

theorem quiet (budgets : Budget × Budget) (hp : ∀ r, ev.polls r = false) :
    Armed task (tr ++ [ev]) { c with budgets } :=
  ⟨h.owner, fun r hb => h.keep hb (hp r) rfl rfl rfl⟩

theorem reply {slot : Nat} {resp : Message} {caller : PartyId} :
    Armed task (tr ++ [.reply p slot resp (some caller) (c.wakers caller).toList]) { c with
      responses := update c.responses caller (some resp)
      reply := update c.reply slot none
      wakers := update c.wakers caller none } := by
  refine ⟨owned_update h.owner fun _ hv => (nomatch hv), fun r hb => ?_⟩
  by_cases hrc : r = caller
  · subst hrc
    exact .inl (h.fired hb rfl rfl)
  · exact h.keep hb rfl (update_of_ne hrc ..) (update_of_ne hrc ..) rfl

theorem step (ha : Agrees c ph) (hd : Does task c ev c') : Armed task (tr ++ [ev]) c' := by
  cases hd with
  | call msg hst => exact h.enter (by simp) fun _ => rfl
  | recv hst => exact h.enter (by simp) fun _ => rfl
  | hand hst hq =>
    obtain ⟨rfl, _⟩ := ha.made hst
    exact h.hand ha hst hq
  | @enqueue p a msg hst hq =>
    obtain ⟨rfl, made⟩ := ha.made hst
    refine h.register _ _ ((ha.located a).answered.trans (by rw [made]; rfl)) (ha.not_delivered ?_)
    rw [hst]
    intro hc
    cases hc
  | @collect p a m resp hst hr =>
    obtain ⟨rfl, _⟩ := ha.sent hst
    exact h.leave (fun _ => rfl) (fun _ _ => rfl) fun r hrp => update_of_ne hrp ..
  | @wait p a m hst hr =>
    obtain ⟨rfl, rfl⟩ := ha.sent hst
    have :=
      h.register c.endpoint (c.stage a) hr (ha.not_delivered (by rw [hst]; intro hc; cases hc))
    rw [update_eq_self] at this
    exact this
  | @take p a tried sender msg hst hdel hfree =>
    obtain rfl : a = p := ha.listening.own p _ hst
    exact h.leave (fun _ => rfl) (fun r hrp => update_of_ne hrp ..) fun _ _ => rfl
  | meet hst hdel hs hfree => exact h.leave (fun _ => rfl) (fun _ _ => rfl) fun _ _ => rfl
  | @listen p a hst hdel hs =>
    obtain rfl : a = p := ha.listening.own p _ hst
    exact h.register _ _ (ha.not_answered (by rw [hst]; rfl)) hdel
  | @rest p a hst hdel =>
    obtain rfl : a = p := ha.listening.own p _ hst
    have := h.register c.endpoint (c.stage a) (ha.not_answered (by rw [hst]; rfl)) hdel
    rw [update_eq_self] at this
    exact this
  | reply hst hr => exact h.reply
  | refuse hst | lend hst | charge hst | giveBack hst => exact h.quiet _ fun _ => rfl

end Armed

/-- Senders and receivers never wait at the same time. -/
theorem Does.oneSided (hd : Does task c ev c')
    (h : c.endpoint.senders = [] ∨ c.endpoint.receivers = []) :
    c'.endpoint.senders = [] ∨ c'.endpoint.receivers = [] := by
  cases hd with
  | hand hst hq =>
    refine .inl (h.resolve_right ?_)
    rw [hq]
    exact List.cons_ne_nil _ _
  | enqueue hst hq => exact .inr hq
  | meet hst hdel hs hfree =>
    refine .inr (h.resolve_left ?_)
    rw [hs]
    exact List.cons_ne_nil _ _
  | listen hst hdel hs => exact .inl hs
  | _ => exact h

/-- What is known of the parties after any steps of theirs. -/
theorem run_armed {s t : System} (h : Run (Step task) s tr t) (hs : Init s)
    (hw : ∀ p, s.world.wakers p = none) :
    ∃ ph, Agrees (core t) ph ∧ Armed task tr (core t) ∧
      (t.world.endpoint.senders = [] ∨ t.world.endpoint.receivers = []) := by
  refine h.inv_trace (fun tr t => ∃ ph, Agrees (core t) ph ∧ Armed task tr (core t) ∧
    (t.world.endpoint.senders = [] ∨ t.world.endpoint.receivers = [])) ?_ fun tr t ev u ih hstep =>
    ?_
  · refine ⟨_, hs.agrees, ⟨fun p wk hp => ?_, fun p hb =>
      absurd hb (not_blocked_running (hs.stage p))⟩, .inl ?_⟩
    · have none : s.world.wakers p = some wk := hp
      rw [hw p] at none
      cases none
    · rw [hs.endpoint]
      rfl
  · obtain ⟨ph, agrees, armed, sided⟩ := ih
    obtain ⟨ph', agrees', _⟩ := agrees.step hstep.does
    exact ⟨ph', agrees', armed.step agrees hstep.does, hstep.does.oneSided sided⟩

end

/-- **No wake-up is lost.**  In every run a party that waits inside a future has been woken since it
was
last polled, or its waker is in place and nothing is there for it.  Then a caller's message is in
the
queue with no receiver there, or with a receiver that has been woken, or it was taken and the
`Reply`
names the caller; and a receiver waits at an endpoint that holds no message. -/
theorem no_lost_wake {task : PartyId → Waker} {s t : System} {tr : List Event} (hs : Init s)
    (hw : ∀ p, s.world.wakers p = none) (h : Run (Step task) s tr t) (p : PartyId) :
    (t.stage p = .calling ⟨p, none, true⟩ → woken task tr p = true ∨
      t.world.wakers p = some (task p) ∧ t.world.responses p = none ∧
        ((∃ msg, ⟨p, msg⟩ ∈ t.world.endpoint.senders ∧ t.world.endpoint.receivers = []) ∨
          (∃ q msg, t.world.delivered q = some (p, msg) ∧ woken task tr q = true) ∨
          replyAt t.world.serverCs SERVER_REPLY_SLOT = some p)) ∧
    (t.stage p = .receiving ⟨p, true⟩ → woken task tr p = true ∨
      t.world.wakers p = some (task p) ∧ t.world.delivered p = none ∧
        p ∈ t.world.endpoint.receivers ∧
        t.world.endpoint.senders = []) := by
  obtain ⟨ph, agrees, armed, sided⟩ := run_armed h hs hw
  refine ⟨fun hst => (armed.ready p (.inl hst)).imp_right ?_, fun hst =>
    (armed.ready p (.inr hst)).imp_right ?_⟩
  · rintro ⟨waker, quiet, _⟩
    refine ⟨waker, quiet, ?_⟩
    have here := agrees.located p
    have future := here.calling
    rw [show (core t).stage p = _ from hst] at future
    cases hp : ph p with
    | idle => rw [hp] at future; cases future
    | made msg => rw [hp] at future; cases future
    | queued msg =>
      have mem := (here.queued msg).mpr (by rw [hp]; rfl)
      exact .inl ⟨msg, mem, sided.resolve_left (List.ne_nil_of_mem mem)⟩
    | handed msg q =>
      have handed := (here.handed q msg).mpr (by rw [hp]; rfl)
      have listens := (agrees.listening.receivers q).mp (.inr (by rw [handed]; rfl))
      refine .inr (.inl ⟨q, msg, handed, (armed.ready q (.inr listens)).resolve_right fun hc => ?_⟩)
      rw [handed] at hc
      cases hc.2.2
    | taken msg => exact .inr (.inr ((here.taken SERVER_REPLY_SLOT).mpr ⟨rfl, by rw [hp]; rfl⟩))
    | answered msg resp =>
      have answer := here.answered
      rw [hp, quiet] at answer
      cases answer
  · rintro ⟨waker, _, quiet⟩
    have mem : p ∈ t.world.endpoint.receivers := by
      refine ((agrees.listening.receivers p).mpr hst).resolve_right ?_
      rw [quiet]
      exact Bool.noConfusion
    exact ⟨waker, quiet, mem, sided.resolve_right (List.ne_nil_of_mem mem)⟩

/-- A caller that found no receiver. -/
theorem no_lost_wake_queued :
    ∃ t, Run (Step id) atRest (oneRound.take 2) t ∧ t.stage 1 = .calling ⟨1, none, true⟩ ∧
      (woken id (oneRound.take 2) 1 = true ∨ t.world.wakers 1 = some 1 ∧
        t.world.responses 1 = none ∧
        ((∃ msg, ⟨1, msg⟩ ∈ t.world.endpoint.senders ∧ t.world.endpoint.receivers = []) ∨
          (∃ q msg, t.world.delivered q = some (1, msg) ∧ woken id (oneRound.take 2) q = true) ∨
          replyAt t.world.serverCs SERVER_REPLY_SLOT = some 1)) := by
  have run : Run (Step id) atRest (oneRound.take 2) _ :=
    .cons (.call _ rfl) (.cons (.callPending (c := call 1 (.withData 7 [41])) rfl rfl) (.nil _))
  exact ⟨_, run, rfl, (no_lost_wake atRest_init (fun _ => rfl) run 1).1 rfl⟩

end Ipc

end Praesidium
