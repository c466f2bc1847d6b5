import Praesidium.Kernel.IpcWorld

/-!
Calls on the shared endpoint: each is answered once, and by its own answer.

What decides the fate of a call is where its message or its answer lies (`Core`): in the queue of
the endpoint, with a receiver, named by the `Reply`, among the responses.  A call passes through
these in one order (`Phase`), and at any time each party's call is in one phase, whatever the order
of the polls:

    Run (Step task) s tr t → Init s → ∃ ph, Agrees (core t) ph ∧ Logged tr ph       (run_phases)

So what a party sees of its calls is a sequence of whole rounds and at most one begun
(`calls_correlated`).  The server works on budget that callers lend it, and no unit of it is made or
lost on the way (`passive_server`).
-/

namespace Praesidium

open Function (update update_apply update_self update_of_ne update_eq_self)

namespace Ipc

/-! ## The part of the state that decides -/

structure Core where
  endpoint : EndpointState Message
  delivered : PartyId → Option (PartyId × Message)
  responses : PartyId → Option Message
  reply : Nat → Option PartyId
  wakers : PartyId → Option Waker
  budgets : Budget × Budget
  stage : PartyId → Stage

def core (s : System) : Core where
  endpoint := s.world.endpoint
  delivered := s.world.delivered
  responses := s.world.responses
  reply := replyAt s.world.serverCs
  wakers := s.world.wakers
  budgets := (s.world.clientBudget, s.world.serverBudget)
  stage := s.stage

/-- Everything a step can do to the core. -/
inductive Does (task : PartyId → Waker) (c : Core) : Event → Core → Prop
  | call {p} (msg : Message) (h : c.stage p = .running) :
      Does task c (.call p msg) { c with stage := update c.stage p (.calling ⟨p, some msg, false⟩) }
  | recv {p} (h : c.stage p = .running) :
      Does task c (.recv p) { c with stage := update c.stage p (.receiving ⟨p, false⟩) }
  | hand {p a q rest msg} (h : c.stage p = .calling ⟨a, some msg, false⟩)
      (hq : c.endpoint.receivers = q :: rest) : Does task c (.pending p (c.wakers q).toList)
        { c with
          endpoint := { c.endpoint with receivers := rest }
          delivered := update c.delivered q (some (a, msg))
          wakers := update (update c.wakers q none) a (some (task p))
          stage := update c.stage p (.calling ⟨a, none, true⟩) }
  | enqueue {p a msg} (h : c.stage p = .calling ⟨a, some msg, false⟩)
      (hq : c.endpoint.receivers = []) : Does task c (.pending p []) { c with
          endpoint := { c.endpoint with senders := c.endpoint.senders ++ [⟨a, msg⟩] }
          wakers := update c.wakers a (some (task p))
          stage := update c.stage p (.calling ⟨a, none, true⟩) }
  | collect {p a m resp} (h : c.stage p = .calling ⟨a, m, true⟩) (hr : c.responses a = some resp) :
      Does task c (.returned p resp)
        { c with responses := update c.responses a none, stage := update c.stage p .running }
  | wait {p a m} (h : c.stage p = .calling ⟨a, m, true⟩) (hr : c.responses a = none) :
      Does task c (.pending p []) { c with wakers := update c.wakers a (some (task p)) }
  | take {p a tried sender msg} (h : c.stage p = .receiving ⟨a, tried⟩)
      (hd : c.delivered a = some (sender, msg)) (hfree : c.reply SERVER_REPLY_SLOT = none) :
      Does task c (.request p { msg with badge := sender } SERVER_REPLY_SLOT)
        { c with
          delivered := update c.delivered a none
          reply := update c.reply SERVER_REPLY_SLOT (some sender)
          stage := update c.stage p .running }
  | meet {p a sender msg rest} (h : c.stage p = .receiving ⟨a, false⟩) (hd : c.delivered a = none)
      (hs : c.endpoint.senders = ⟨sender, msg⟩ :: rest) (hfree : c.reply SERVER_REPLY_SLOT = none) :
      Does task c (.request p { msg with badge := sender } SERVER_REPLY_SLOT)
        { c with
          endpoint := { c.endpoint with senders := rest }
          reply := update c.reply SERVER_REPLY_SLOT (some sender)
          stage := update c.stage p .running }
  | listen {p a} (h : c.stage p = .receiving ⟨a, false⟩) (hd : c.delivered a = none)
      (hs : c.endpoint.senders = []) : Does task c (.pending p []) { c with
          endpoint := { c.endpoint with receivers := c.endpoint.receivers ++ [a] }
          wakers := update c.wakers a (some (task p))
          stage := update c.stage p (.receiving ⟨a, true⟩) }
  | rest {p a} (h : c.stage p = .receiving ⟨a, true⟩) (hd : c.delivered a = none) :
      Does task c (.pending p []) { c with wakers := update c.wakers a (some (task p)) }
  | reply {p slot resp caller} (h : c.stage p = .running) (hr : c.reply slot = some caller) :
      Does task c (.reply p slot resp (some caller) (c.wakers caller).toList)
        { c with
          responses := update c.responses caller (some resp)
          reply := update c.reply slot none
          wakers := update c.wakers caller none }
  | refuse {p slot resp} (h : c.stage p = .running) : Does task c (.reply p slot resp none []) c
  | lend {p amount} (h : c.stage p = .running) :
      Does task c (.lend p amount) { c with budgets := delegated c.budgets.1 c.budgets.2 amount }
  | charge {p units} (h : c.stage p = .running) :
      Does task c (.charge p units) { c with budgets := (c.budgets.1, c.budgets.2.charge units) }
  | giveBack {p} (h : c.stage p = .running) :
      Does task c (.giveBack p)
      { c with budgets := (delegated c.budgets.2 c.budgets.1 c.budgets.2.remaining).swap }

section

variable {w w' : IpcWorld} {s t : System} {p : PartyId} {wakes : List Waker}
  {task : PartyId → Waker} {ev : Event}

theorem wake_eq (w : IpcWorld) (p : PartyId) :
    wake w p = ({ w with wakers := update w.wakers p none }, (w.wakers p).toList) := by
  unfold wake
  split
  · next wk h => rw [h]; rfl
  · next h =>
    rw [h, ← h, update_eq_self, h]
    rfl

/-- A party that stays where it is. -/
theorem update_stage (h : s.stage p = st) : update s.stage p st = s.stage := by
  rw [← h]
  exact update_eq_self p s.stage

/-- What a poll of `p` with this outcome does; `st` is the future it leaves. -/
def Polled {α : Type} (task : PartyId → Waker) (s : System) (p : PartyId) (st : Stage)
    (w : IpcWorld) (wakes : List Waker) (ready : α → Event) : Poll α → Prop
  | .pending => Does task (core s) (.pending p wakes) (core (s.go p st w))
  | .ready a => Does task (core s) (ready a) (core (s.go p .running w))

theorem call_does {c c' : Call} {out : Poll Message} (h : s.stage p = .calling c)
    (hp : c.poll (task p) s.world = some (out, c', w, wakes)) :
    Polled task s p (.calling c') w wakes (.returned p) out := by
  obtain ⟨a, m, sent⟩ := c
  unfold Call.poll at hp
  split at hp
  · next hsent =>
    dsimp only at hsent hp
    subst hsent
    split at hp
    · cases hp
    · next msg =>
      unfold EndpointState.send at hp
      split at hp
      · next q msg' endpoint hq =>
        split at hq
        · next q' rest hrec =>
          cases hq
          rw [wake_eq] at hp
          cases hp
          exact Does.hand h hrec
        · cases hq
      · next endpoint hq =>
        split at hq
        · cases hq
        · next hrec =>
          cases hq
          cases hp
          exact Does.enqueue h hrec
  · next hsent =>
    rw [Bool.not_eq_false] at hsent
    dsimp only at hsent
    subst hsent
    split at hp
    · next resp hr =>
      cases hp
      exact Does.collect h hr
    · next hr =>
      cases hp
      rw [Polled, System.go, update_stage h]
      exact Does.wait h hr

variable {out : Poll (Message × Nat)} {r r' : Recv}

/-- A message that is at hand becomes a request. -/
theorem request_does {v : IpcWorld} {sender : PartyId} {msg : Message}
    (hp : (onRequest v sender msg).map (fun (req, w) => (.ready req, r, w)) = some (out, r', w))
    (hdoes : replyAt v.serverCs SERVER_REPLY_SLOT = none →
      Does task (core s) (.request p { msg with badge := sender } SERVER_REPLY_SLOT)
      { core (s.go p .running v) with reply := update (replyAt v.serverCs) SERVER_REPLY_SLOT (some sender) }) :
    Polled task s p (.receiving r') w [] (fun req => .request p req.1 req.2) out := by
  obtain ⟨⟨⟨req, slot⟩, v'⟩, hreq, heq⟩ := Option.map_eq_some_iff.mp hp
  cases heq
  have taken := onRequest_spec hreq
  have reply : replyAt w.serverCs = update (replyAt v.serverCs) SERVER_REPLY_SLOT
    (some sender) := by
    funext d
    rw [taken.reply d, update_apply]
  have hcore : core (s.go p .running w) =
    { core (s.go p .running v) with reply := replyAt w.serverCs } := by
    rw [taken.world]
    rfl
  rw [Polled, hcore, reply, taken.req, taken.slot]
  exact hdoes taken.free

theorem recv_does (h : s.stage p = .receiving r)
    (hp : r.poll (task p) s.world = some (out, r', w)) :
    Polled task s p (.receiving r') w [] (fun req => .request p req.1 req.2) out := by
  obtain ⟨a, tried⟩ := r
  unfold Recv.poll at hp
  split at hp
  · next sender msg hd =>
    exact request_does hp fun hfree => Does.take h hd hfree
  · next hd =>
    split at hp
    · next htried =>
      dsimp only at htried hp
      subst htried
      unfold EndpointState.recv at hp
      split at hp
      · next sender msg endpoint hq =>
        split at hq
        · next x rest hsend =>
          cases hq
          exact request_does hp fun hfree => Does.meet h hd hsend hfree
        · cases hq
      · next endpoint hq =>
        split at hq
        · cases hq
        · next hsend =>
          cases hq
          cases hp
          exact Does.listen h hd hsend
    · next htried =>
      rw [Bool.not_eq_false] at htried
      dsimp only at htried
      subst htried
      cases hp
      rw [Polled, System.go, update_stage h]
      exact Does.rest h hd

theorem Step.does (h : Step task s ev t) : Does task (core s) ev (core t) := by
  cases h with
  | call msg h => exact .call msg h
  | recv h => exact .recv h
  | callPending h hp => exact call_does h hp
  | callReady h hp => exact call_does h hp
  | recvPending h hp => exact recv_does h hp
  | recvReady h hp => exact recv_does h hp
  | @reply p w caller wakes slot resp h hr =>
    obtain ⟨rfl, rfl, rfl⟩ | ⟨q, v, rfl, replied, hw⟩ := doReply_spec hr
    · exact .refuse h
    · rw [wake_eq] at hw
      cases hw
      have reply : replyAt v.serverCs = update (replyAt s.world.serverCs) slot none := by
        funext d
        rw [update_apply]
        exact replied.reply d
      have wakers : v.wakers = s.world.wakers := by rw [replied.world]
      have eq : core { s with world := { v with wakers := update v.wakers q none } } =
          { core s with
            responses := update s.world.responses q (some resp)
            reply := update (replyAt s.world.serverCs) slot none
            wakers := update s.world.wakers q none } := by
        unfold core
        rw [← reply, wakers, replied.world]
      rw [eq, wakers]
      exact .reply h replied.named
  | lend amount h => exact .lend h
  | charge units h => exact .charge h
  | giveBack h => exact .giveBack h

end

/-! ## Whose budget the server runs on -/

/-- The CPU time charged in a history. -/
def charged (tr : List Event) : Nat :=
  tr.foldl (fun n ev => match ev with
    | .charge _ units => n + units.toNat
    | _ => n) 0

theorem charged_snoc (tr : List Event) (ev : Event) :
    charged (tr ++ [ev]) = charged tr + match ev with
      | .charge _ units => units.toNat
      | _ => 0 := by
  unfold charged
  rw [List.foldl_append]
  cases ev <;> rfl

/-- What a delegation changes: capacity goes over, out of what is left. -/
theorem delegated_spec (src dst : Budget) (amount : U32) :
    let moved := delegated src dst amount
    moved.1.consumed = src.consumed ∧ moved.2.consumed = dst.consumed ∧
      moved.1.capacity.toNat + moved.2.capacity.toNat = src.capacity.toNat + dst.capacity.toNat ∧
      dst.capacity.toNat ≤ moved.2.capacity.toNat ∧
      (src.consumed.toNat ≤ src.capacity.toNat → src.consumed.toNat ≤ moved.1.capacity.toNat) := by
  unfold delegated
  cases h : src.delegate dst amount with
  | none => exact ⟨rfl, rfl, rfl, Nat.le_refl _, fun h => h⟩
  | some moved =>
    have sum := Budget.delegate_spec _ _ _ _ _ h
    unfold Budget.delegate at h
    split at h
    · cases h
    · next hc =>
      split at h
      · cases h
      · next credited hcr =>
        cases h
        have added := (Word.checkedAdd_eq_some _ _ _).mp hcr
        have left : src.remaining.toNat = _ := Word.saturatingSub_toNat ..
        dsimp only [Option.getD_some] at sum ⊢
        exact ⟨rfl, rfl, sum, by omega, by omega⟩

/-- The books of client and server since they had `s`. -/
structure Books (s : Budget × Budget) (tr : List Event) (b : Budget × Budget) : Prop where
  capacity : b.1.capacity.toNat + b.2.capacity.toNat = s.1.capacity.toNat + s.2.capacity.toNat
  client : b.1.consumed = s.1.consumed
  within : b.1.consumed.toNat ≤ b.1.capacity.toNat
  server : b.2.consumed.toNat = min (2 ^ 32 - 1) (s.2.consumed.toNat + charged tr)

variable {task : PartyId → Waker} {tr : List Event} {msg : Message} {s : System}

theorem Books.step {s : Budget × Budget} {ev : Event} {c c' : Core} (h : Books s tr c.budgets)
    (hd : Does task c ev c') : Books s (tr ++ [ev]) c'.budgets := by
  have hev := charged_snoc tr ev
  have capacity := h.capacity
  cases hd with
  | lend _ =>
    obtain ⟨hc, hs, sum, _, within⟩ := delegated_spec ..
    exact ⟨sum.trans capacity, hc.trans h.client,
      hc ▸ within h.within, by rw [hev, hs]; exact h.server⟩
  | giveBack _ =>
    obtain ⟨hs, hc, sum, more, _⟩ := delegated_spec ..
    refine ⟨?_, hc.trans h.client, hc ▸ h.within.trans more, ?_⟩
    · dsimp only [Prod.swap]
      omega
    · rw [hev]
      exact (congrArg BitVec.toNat hs).trans h.server
  | @charge p units _ =>
    have added : (c.budgets.2.charge units).consumed.toNat = _ :=
      Word.saturatingAdd_toNat c.budgets.2.consumed units
    have server := h.server
    refine ⟨capacity, h.client, h.within, ?_⟩
    rw [hev]
    dsimp only
    omega
  | _ => exact { h with server := by rw [hev]; exact h.server }

/-- **The caller pays for the server's work.**  However budget is lent, spent and handed back in a
run,
what client and server have left together, with the CPU time charged, is what they had at the start,
as long as the server has not spent more than it was lent. -/
theorem passive_server {task : PartyId → Waker} {s t : System} {tr : List Event}
    (h : Run (Step task) s tr t)
    (hclient : s.world.clientBudget.consumed.toNat ≤ s.world.clientBudget.capacity.toNat)
    (hserver : s.world.serverBudget.consumed.toNat ≤ s.world.serverBudget.capacity.toNat)
    (hfit : s.world.serverBudget.consumed.toNat + charged tr < 2 ^ 32)
    (hlent : t.world.serverBudget.consumed.toNat ≤ t.world.serverBudget.capacity.toNat) :
    t.world.clientBudget.remaining.toNat + t.world.serverBudget.remaining.toNat + charged tr =
      s.world.clientBudget.remaining.toNat + s.world.serverBudget.remaining.toNat := by
  have books : Books (core s).budgets tr (core t).budgets := by
    refine h.inv_trace (fun tr t => Books (core s).budgets tr (core t).budgets) ⟨rfl, rfl,
      hclient, ?_⟩ fun _ _ _ _ hb hs => hb.step hs.does
    have := s.world.serverBudget.consumed.isLt
    show _ = min (2 ^ 32 - 1) (_ + 0)
    omega
  have left : ∀ b : Budget, b.remaining.toNat = b.capacity.toNat - b.consumed.toNat :=
    fun b => Word.saturatingSub_toNat ..
  obtain ⟨capacity, client, within, server⟩ := books
  dsimp only [core] at capacity client within server
  have client := congrArg BitVec.toNat client
  rw [left, left, left, left]
  omega

/-- The server works 30 units on the 50 it was lent. -/
theorem passive_server_call :
    ∃ t, Run (Step id) atRest [.lend 1 50, .charge 2 30, .giveBack 2] t ∧
      t.world.clientBudget.remaining.toNat + t.world.serverBudget.remaining.toNat + 30 = 100 := by
  have run : Run (Step id) atRest [.lend 1 50, .charge 2 30, .giveBack 2] _ :=
    .cons (.lend _ rfl) (.cons (.charge _ rfl) (.cons (.giveBack rfl) (.nil _)))
  exact ⟨_, run, passive_server run (by decide) (by decide) (by decide) (by decide)⟩

/-! ## The phases of a call -/

/-- Where a party's call is; `handed`: with the receiver, which has not looked yet. -/
inductive Phase where
  | idle
  | made (msg : Message)
  | queued (msg : Message)
  | handed (msg : Message) (receiver : PartyId)
  | taken (msg : Message)
  | answered (msg resp : Message)

namespace Phase

/-- The future the caller is in. -/
def future (p : PartyId) : Phase → Option Call
  | .idle => none
  | .made msg => some ⟨p, some msg, false⟩
  | _ => some ⟨p, none, true⟩

def inQueue : Phase → Option Message
  | .queued msg => some msg
  | _ => none

def withReceiver : Phase → Option (PartyId × Message)
  | .handed msg q => some (q, msg)
  | _ => none

def isTaken : Phase → Bool
  | .taken _ => true
  | _ => false

def answer : Phase → Option Message
  | .answered _ resp => some resp
  | _ => none

end Phase

def Stage.future : Stage → Option Call
  | .calling c => some c
  | _ => none

variable {x : Phase}

theorem Phase.inQueue_eq (h : x.inQueue = some msg) : x = .queued msg := by
  cases x <;> cases h
  rfl

theorem Phase.withReceiver_eq {q : PartyId} (h : x.withReceiver = some (q, msg)) :
    x = .handed msg q := by
  cases x <;> cases h
  rfl

theorem Phase.isTaken_eq (h : x.isTaken = true) : ∃ msg, x = .taken msg := by
  cases x <;> cases h
  exact ⟨_, rfl⟩

theorem Phase.answer_eq {resp : Message} (h : x.answer = some resp) :
    ∃ msg, x = .answered msg resp := by
  cases x <;> cases h
  exact ⟨_, rfl⟩

/-- The call of `p` is where `x` says. -/
structure Located (c : Core) (p : PartyId) (x : Phase) : Prop where
  calling : (c.stage p).future = x.future p
  queued : ∀ msg, ⟨p, msg⟩ ∈ c.endpoint.senders ↔ x.inQueue = some msg
  handed : ∀ q msg, c.delivered q = some (p, msg) ↔ x.withReceiver = some (q, msg)
  taken : ∀ d, c.reply d = some p ↔ d = SERVER_REPLY_SLOT ∧ x.isTaken = true
  answered : c.responses p = x.answer

/-- Who listens waits at the endpoint or has a message delivered, not both. -/
structure Listening (c : Core) : Prop where
  own : ∀ q r, c.stage q = .receiving r → r.party = q
  receivers : ∀ q, (q ∈ c.endpoint.receivers ∨ (c.delivered q).isSome = true) ↔
    c.stage q = .receiving ⟨q, true⟩
  apart : ∀ q, q ∈ c.endpoint.receivers → c.delivered q = none
  once : c.endpoint.receivers.Nodup

/-- The core is where the phases say. -/
structure Agrees (c : Core) (ph : PartyId → Phase) : Prop where
  located : ∀ p, Located c p (ph p)
  distinct : (c.endpoint.senders.map SendWaiter.party).Nodup
  listening : Listening c

section

variable {c c' : Core} {ph : PartyId → Phase} {p : PartyId} {x : Phase}

/-- A party goes from one stage to another, and listens in neither. -/
theorem Listening.stage (h : Listening c) (st : Stage) (hold : c.stage p ≠ .receiving ⟨p, true⟩)
    (hnew : ∀ r, st = .receiving r → r = ⟨p, false⟩) :
    Listening { c with stage := update c.stage p st } := by
  refine ⟨fun q r hr => ?_, fun q => ?_, h.apart, h.once⟩
  · by_cases hq : q = p
    · subst hq
      rw [hnew r ((update_self ..).symm.trans hr)]
    · exact h.own q r ((update_of_ne hq ..).symm.trans hr)
  · rw [h.receivers q]
    by_cases hq : q = p
    · subst hq
      refine ⟨fun hc => absurd hc hold, fun hc => nomatch hnew _ ((update_self ..).symm.trans hc)⟩
    · dsimp only
      rw [update_of_ne hq]

theorem future_self (stage : PartyId → Stage) (st : Stage) :
    (update stage p st p).future = st.future := by
  rw [update_self]

theorem future_other (stage : PartyId → Stage) (st : Stage) {q : PartyId} (hq : q ≠ p) :
    (update stage p st q).future = (stage q).future := by rw [update_of_ne hq]

/-- The party is in no call before or after. -/
theorem future_left {stage : PartyId → Stage} {st : Stage} (hold : (stage p).future = none)
    (hst : st.future = none) (q : PartyId) : (update stage p st q).future = (stage q).future := by
  by_cases hq : q = p
  · rw [hq, future_self, hst, hold]
  · exact future_other _ _ hq

/-- One place of a map is changed, and neither before nor after has it `b`. -/
theorem update_eq_some {α β : Type} [DecidableEq α] {d : α → Option β} {q : α} {v : Option β}
    {b : β} (hnew : v ≠ some b) (hold : d q ≠ some b) (r : α) :
    update d q v r = some b ↔ d r = some b := by
  by_cases hr : r = q
  · rw [hr, update_self]
    exact ⟨fun hc => absurd hc hnew, fun hc => absurd hc hold⟩
  · rw [update_of_ne hr]

variable {a : PartyId} {ev : Event}

/-- The call of `a` is taken with its `Reply`, by a party that was in no call. -/
theorem Located.taken_self {x : Phase} (h : Located c a x) (hx : x.future a = some ⟨a, none, true⟩)
    (hleft : (c.stage p).future = none) :
    (∀ d, update c.reply SERVER_REPLY_SLOT (some a) d = some a ↔ d = SERVER_REPLY_SLOT ∧
      true = true) ∧
      (update c.stage p .running a).future = some ⟨a, none, true⟩ := by
  refine ⟨fun d => ?_, ((future_left hleft rfl a).trans h.calling).trans hx⟩
  by_cases hd : d = SERVER_REPLY_SLOT
  · rw [hd, update_self]
    simp
  · have old : c.reply d ≠ some a := fun hc => hd ((h.taken d).mp hc).1
    rw [update_of_ne hd]
    simp [hd, old]

/-- The others are where they were. -/
theorem Located.taken_other {r : PartyId} {y : Phase} (h : Located c r y) (hr : r ≠ a)
    (hfree : c.reply SERVER_REPLY_SLOT = none) (hleft : (c.stage p).future = none) :
    (∀ d, update c.reply SERVER_REPLY_SLOT (some a) d = some r ↔ d = SERVER_REPLY_SLOT ∧
      y.isTaken = true) ∧
      (update c.stage p .running r).future = y.future r :=
  ⟨fun d => (update_eq_some (by simp [Ne.symm hr]) (by simp [hfree]) d).trans (h.taken d),
    (future_left hleft rfl r).trans h.calling⟩

namespace Agrees

variable (h : Agrees c ph)

include h

/-- One call moves on; the others are where they were. -/
theorem move (hp : Located c' p x) (ho : ∀ q, q ≠ p → Located c q (ph q) → Located c' q (ph q))
    (hdist : (c'.endpoint.senders.map SendWaiter.party).Nodup) (hlis : Listening c') :
    Agrees c' (update ph p x) := by
  refine ⟨fun q => ?_, hdist, hlis⟩
  by_cases hq : q = p
  · subst hq
    rw [update_self]
    exact hp
  · rw [update_of_ne hq]
    exact ho q hq (h.located q)

/-- A party that is in no call. -/
theorem idle (hst : (c.stage p).future = none) : ph p = .idle := by
  have future := (h.located p).calling
  rw [hst] at future
  cases hp : ph p with
  | idle => rfl
  | _ => rw [hp] at future; cases future

variable {a : PartyId} {msg resp : Message} {m : Option Message}

theorem made (hst : c.stage p = .calling ⟨a, some msg, false⟩) : a = p ∧ ph p = .made msg := by
  have future := (h.located p).calling
  rw [hst] at future
  cases hp : ph p with
  | made m =>
    rw [hp] at future
    cases future
    exact ⟨rfl, rfl⟩
  | _ => rw [hp] at future; cases future

theorem sent (hst : c.stage p = .calling ⟨a, m, true⟩) : a = p ∧ m = none := by
  have future := (h.located p).calling
  rw [hst] at future
  cases hp : ph p with
  | idle => rw [hp] at future; cases future
  | made m => rw [hp] at future; cases future
  | _ =>
    rw [hp] at future
    cases future
    exact ⟨rfl, rfl⟩

/-- Messages are delivered to listeners only, answers to callers only. -/
theorem not_delivered (hst : c.stage p ≠ .receiving ⟨p, true⟩) : c.delivered p = none := by
  cases hd : c.delivered p with
  | none => rfl
  | some x => exact absurd ((h.listening.receivers p).mp (.inr (by rw [hd]; rfl))) hst

theorem not_answered (hst : (c.stage p).future = none) : c.responses p = none := by
  rw [(h.located p).answered, h.idle hst]
  rfl

/-- Wakers and budgets have no part in it. -/
theorem aside (wakers : PartyId → Option Waker) (budgets : Budget × Budget) :
    Agrees { c with wakers, budgets } ph :=
  ⟨fun p => { h.located p with }, h.distinct, { h.listening with }⟩

theorem call (msg : Message) (hst : c.stage p = .running) :
    Agrees { c with stage := update c.stage p (.calling ⟨p, some msg, false⟩) }
      (update ph p (.made msg)) := by
  have here := h.located p
  rw [h.idle (by rw [hst]; rfl)] at here
  refine h.move { here with calling := future_self .. } (fun q hq l => { l with calling := ?_ })
    h.distinct (h.listening.stage _ (by rw [hst]; exact Stage.noConfusion) fun _ hr => (nomatch hr))
  exact (future_other _ _ hq).trans l.calling

theorem recv (hst : c.stage p = .running) :
    Agrees { c with stage := update c.stage p (.receiving ⟨p, false⟩) } ph := by
  have left : (c.stage p).future = none := by rw [hst]; rfl
  refine ⟨fun q =>
    { h.located q with calling := (future_left left rfl q).trans (h.located q).calling },
    h.distinct, h.listening.stage _ (by rw [hst]; exact Stage.noConfusion) fun r hr =>
    (Stage.receiving.inj hr).symm⟩

theorem hand {q : PartyId} {rest : List PartyId} (hst : c.stage p = .calling ⟨p, some msg, false⟩)
    (hq : c.endpoint.receivers = q :: rest) :
    Agrees { c with
        endpoint := { c.endpoint with receivers := rest }
        delivered := update c.delivered q (some (p, msg))
        stage := update c.stage p (.calling ⟨p, none, true⟩) }
      (update ph p (.handed msg q)) := by
  have here := h.located p
  rw [(h.made hst).2] at here
  have once := h.listening.once
  rw [hq, List.nodup_cons] at once
  have free : c.delivered q = none := h.listening.apart q (by rw [hq]; exact List.mem_cons_self ..)
  have moved :=
    h.listening.stage (p := p) (.calling ⟨p, none, true⟩) (by rw [hst]; exact Stage.noConfusion)
    fun _ hr => (nomatch hr)
  refine h.move { here with calling := future_self .., handed := fun r m => ?_ }
    (fun a ha l =>
    { l with calling := (future_other _ _ ha).trans l.calling, handed := fun r m => ?_ }) h.distinct
    { moved with receivers := fun r => ?_, apart := fun r hr => ?_, once := once.2 }
  · dsimp only
    by_cases hr : r = q
    · subst hr
      rw [update_self]
      simp [Phase.withReceiver]
    · rw [update_of_ne hr, here.handed]
      simp [Phase.withReceiver, Ne.symm hr]
  · exact (update_eq_some (by simp [Ne.symm ha]) (by simp [free]) r).trans (l.handed r m)
  · have old := moved.receivers r
    dsimp only at old ⊢
    rw [← old, hq, List.mem_cons]
    by_cases hr : r = q
    · subst hr
      simp
    · rw [update_of_ne hr]
      simp [hr]
  · have hne : r ≠ q := fun hc => once.1 (hc ▸ hr)
    exact (update_of_ne hne ..).trans
      (h.listening.apart r (by rw [hq]; exact List.mem_cons_of_mem _ hr))

theorem enqueue (hst : c.stage p = .calling ⟨p, some msg, false⟩) :
    Agrees { c with
        endpoint := { c.endpoint with senders := c.endpoint.senders ++ [⟨p, msg⟩] }
        stage := update c.stage p (.calling ⟨p, none, true⟩) }
      (update ph p (.queued msg)) := by
  have here := h.located p
  rw [(h.made hst).2] at here
  have absent : ∀ m, (⟨p, m⟩ : SendWaiter Message) ∉ c.endpoint.senders :=
    fun m hm => nomatch (here.queued m).mp hm
  refine h.move { here with calling := future_self .., queued := fun m => ?_ }
    (fun a ha l =>
    { l with calling := (future_other _ _ ha).trans l.calling, queued := fun m => ?_ }) ?_
    { h.listening.stage (.calling ⟨p, none, true⟩) (by rw [hst]; exact Stage.noConfusion) fun _ hr => (nomatch hr) with }
  · simp [absent m, Phase.inQueue, eq_comm]
  · rw [← l.queued m]
    simp [ha]
  · rw [List.map_append, List.nodup_append]
    refine ⟨h.distinct, List.pairwise_singleton .., fun a ha b hb hab => ?_⟩
    obtain ⟨⟨a', m⟩, hmem, rfl⟩ := List.mem_map.mp ha
    rw [List.map_singleton, List.mem_singleton] at hb
    subst hb
    dsimp only at hab
    subst hab
    exact absent m hmem

theorem collect (hst : c.stage p = .calling ⟨p, m, true⟩) (hp : ph p = .answered msg resp) :
    Agrees { c with responses := update c.responses p none, stage := update c.stage p .running }
      (update ph p .idle) := by
  have here := h.located p
  rw [hp] at here
  refine h.move { here with calling := future_self .., answered := update_self .. }
    (fun a ha l => { l with
      calling := (future_other _ _ ha).trans l.calling, answered :=
        (update_of_ne ha ..).trans l.answered })
    h.distinct
    { h.listening.stage .running (by rw [hst]; exact Stage.noConfusion) fun _ hr => (nomatch hr) with }

theorem take {tried : Bool} (hst : c.stage p = .receiving ⟨p, tried⟩)
    (hd : c.delivered p = some (a, msg)) (hfree : c.reply SERVER_REPLY_SLOT = none) :
    Agrees { c with
        delivered := update c.delivered p none
        reply := update c.reply SERVER_REPLY_SLOT (some a)
        stage := update c.stage p .running }
      (update ph a (.taken msg)) := by
  have here := h.located a
  rw [Phase.withReceiver_eq ((here.handed p msg).mp hd)] at here
  have left : (c.stage p).future = none := by rw [hst]; rfl
  obtain ⟨taken, calling⟩ := here.taken_self rfl left
  refine h.move { here with taken, calling, handed := fun r m => ?_ }
    (fun r hr l => { l with
      taken := (l.taken_other hr hfree left).1, calling :=
        (l.taken_other hr hfree left).2, handed := fun q m => ?_ })
    h.distinct ⟨fun q r hr => ?_, fun q => ?_, fun q hq => ?_, h.listening.once⟩
  · dsimp only
    by_cases hr : r = p
    · rw [hr, update_self]
      simp [Phase.withReceiver]
    · rw [update_of_ne hr, here.handed]
      simp [Phase.withReceiver, Ne.symm hr]
  · exact (update_eq_some (by simp) (by simp [hd, Ne.symm hr]) q).trans (l.handed q m)
  · by_cases hq : q = p
    · subst hq
      exact absurd ((update_self ..).symm.trans hr) Stage.noConfusion
    · exact h.listening.own q r ((update_of_ne hq ..).symm.trans hr)
  · dsimp only
    by_cases hq : q = p
    · subst hq
      have out : q ∉ c.endpoint.receivers := fun hm => by
        rw [h.listening.apart q hm] at hd
        cases hd
      rw [update_self, update_self]
      simp [out]
    · rw [update_of_ne hq, update_of_ne hq]
      exact h.listening.receivers q
  · dsimp only
    by_cases hqp : q = p
    · rw [hqp, update_self]
    · rw [update_of_ne hqp]
      exact h.listening.apart q hq

theorem meet {rest : List (SendWaiter Message)} (hst : c.stage p = .receiving ⟨p, false⟩)
    (hs : c.endpoint.senders = ⟨a, msg⟩ :: rest) (hfree : c.reply SERVER_REPLY_SLOT = none) :
    Agrees { c with
        endpoint := { c.endpoint with senders := rest }
        reply := update c.reply SERVER_REPLY_SLOT (some a)
        stage := update c.stage p .running }
      (update ph a (.taken msg)) := by
  have here := h.located a
  rw [Phase.inQueue_eq ((here.queued msg).mp (by rw [hs]; exact List.mem_cons_self ..))] at here
  have left : (c.stage p).future = none := by rw [hst]; rfl
  obtain ⟨taken, calling⟩ := here.taken_self rfl left
  have distinct := h.distinct
  rw [hs, List.map_cons, List.nodup_cons] at distinct
  refine h.move
    { here with taken, calling, queued := fun m => ⟨fun hm => ?_, fun hc => (nomatch hc)⟩ }
    (fun r hr l => { l with
      taken := (l.taken_other hr hfree left).1, calling :=
        (l.taken_other hr hfree left).2, queued := fun m => ?_ })
    distinct.2 { h.listening.stage .running (by rw [hst]; simp) fun _ hr => (nomatch hr) with }
  · exact absurd (List.mem_map.mpr ⟨_, hm, rfl⟩) distinct.1
  · rw [← l.queued m, hs, List.mem_cons]
    simp [hr]

theorem listen (hst : c.stage p = .receiving ⟨p, false⟩) (hd : c.delivered p = none) :
    Agrees { c with
        endpoint := { c.endpoint with receivers := c.endpoint.receivers ++ [p] }
        stage := update c.stage p (.receiving ⟨p, true⟩) } ph := by
  have absent : p ∉ c.endpoint.receivers := fun hm => by
    have := (h.listening.receivers p).mp (.inl hm)
    rw [hst] at this
    cases this
  have left : (c.stage p).future = none := by rw [hst]; rfl
  refine ⟨fun q =>
    { h.located q with calling := (future_left left rfl q).trans (h.located q).calling },
    h.distinct, ⟨fun q r hr => ?_, fun r => ?_, fun r hr => ?_, ?_⟩⟩
  · by_cases hq : q = p
    · subst hq
      cases (update_self ..).symm.trans hr
      rfl
    · exact h.listening.own q r ((update_of_ne hq ..).symm.trans hr)
  · dsimp only
    rw [List.mem_append, List.mem_singleton]
    by_cases hr : r = p
    · subst hr
      rw [update_self]
      simp
    · rw [update_of_ne hr, ← h.listening.receivers r]
      simp [hr]
  · rcases List.mem_append.mp hr with hr | hr
    · exact h.listening.apart r hr
    · rw [List.mem_singleton.mp hr]
      exact hd
  · refine List.nodup_append.mpr ⟨h.listening.once, List.pairwise_singleton ..,
      fun x hx y hy hxy => ?_⟩
    rw [List.mem_singleton.mp hy] at hxy
    exact absent (hxy ▸ hx)

theorem reply (ht : ph a = .taken msg) :
    Agrees { c with
        responses := update c.responses a (some resp)
        reply := update c.reply SERVER_REPLY_SLOT none }
      (update ph a (.answered msg resp)) := by
  have here := h.located a
  rw [ht] at here
  have named : c.reply SERVER_REPLY_SLOT = some a := (here.taken SERVER_REPLY_SLOT).mpr ⟨rfl, rfl⟩
  refine h.move { here with taken := fun d => ?_, answered := update_self .. }
    (fun r hr l => { l with
      taken := fun d => (update_eq_some (by simp) (by simp [named, Ne.symm hr]) d).trans (l.taken d)
      answered := (update_of_ne hr ..).trans l.answered }) h.distinct { h.listening with }
  dsimp only
  by_cases hd : d = SERVER_REPLY_SLOT
  · rw [hd, update_self]
    simp [Phase.isTaken]
  · rw [update_of_ne hd, here.taken d]
    simp [hd]

end Agrees

/-! ## What a party sees of its calls -/

/-- The calls of one party in a history. -/
inductive CallEvent where
  | called (msg : Message)
  | took (req : Message)
  | replied (resp : Message)
  | returned (resp : Message)
  deriving DecidableEq

/-- An event as one of the calls of `p`: the caller of a request is its badge. -/
def callEvent (p : PartyId) : Event → Option CallEvent
  | .call q msg => if q = p then some (.called msg) else none
  | .request _ req _ => if req.badge = p then some (.took req) else none
  | .reply _ _ resp (some caller) _ => if caller = p then some (.replied resp) else none
  | .returned q resp => if q = p then some (.returned resp) else none
  | _ => none

/-- A whole call of `p`: the message goes out, is taken once with `p` as its badge, is answered
once, and the answer comes back. -/
def round (p : PartyId) (x : Message × Message) : List CallEvent :=
  [.called x.1, .took { x.1 with badge := p }, .replied x.2, .returned x.2]

/-- The part of a call that is over. -/
def Phase.log (p : PartyId) : Phase → List CallEvent
  | .idle => []
  | .made msg | .queued msg | .handed msg _ => [.called msg]
  | .taken msg => [.called msg, .took { msg with badge := p }]
  | .answered msg resp => [.called msg, .took { msg with badge := p }, .replied resp]

/-- Whole calls, and the one that is under way. -/
def Logged (tr : List Event) (ph : PartyId → Phase) : Prop :=
  ∀ p, ∃ done : List (Message × Message), tr.filterMap (callEvent p) = done.flatMap (round p) ++
    (ph p).log p

/-- What an event adds to what a party sees. -/
inductive Moves (p : PartyId) : Option CallEvent → Phase → Phase → Prop
  | stay {x y} (h : y.log p = x.log p) : Moves p none x y
  | go {ce x y} (h : y.log p = x.log p ++ [ce]) : Moves p (some ce) x y
  | finish {msg resp} : Moves p (some (.returned resp)) (.answered msg resp) .idle

theorem Logged.step {tr : List Event} {ph' : PartyId → Phase} (h : Logged tr ph)
    (hm : ∀ p, Moves p (callEvent p ev) (ph p) (ph' p)) : Logged (tr ++ [ev]) ph' := by
  intro p
  obtain ⟨done, hdone⟩ := h p
  have moved := hm p
  rw [List.filterMap_append, hdone]
  generalize hce : callEvent p ev = ce at moved
  generalize hold : ph p = old at moved
  generalize hnew : ph' p = new at moved
  cases moved with
  | stay hlog =>
    refine ⟨done, ?_⟩
    rw [List.filterMap_cons_none hce, List.filterMap_nil, List.append_nil, hlog]
  | go hlog =>
    refine ⟨done, ?_⟩
    rw [List.filterMap_cons_some hce, List.filterMap_nil, List.append_assoc, hlog]
  | @finish msg resp =>
    refine ⟨done ++ [(msg, resp)], ?_⟩
    rw [List.filterMap_cons_some hce, List.filterMap_nil, List.append_assoc, List.flatMap_append]
    simp [Phase.log, round]

/-- The phase of `p` changes as the event says; for all others the event is none of theirs. -/
theorem moves_update (hp : Moves p (callEvent p ev) (ph p) x)
    (ho : ∀ q, q ≠ p → callEvent q ev = none) (q : PartyId) :
    Moves q (callEvent q ev) (ph q) (update ph p x q) := by
  by_cases hq : q = p
  · subst hq
    rw [update_self]
    exact hp
  · rw [update_of_ne hq, ho q hq]
    exact .stay rfl

/-- **One step**: the phases follow. -/
theorem Agrees.step {task : PartyId → Waker} (h : Agrees c ph) (hd : Does task c ev c') :
    ∃ ph', Agrees c' ph' ∧ ∀ p, Moves p (callEvent p ev) (ph p) (ph' p) := by
  cases hd with
  | @call p msg hst =>
    have idle : ph p = .idle := h.idle (by rw [hst]; rfl)
    refine ⟨_, h.call msg hst, moves_update ?_ fun q hq => if_neg (Ne.symm hq)⟩
    rw [show callEvent p (.call p msg) = some (.called msg) from if_pos rfl, idle]
    exact .go rfl
  | recv hst => exact ⟨ph, h.recv hst, fun q => .stay rfl⟩
  | @hand p a q rest msg hst hq =>
    obtain ⟨rfl, made⟩ := h.made hst
    refine ⟨_, (h.hand hst hq).aside _ _, moves_update ?_ fun _ _ => rfl⟩
    rw [made]
    exact .stay rfl
  | @enqueue p a msg hst hq =>
    obtain ⟨rfl, made⟩ := h.made hst
    refine ⟨_, (h.enqueue hst).aside _ _, moves_update ?_ fun _ _ => rfl⟩
    rw [made]
    exact .stay rfl
  | @collect p a m resp hst hr =>
    obtain ⟨rfl, _⟩ := h.sent hst
    obtain ⟨msg, ha⟩ := Phase.answer_eq ((h.located a).answered.symm.trans hr)
    refine ⟨_, h.collect hst ha, moves_update ?_ fun q hq => if_neg (Ne.symm hq)⟩
    rw [show callEvent a (.returned a resp) = some (.returned resp) from if_pos rfl, ha]
    exact .finish
  | wait hst hr | rest hst hdel | lend hst | charge hst | giveBack hst =>
    exact ⟨ph, h.aside _ _, fun q => .stay rfl⟩
  | @take p a tried sender msg hst hdel hfree =>
    obtain rfl : a = p := h.listening.own p _ hst
    refine ⟨_, h.take hst hdel hfree, moves_update ?_ fun q hq => if_neg (Ne.symm hq)⟩
    rw [show callEvent sender (.request a { msg with badge := sender } SERVER_REPLY_SLOT) =
      _ from if_pos rfl, Phase.withReceiver_eq (((h.located sender).handed a msg).mp hdel)]
    exact .go rfl
  | @meet p a sender msg rest hst hdel hs hfree =>
    obtain rfl : a = p := h.listening.own p _ hst
    have queued := ((h.located sender).queued msg).mp (by rw [hs]; exact List.mem_cons_self ..)
    refine ⟨_, h.meet hst hs hfree, moves_update ?_ fun q hq => if_neg (Ne.symm hq)⟩
    rw [show callEvent sender (.request a { msg with badge := sender } SERVER_REPLY_SLOT) =
      _ from if_pos rfl, Phase.inQueue_eq queued]
    exact .go rfl
  | @listen p a hst hdel hs =>
    obtain rfl : a = p := h.listening.own p _ hst
    exact ⟨ph, (h.listen hst hdel).aside _ _, fun q => .stay rfl⟩
  | @reply p slot resp caller hst hr =>
    obtain ⟨rfl, taken⟩ := ((h.located caller).taken slot).mp hr
    obtain ⟨msg, hc⟩ := Phase.isTaken_eq taken
    refine ⟨_, (h.reply hc).aside _ _, moves_update ?_ fun q hq => if_neg (Ne.symm hq)⟩
    rw [show callEvent caller (.reply p SERVER_REPLY_SLOT resp (some caller) _) = _ from if_pos rfl,
      hc]
    exact .go rfl
  | refuse hst => exact ⟨ph, h, fun q => .stay rfl⟩

end

/-- Nobody waits for anything, and no `Reply` is held. -/
structure Init (s : System) : Prop where
  stage : ∀ p, s.stage p = .running
  endpoint : s.world.endpoint = .new
  delivered : ∀ p, s.world.delivered p = none
  responses : ∀ p, s.world.responses p = none
  reply : ∀ d, replyAt s.world.serverCs d = none

theorem Init.agrees (h : Init s) : Agrees (core s) fun _ => .idle := by
  refine ⟨fun p => ⟨?_, fun m => ?_, fun q m => ?_, fun d => ?_, h.responses p⟩, ?_,
    ⟨?_, fun q => ?_, fun q _ => h.delivered q, ?_⟩⟩
  all_goals dsimp only [core]
  · rw [h.stage p]
    rfl
  · rw [h.endpoint]
    simp [EndpointState.new, Phase.inQueue]
  · rw [h.delivered q]
    simp [Phase.withReceiver]
  · rw [h.reply d]
    simp [Phase.isTaken]
  · rw [h.endpoint]
    exact List.nodup_nil
  · exact fun q r hr => absurd ((h.stage q).symm.trans hr) Stage.noConfusion
  · rw [h.endpoint, h.delivered q, h.stage q]
    simp [EndpointState.new]
  · rw [h.endpoint]
    exact List.nodup_nil

theorem run_phases {t : System} (h : Run (Step task) s tr t) (hs : Init s) :
    ∃ ph, Agrees (core t) ph ∧ Logged tr ph := by
  refine h.inv_trace (fun tr t => ∃ ph, Agrees (core t) ph ∧ Logged tr ph) ?_ fun tr t ev u ih
    hstep => ?_
  · exact ⟨_, hs.agrees, fun p => ⟨[], rfl⟩⟩
  · obtain ⟨ph, agrees, logged⟩ := ih
    obtain ⟨ph', agrees', moves⟩ := agrees.step hstep.does
    exact ⟨ph', agrees', logged.step moves⟩

theorem log_take (p : PartyId) (ph : Phase) : ∃ x k, k < 4 ∧ ph.log p = (round p x).take k := by
  cases ph with
  | idle => exact ⟨(.empty 0, .empty 0), 0, by decide, rfl⟩
  | made msg | queued msg | handed msg q => exact ⟨(msg, .empty 0), 1, by decide, rfl⟩
  | taken msg => exact ⟨(msg, .empty 0), 2, by decide, rfl⟩
  | answered msg resp => exact ⟨(msg, resp), 3, by decide, rfl⟩

/-- **Every call is answered once, with its own answer.**  Whatever the number of parties and the
order of their polls, what happens to the calls of a party is a sequence of whole rounds, then the
beginning of one: the message is taken once, under the caller's badge, one reply names the caller,
and the call returns that reply. -/
theorem calls_correlated {task : PartyId → Waker} {s t : System} {tr : List Event} (hs : Init s)
    (h : Run (Step task) s tr t) (p : PartyId) :
    ∃ (done : List (Message × Message)) (last : Message × Message) (k : Nat), k < 4 ∧
      tr.filterMap (callEvent p) = done.flatMap (round p) ++ (round p last).take k := by
  obtain ⟨ph, _, logged⟩ := run_phases h hs
  obtain ⟨done, hdone⟩ := logged p
  obtain ⟨last, k, hk, hlog⟩ := log_take p (ph p)
  exact ⟨done, last, k, hk, by rw [hdone, hlog]⟩

theorem atRest_init : Init atRest where
  stage := fun _ => rfl
  endpoint := rfl
  delivered := fun _ => rfl
  responses := fun _ => rfl
  reply := fun d => replyAt_of_not_live (CSpace.not_live_empty _ _ (CSpace.slot_new d))

/-- Party 1 calls party 2, whose answer adds 1. -/
def oneRound : List Event :=
  [.call 1 (.withData 7 [41]), .pending 1 [], .recv 2,
    .request 2 { Message.withData 7 [41] with badge := 1 } 10,
    .reply 2 10 (.withData 7 [42]) (some 1) [1], .returned 1 (.withData 7 [42])]

theorem atRest_round : ∃ t, Run (Step id) atRest oneRound t := by
  have next : ∀ {s t : System} {tr : List Event} {ev : Event}, Step id s ev t →
    (∃ u, Run (Step id) t tr u) →
      ∃ u, Run (Step id) s (ev :: tr) u := fun hs ⟨u, h⟩ => ⟨u, .cons hs h⟩
  refine next (.call _ rfl) ?_
  refine next (.callPending (c := call 1 (.withData 7 [41])) rfl rfl) ?_
  refine next (.recv rfl) ?_
  refine next (.recvReady (r := recv 2) rfl rfl) ?_
  refine next (.reply 10 _ rfl rfl) ?_
  refine next (.callReady (c := ⟨1, none, true⟩) rfl rfl) ?_
  exact ⟨_, .nil _⟩

theorem calls_correlated_oneRound :
    (∃ t, Run (Step id) atRest oneRound t) ∧
    ∃ (done : List (Message × Message)) (last : Message × Message) (k : Nat), k < 4 ∧
      oneRound.filterMap (callEvent 1) = done.flatMap (round 1) ++ (round 1 last).take k := by
  obtain ⟨t, h⟩ := atRest_round
  exact ⟨⟨t, h⟩, calls_correlated atRest_init h 1⟩

end Ipc

end Praesidium
