import Mathlib.Logic.Function.Basic
import Praesidium.CapCore.CSpaceDestroy
import Praesidium.Ipc.Endpoint
import Praesidium.Ipc.Message
import Praesidium.Sched.Executor

/-!
Synchronous calls on the executor (`kernel/src/ipc/mod.rs`).

Any number of parties share one `IpcWorld`.  A party's code runs until it awaits a `Call` or a
`Recv`, whose polls are the steps here; between two awaits it may answer a request or hand budget
around.  A poll may come at any time, also when nobody woke the party.  `fatal` halts the machine:
there is no step then.
-/

namespace Praesidium

open Function (update)

namespace Ipc

/-- A waker puts its task in the ready queue. -/
abbrev Waker := Executor.TaskId

def SLOTS : Nat := 16
def SERVER_RECV_BASE : Nat := 5
def SERVER_REPLY_SLOT : Nat := 10

end Ipc

open Ipc

structure IpcWorld where
  endpoint : EndpointState Message
  clientCs : CSpace SLOTS
  serverCs : CSpace SLOTS
  clientBudget : Budget
  serverBudget : Budget
  wakers : PartyId → Option Waker
  delivered : PartyId → Option (PartyId × Message)
  responses : PartyId → Option Message

namespace Ipc

/-! ## The shared state -/

/-- The capability transfers of a message, from the `i`-th on. -/
def transfer (badge : U64) : Nat → List CapXfer → CSpace SLOTS × CSpace SLOTS →
    Option (CSpace SLOTS × CSpace SLOTS)
  | _, [], s => some s
  | i, x :: rest, s =>
    match grant x.src (SERVER_RECV_BASE + i) x.rights badge x.mode s with
    | .ok _ s' => transfer badge (i + 1) rest s'
    | .error _ _ => none

/-- The request as the receiver gets it, with the slot of the `Reply`. -/
def onRequest (w : IpcWorld) (sender : PartyId) (msg : Message) :
    Option ((Message × Nat) × IpcWorld) :=
  let msg := { msg with badge := sender }
  match CSpace.mintReply SERVER_REPLY_SLOT sender msg.badge w.serverCs with
  | .error _ _ => none
  | .ok _ serverCs =>
    match transfer msg.badge 0 msg.transfers (w.clientCs, serverCs) with
    | none => none
    | some (clientCs, serverCs) => some ((msg, SERVER_REPLY_SLOT), { w with clientCs, serverCs })

/-- `wk.wake()`, if the party has left a waker -/
def wake (w : IpcWorld) (party : PartyId) : IpcWorld × List Waker :=
  match w.wakers party with
  | some wk => ({ w with wakers := update w.wakers party none }, [wk])
  | none => (w, [])

def register (w : IpcWorld) (party : PartyId) (waker : Waker) : IpcWorld :=
  { w with wakers := update w.wakers party (some waker) }

/-- The caller that was answered; the source tells only whether there was one. -/
def doReply (w : IpcWorld) (replySlot : Nat) (resp : Message) :
    Option (Option PartyId × IpcWorld × List Waker) :=
  match CSpace.consumeReply replySlot w.serverCs with
  | .ok caller serverCs =>
    some (some caller, wake { w with serverCs, responses := update w.responses caller (some resp) }
    caller)
  | .error (.err _) serverCs => some (none, { w with serverCs }, [])
  | .error _ _ => none

/-! ## The futures -/

inductive Poll (α : Type) where
  | ready (a : α)
  | pending
  deriving DecidableEq

structure Call where
  party : PartyId
  msg : Option Message
  sent : Bool
  deriving DecidableEq

def call (party : PartyId) (msg : Message) : Call := ⟨party, some msg, false⟩

def Call.poll (c : Call) (waker : Waker) (w : IpcWorld) :
    Option (Poll Message × Call × IpcWorld × List Waker) :=
  if c.sent = false then
    match c.msg with
    | none => none
    | some msg =>
      let c := { c with msg := none, sent := true }
      match w.endpoint.send c.party msg with
      | (.delivered receiver msg, endpoint) =>
        let (w, wakes) :=
          wake { w with endpoint, delivered := update w.delivered receiver (some (c.party, msg)) }
          receiver
        some (.pending, c, register w c.party waker, wakes)
      | (.queued, endpoint) => some (.pending, c, register { w with endpoint } c.party waker, [])
  else
    match w.responses c.party with
    | some resp =>
      some (.ready resp, c, { w with responses := update w.responses c.party none }, [])
    | none => some (.pending, c, register w c.party waker, [])

structure Recv where
  party : PartyId
  tried : Bool
  deriving DecidableEq

def recv (party : PartyId) : Recv := ⟨party, false⟩

def Recv.poll (r : Recv) (waker : Waker) (w : IpcWorld) :
    Option (Poll (Message × Nat) × Recv × IpcWorld) :=
  match w.delivered r.party with
  | some (sender, msg) =>
    (onRequest { w with delivered := update w.delivered r.party none } sender msg).map
    fun (req, w) => (.ready req, r, w)
  | none =>
    if r.tried = false then
      let r := { r with tried := true }
      match w.endpoint.recv r.party with
      | (.received sender msg, endpoint) =>
        (onRequest { w with endpoint } sender msg).map fun (req, w) => (.ready req, r, w)
      | (.queued, endpoint) => some (.pending, r, register { w with endpoint } r.party waker)
    else some (.pending, r, register w r.party waker)

/-! ## The parties -/

/-- Where a party's code is. -/
inductive Stage where
  | running
  | calling (c : Call)
  | receiving (r : Recv)
  deriving DecidableEq

inductive Event where
  | call (p : PartyId) (msg : Message)
  | recv (p : PartyId)
  | pending (p : PartyId) (wakes : List Waker)
  | returned (p : PartyId) (resp : Message)
  | request (p : PartyId) (req : Message) (replySlot : Nat)
  | reply (p : PartyId) (replySlot : Nat) (resp : Message) (caller : Option PartyId)
      (wakes : List Waker)
  | lend (p : PartyId) (amount : U32)
  | charge (p : PartyId) (units : U32)
  | giveBack (p : PartyId)
  deriving DecidableEq

def Event.wakes : Event → List Waker
  | .pending _ wakes | .reply _ _ _ _ wakes => wakes
  | _ => []

structure System where
  world : IpcWorld
  stage : PartyId → Stage

def System.go (s : System) (p : PartyId) (st : Stage) (world : IpcWorld) : System :=
  ⟨world, update s.stage p st⟩

/-- `src.delegate(dst, amount)`; a refusal is ignored -/
def delegated (src dst : Budget) (amount : U32) : Budget × Budget :=
  (src.delegate dst amount).getD (src, dst)

def lend (w : IpcWorld) (amount : U32) : IpcWorld :=
  let moved := delegated w.clientBudget w.serverBudget amount
  { w with clientBudget := moved.1, serverBudget := moved.2 }

/-- The server hands back what it has not used. -/
def giveBack (w : IpcWorld) : IpcWorld :=
  let moved := delegated w.serverBudget w.clientBudget w.serverBudget.remaining
  { w with clientBudget := moved.2, serverBudget := moved.1 }

/-- One step of a party; `task` is the task that runs its code. -/
inductive Step (task : PartyId → Waker) : System → Event → System → Prop
  | call {s p} (msg : Message) (h : s.stage p = .running) :
      Step task s (.call p msg) (s.go p (.calling (Ipc.call p msg)) s.world)
  | recv {s p} (h : s.stage p = .running) : Step task s (.recv p)
      (s.go p (.receiving (Ipc.recv p)) s.world)
  | callPending {s p c c' w wakes} (h : s.stage p = .calling c)
      (hp : c.poll (task p) s.world = some (.pending, c', w, wakes)) :
      Step task s (.pending p wakes) (s.go p (.calling c') w)
  | callReady {s p c c' w wakes resp} (h : s.stage p = .calling c)
      (hp : c.poll (task p) s.world = some (.ready resp, c', w, wakes)) :
      Step task s (.returned p resp) (s.go p .running w)
  | recvPending {s p r r' w} (h : s.stage p = .receiving r) (hp : r.poll (task p) s.world =
      some (.pending, r', w)) : Step task s (.pending p []) (s.go p (.receiving r') w)
  | recvReady {s p r r' w req slot} (h : s.stage p = .receiving r)
      (hp : r.poll (task p) s.world = some (.ready (req, slot), r', w)) :
      Step task s (.request p req slot) (s.go p .running w)
  | reply {s p w caller wakes} (slot : Nat) (resp : Message) (h : s.stage p = .running)
      (hr : doReply s.world slot resp = some (caller, w, wakes)) :
      Step task s (.reply p slot resp caller wakes) { s with world := w }
  | lend {s p} (amount : U32) (h : s.stage p = .running) :
      Step task s (.lend p amount) { s with world := Ipc.lend s.world amount }
  | charge {s p} (units : U32) (h : s.stage p = .running) :
      Step task s (.charge p units)
        { s with world := { s.world with serverBudget := s.world.serverBudget.charge units } }
  | giveBack {s p} (h : s.stage p = .running) : Step task s (.giveBack p)
      { s with world := Ipc.giveBack s.world }

/-- Parties at rest; the server has no budget of its own. -/
def atRest : System where
  world :=
    { endpoint := .new, clientCs := .new, serverCs := .new, clientBudget := Budget.new 100 100,
      serverBudget := Budget.new 0 100,
      wakers := fun _ => none, delivered := fun _ => none, responses := fun _ => none }
  stage := fun _ => .running

/-! ## Replies in a capability space -/

/-- The caller named by the `Reply` in slot `d`. -/
def replyAt (cs : CSpace SLOTS) (d : Nat) : Option PartyId :=
  if (cs.slot d).cap.capType = .reply then some (cs.slot d).cap.objref else none

variable {d slot : Nat} {w w' : IpcWorld}

theorem replyAt_of_not_live {cs : CSpace SLOTS} (h : ¬ cs.Live d) : replyAt cs d = none := by
  unfold CSpace.Live RawCap.isNull at h
  rw [decide_eq_false_iff_not, Decidable.not_not] at h
  unfold replyAt
  rw [h]
  rfl

theorem replyAt_put (cs : CSpace SLOTS) (e : Cte) (hd : d < SLOTS) (k : Nat) :
    replyAt (cs.put d e) k =
      if k = d then (if e.cap.capType = .reply then some e.cap.objref else none) else replyAt
        cs k := by
  unfold replyAt
  rw [CSpace.slot_put cs d k e hd]
  by_cases hk : k = d
  · rw [if_pos hk, if_pos hk]
  · rw [if_neg hk, if_neg hk]

/-- A transfer moves no `Reply`. -/
theorem transfer_replyAt {badge : U64} {xs : List CapXfer} {i : Nat}
    {s t : CSpace SLOTS × CSpace SLOTS} (h : transfer badge i xs s = some t) (d : Nat) :
    replyAt t.2 d = replyAt s.2 d := by
  induction xs generalizing i s with
  | nil =>
    cases h
    rfl
  | cons x rest ih =>
    unfold transfer at h
    cases hg : grant x.src (SERVER_RECV_BASE + i) x.rights badge x.mode s with
    | error e s' =>
      rw [hg] at h
      cases h
    | ok a s' =>
      rw [hg] at h
      have granted := (grant_spec s.1 x.src s.2 (SERVER_RECV_BASE + i) x.rights badge x.mode).ok hg
      have plain : (s.1.slot x.src).cap.capType ≠ .reply := fun hc =>
        granted.transferable (by rw [hc]; exact List.mem_cons_self ..)
      rw [ih h, granted.dst, replyAt_put _ _ granted.inRange, if_neg plain]
      by_cases hd : d = SERVER_RECV_BASE + i
      · rw [if_pos hd, hd, replyAt_of_not_live granted.free]
      · rw [if_neg hd]

/-- What a taken request does to the shared state. -/
structure Requested (w : IpcWorld) (sender : PartyId) (msg : Message) (req : Message) (slot : Nat)
    (w' : IpcWorld) : Prop where
  req : req = { msg with badge := sender }
  slot : slot = SERVER_REPLY_SLOT
  free : replyAt w.serverCs SERVER_REPLY_SLOT = none
  world : w' = { w with clientCs := w'.clientCs, serverCs := w'.serverCs }
  reply : ∀ d, replyAt w'.serverCs d = if d = SERVER_REPLY_SLOT then some sender else replyAt
    w.serverCs d

theorem onRequest_spec {sender : PartyId} {msg req : Message}
    (h : onRequest w sender msg = some ((req, slot), w')) : Requested w sender msg req slot w' := by
  unfold onRequest at h
  dsimp only at h
  split at h
  · cases h
  · next serverCs hm =>
    obtain ⟨hd, hfree, rfl⟩ :=
      (CSpace.mintReply_spec w.serverCs SERVER_REPLY_SLOT sender sender).ok hm
    split at h
    · cases h
    · next clientCs' serverCs' ht =>
      cases h
      refine ⟨rfl, rfl, replyAt_of_not_live hfree, rfl, fun d => ?_⟩
      dsimp only
      rw [transfer_replyAt ht d, replyAt_put _ _ hd]
      rfl

/-- What a reply does to the shared state. -/
structure Replied (w : IpcWorld) (slot : Nat) (resp : Message) (caller : PartyId) (w' : IpcWorld) :
    Prop where
  named : replyAt w.serverCs slot = some caller
  world : w' =
    { w with serverCs := w'.serverCs, responses := update w.responses caller (some resp) }
  reply : ∀ d, replyAt w'.serverCs d = if d = slot then none else replyAt w.serverCs d

theorem doReply_spec {resp : Message} {caller : Option PartyId} {wakes : List Waker}
    (h : doReply w slot resp = some (caller, w', wakes)) :
    (caller = none ∧ w' = w ∧ wakes = []) ∨
    ∃ p v, caller = some p ∧ Replied w slot resp p v ∧ wake v p = (w', wakes) := by
  unfold doReply at h
  split at h
  · next p serverCs hc =>
    rw [Option.some.injEq, Prod.mk.injEq] at h
    obtain ⟨rfl, hw⟩ := h
    obtain ⟨hl, ht, rfl, hd⟩ := (CSpace.consumeReply_spec w.serverCs slot).ok hc
    refine .inr ⟨_, _, rfl, ⟨if_pos ht, rfl, fun d => ?_⟩, hw⟩
    dsimp only
    by_cases hds : d = slot
    · rw [if_pos hds, hds]
      exact replyAt_of_not_live (CSpace.not_live_empty _ _ hd.self)
    · rw [if_neg hds]
      obtain ⟨_, size, hcap⟩ := hd.kept d hds
      unfold replyAt
      rw [hcap]
  · next e serverCs hc =>
    cases h
    have same := (CSpace.consumeReply_spec w.serverCs slot).error hc
    obtain ⟨_, rfl⟩ | ⟨hoob, _⟩ := same
    · exact .inl ⟨rfl, rfl, rfl⟩
    · cases hoob
  · cases h

end Ipc

end Praesidium
