import Praesidium.Ipc.Endpoint

/-!
The notification object (`ipc/src/notification.rs`), and what it is for.

A signal releases a waiter, or is latched for the next one.  `Service` adds the parties to the
object: a wait that was answered, or whose party was woken, is `released` until the party returns
(`done`), and a party that looks and is not released stays `blocked`.  `order` says which waiter a
signal may release: `Eq`, the oldest, as the object does; `List.Perm`, any one of them.
-/

namespace Praesidium

/-! ## The object -/

structure NotificationState where
  pending : Bool
  waiters : List PartyId
  deriving DecidableEq, Repr

inductive SignalOutcome where
  | woke (party : PartyId)
  | latched
  deriving DecidableEq, Repr

inductive WaitOutcome where
  | ready
  | queued
  deriving DecidableEq, Repr

namespace NotificationState

def new : NotificationState := ⟨false, []⟩

def signal (n : NotificationState) : SignalOutcome × NotificationState :=
  match n.waiters with
  | p :: rest => (.woke p, { n with waiters := rest })
  | [] => (.latched, { n with pending := true })

def wait (n : NotificationState) (party : PartyId) : WaitOutcome × NotificationState :=
  if n.pending then (.ready, { n with pending := false }) else (.queued,
    { n with waiters := n.waiters ++ [party] })

/-- Whether a waiter was removed, and what is left. -/
def cancel (n : NotificationState) (party : PartyId) : Bool × NotificationState :=
  let waiters := n.waiters.filter fun p => p != party
  (n.waiters.length != waiters.length, { n with waiters })

end NotificationState

/-! ## The service it gives -/

structure Service where
  object : NotificationState
  released : List PartyId
  deriving DecidableEq, Repr

namespace Service

/-- What can be seen of a notification: `done` is a wait that returns, `blocked` one that looks and
has to go on waiting. -/
inductive Obs where
  | wait (party : PartyId)
  | signal
  | done (party : PartyId)
  | blocked (party : PartyId)
  deriving DecidableEq, Repr

def new : Service := ⟨.new, []⟩

def afterWait (s : Service) (party : PartyId) : Service :=
  match s.object.wait party with
  | (.ready, n) => ⟨n, s.released ++ [party]⟩
  | (.queued, n) => ⟨n, s.released⟩

def afterSignal (s : Service) : Service :=
  match s.object.signal with
  | (.woke p, n) => ⟨n, s.released ++ [p]⟩
  | (.latched, n) => ⟨n, s.released⟩

def Step (order : List PartyId → List PartyId → Prop) (s : Service) : Obs → Service → Prop
  | .wait party, t => t = s.afterWait party
  | .signal, t =>
    ∃ waiters, order s.object.waiters waiters ∧
    t = afterSignal { s with object := { s.object with waiters } }
  | .done party, t => party ∈ s.released ∧ t = { s with released := s.released.erase party }
  | .blocked party, t => party ∉ s.released ∧ t = s

/-- With two parties waiting, two signals release both, whichever comes first. -/
theorem two_released {p q : PartyId} {l : List Obs} {t : Service}
    (h : Run (Step List.Perm) new ([.wait p, .wait q, .signal, .signal] ++ l) t) :
    ∃ s, Run (Step List.Perm) s l t ∧ s.released.Perm [p, q] := by
  obtain ⟨s1, hw1, h⟩ := h.cons_inv
  obtain ⟨s2, hw2, h⟩ := h.cons_inv
  obtain ⟨s3, ⟨ws, hp, hs1⟩, h⟩ := h.cons_inv
  obtain ⟨s4, ⟨ws', hp', hs2⟩, h⟩ := h.cons_inv
  cases hw1
  cases hw2
  have hp : [p, q].Perm ws := hp
  -- the first signal finds two waiters, the second one
  obtain ⟨x, y, rfl⟩ : ∃ x y, ws = [x, y] := List.length_eq_two.mp hp.length_eq.symm
  cases hs1
  obtain rfl : [y] = ws' := List.singleton_perm.mp hp'
  cases hs2
  exact ⟨_, h, hp.symm⟩

end Service

end Praesidium
