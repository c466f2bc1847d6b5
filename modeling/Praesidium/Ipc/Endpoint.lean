import Praesidium.CapCore.Cap
import Praesidium.Lib.Run

/-!
The endpoint rendezvous (`ipc/src/endpoint.rs`).

Senders and receivers meet in the order they come, and a party that waits can be cancelled.  The
law is about whole histories.  A `Ledger` says what became of each send and receive, named by its
position in the history: met, cancelled or still waiting; `Accounts` says when it is right.

    Run Step .new tr s → ∃ ledger, Accounts tr s ledger     (endpoint_accounts)

Both sides behave alike, so what is kept is stated once for a `Side`.
-/

namespace Praesidium

abbrev PartyId := U64

/-! ## The endpoint -/

structure SendWaiter (μ : Type) where
  party : PartyId
  msg : μ
  deriving DecidableEq, Repr

structure EndpointState (μ : Type) where
  senders : List (SendWaiter μ)
  receivers : List PartyId
  deriving DecidableEq, Repr

inductive SendOutcome (μ : Type) where
  | delivered (receiver : PartyId) (msg : μ)
  | queued
  deriving DecidableEq, Repr

inductive RecvOutcome (μ : Type) where
  | received (sender : PartyId) (msg : μ)
  | queued
  deriving DecidableEq, Repr

namespace EndpointState

variable {μ : Type}

def new : EndpointState μ := ⟨[], []⟩

def send (s : EndpointState μ) (sender : PartyId) (msg : μ) : SendOutcome μ × EndpointState μ :=
  match s.receivers with
  | receiver :: rest => (.delivered receiver msg, { s with receivers := rest })
  | [] => (.queued, { s with senders := s.senders ++ [⟨sender, msg⟩] })

def recv (s : EndpointState μ) (receiver : PartyId) : RecvOutcome μ × EndpointState μ :=
  match s.senders with
  | w :: rest => (.received w.party w.msg, { s with senders := rest })
  | [] => (.queued, { s with receivers := s.receivers ++ [receiver] })

/-- Whether a waiter was removed, and what is left. -/
def cancel (s : EndpointState μ) (party : PartyId) : Bool × EndpointState μ :=
  let before := s.senders.length + s.receivers.length
  let senders := s.senders.filter fun w => w.party != party
  let receivers := s.receivers.filter fun p => p != party
  (before != senders.length + receivers.length, ⟨senders, receivers⟩)

def isIdle (s : EndpointState μ) : Bool := s.senders.isEmpty && s.receivers.isEmpty

end EndpointState

namespace Endpoint

variable {μ : Type}

/-! ## Histories -/

inductive Side where
  | sender
  | receiver
  deriving DecidableEq, Repr

def Side.other : Side → Side
  | .sender => .receiver
  | .receiver => .sender

theorem Side.eq_other {side o : Side} (h : o ≠ side) : o = side.other := by
  cases o with
  | sender => cases side with
    | sender => exact absurd rfl h
    | receiver => rfl
  | receiver => cases side with
    | sender => rfl
    | receiver => exact absurd rfl h

/-- A call and what it returned. -/
inductive Event (μ : Type) where
  | send (sender : PartyId) (msg : μ) (out : SendOutcome μ)
  | recv (receiver : PartyId) (out : RecvOutcome μ)
  | cancel (party : PartyId) (removed : Bool)
  deriving DecidableEq, Repr

def Step (s : EndpointState μ) : Event μ → EndpointState μ → Prop
  | .send sender msg out, t => s.send sender msg = (out, t)
  | .recv receiver out, t => s.recv receiver = (out, t)
  | .cancel party removed, t => s.cancel party = (removed, t)

namespace Event

def side : Event μ → Option Side
  | .send .. => some .sender
  | .recv .. => some .receiver
  | .cancel .. => none

/-- The party that comes to the endpoint, with what it offers. -/
def entry : Event μ → Option (PartyId × Option μ)
  | .send sender msg _ => some (sender, some msg)
  | .recv receiver _ => some (receiver, none)
  | .cancel .. => none

/-- The call found its partner waiting. -/
def met : Event μ → Bool
  | .send _ _ (.delivered ..) => true
  | .recv _ (.received ..) => true
  | _ => false

end Event

/-- The positions of one side's calls. -/
def arrivals (tr : List (Event μ)) (side : Side) : List Nat :=
  tr.findIdxs fun ev => ev.side == some side

def entryAt (tr : List (Event μ)) (i : Nat) : Option (PartyId × Option μ) := tr[i]?.bind Event.entry

/-- Who waits on a side, with what it offers. -/
def queue (s : EndpointState μ) : Side → List (PartyId × Option μ)
  | .sender => s.senders.map fun w => (w.party, some w.msg)
  | .receiver => s.receivers.map fun p => (p, none)

/-! ## Ledgers -/

/-- What became of each call: `pairs` met, as (send, receive); `waiting` still do; `dropped` gives
the cancel that removed a call. -/
structure Ledger where
  pairs : List (Nat × Nat)
  waiting : Side → List Nat
  dropped : Nat → Option Nat

namespace Ledger

def matched (l : Ledger) : Side → List Nat
  | .sender => l.pairs.map Prod.fst
  | .receiver => l.pairs.map Prod.snd

def live (l : Ledger) (i : Nat) : Bool := (l.dropped i).isNone

end Ledger

/-- The later of two calls found the earlier one waiting.  The message and the identities are those
of the two calls. -/
def Met (tr : List (Event μ)) (i j : Nat) : Prop :=
  ∃ sender msg receiver,
    (i < j ∧ tr[i]? = some (.send sender msg .queued) ∧
    tr[j]? = some (.recv receiver (.received sender msg))) ∨
    (j < i ∧ tr[j]? = some (.recv receiver .queued) ∧
    tr[i]? = some (.send sender msg (.delivered receiver msg)))

/-- The ledger is right for the history `tr` that led to `s`. -/
structure Accounts (tr : List (Event μ)) (s : EndpointState μ) (l : Ledger) : Prop where
  /-- what was not cancelled met in order, the rest waits in order -/
  arrived : ∀ side, (arrivals tr side).filter l.live = l.matched side ++ l.waiting side
  oneSide : ∃ side, l.waiting side = []
  /-- one entry of the queue for each call that waits -/
  queued : ∀ side, (queue s side).map some = (l.waiting side).map (entryAt tr)
  pairs : ∀ i j, (i, j) ∈ l.pairs → Met tr i j
  /-- no other call was told that it met -/
  told : ∀ k ev, tr[k]? = some ev → ev.met = true → ∃ j, j < k ∧
    ((k, j) ∈ l.pairs ∨ (j, k) ∈ l.pairs)
  cancelled : ∀ i k, l.dropped i = some k → i < k ∧
    ∃ party offer, entryAt tr i = some (party, offer) ∧ tr[k]? = some (.cancel party true)
  /-- a cancel removes every call of its party that neither met nor was cancelled before -/
  cancels : ∀ k party removed, tr[k]? = some (.cancel party removed) →
    (removed = true ↔ ∃ i, l.dropped i = some k) ∧
    ∀ i offer, i < k → entryAt tr i = some (party, offer) →
      (∃ k', k' ≤ k ∧ l.dropped i = some k') ∨ ∃ j, j < k ∧ ((i, j) ∈ l.pairs ∨ (j, i) ∈ l.pairs)

/-! ## Positions -/

section

variable {tr : List (Event μ)} {ev : Event μ} {side : Side}

theorem arrivals_snoc (tr : List (Event μ)) (ev : Event μ) (side : Side) :
    arrivals (tr ++ [ev]) side = arrivals tr side ++ if ev.side = some side then [tr.length]
      else [] := by
  unfold arrivals
  rw [findIdxs_snoc]
  simp only [beq_iff_eq]

variable {i : Nat}

theorem entryAt_snoc_old (hi : i < tr.length) : entryAt (tr ++ [ev]) i = entryAt tr i := by
  unfold entryAt
  rw [List.getElem?_append_left hi]

theorem entryAt_snoc_new : entryAt (tr ++ [ev]) tr.length = ev.entry := by
  unfold entryAt
  rw [List.getElem?_concat_length]
  rfl

theorem lt_of_mem_arrivals (h : i ∈ arrivals tr side) : i < tr.length := by
  have := List.lt_add_of_mem_findIdxs i h
  omega

theorem side_of_mem_arrivals (h : i ∈ arrivals tr side) :
    ∃ e, tr[i]? = some e ∧ e.side = some side := by
  obtain ⟨e, he, hp⟩ := mem_findIdxs_get h
  exact ⟨e, he, beq_iff_eq.mp hp⟩

end

/-! ## What an event does to a ledger -/

section

variable {tr : List (Event μ)} {s t : EndpointState μ} {l : Ledger} {ev : Event μ} {side : Side}

theorem Met.snoc {i j : Nat} (h : Met tr i j) (ev : Event μ) : Met (tr ++ [ev]) i j := by
  obtain ⟨sender, msg, receiver, h⟩ := h
  refine ⟨sender, msg, receiver, ?_⟩
  rcases h with ⟨hlt, h1, h2⟩ | ⟨hlt, h1, h2⟩
  · exact .inl ⟨hlt, getElem?_snoc_old h1 ev, getElem?_snoc_old h2 ev⟩
  · exact .inr ⟨hlt, getElem?_snoc_old h1 ev, getElem?_snoc_old h2 ev⟩

namespace Accounts

variable {i : Nat}

section

variable (h : Accounts tr s l)

include h

theorem mem_arrivals (hi : i ∈ l.matched side ++ l.waiting side) :
    i ∈ arrivals tr side := by
  rw [← h.arrived side] at hi
  exact List.mem_of_mem_filter hi

/-- A call is matched or waits once, and not both. -/
theorem nodup (side : Side) : (l.matched side ++ l.waiting side).Nodup := by
  rw [← h.arrived side]
  exact List.nodup_findIdxs.filter _

theorem not_matched (hi : i ∈ l.waiting side) :
    i ∉ l.matched side := fun hc =>
  (List.nodup_append.mp (h.nodup side)).2.2 i hc i hi rfl

theorem waiting_lt (hi : i ∈ l.waiting side) : i < tr.length :=
  lt_of_mem_arrivals (h.mem_arrivals (List.mem_append_right _ hi))

/-- The call to come is not in the ledger. -/
theorem live_new : l.live tr.length = true := by
  unfold Ledger.live
  rw [Option.isNone_iff_eq_none]
  refine Option.eq_none_iff_forall_ne_some.mpr fun k hk => ?_
  obtain ⟨hlt, party, _, _, hcancel⟩ := h.cancelled _ _ hk
  have := (List.getElem?_eq_some_iff.mp hcancel).1
  omega

/-- The entry at the front of a queue belongs to the call that waits longest. -/
theorem front (side : Side) {e : PartyId × Option μ} {rest : List (PartyId × Option μ)}
    (hq : queue s side = e :: rest) :
    ∃ j js, l.waiting side = j :: js ∧ entryAt tr j = some e ∧
      rest.map some = js.map (entryAt tr) := by
  have queued := h.queued side
  rw [hq] at queued
  cases hw : l.waiting side with
  | nil => rw [hw] at queued; cases queued
  | cons j js =>
    rw [hw, List.map_cons, List.map_cons, List.cons.injEq] at queued
    exact ⟨j, js, rfl, queued.1.symm, queued.2⟩

theorem waiting_nil (hq : queue s side = []) : l.waiting side = [] := by
  have queued := h.queued side
  rw [hq] at queued
  exact List.map_eq_nil_iff.mp queued.symm

/-- A call that waits was told to. -/
theorem not_met {j : Nat} (hj : j ∈ l.waiting side) {e : Event μ} (he : tr[j]? = some e)
    (hside : e.side = some side) : e.met = false := by
  refine eq_false_of_ne_true fun hmet => ?_
  obtain ⟨k, _, hpair⟩ := h.told j e he hmet
  have away := h.not_matched hj
  rcases hpair with hpair | hpair
  · obtain ⟨sender, msg, receiver, hm⟩ := h.pairs _ _ hpair
    have hs : side = .sender := by
      rcases hm with ⟨_, h1, _⟩ | ⟨_, _, h1⟩
      · rw [he] at h1; cases h1; cases hside; rfl
      · rw [he] at h1; cases h1; cases hside; rfl
    subst hs
    exact away (List.mem_map.mpr ⟨_, hpair, rfl⟩)
  · obtain ⟨sender, msg, receiver, hm⟩ := h.pairs _ _ hpair
    have hs : side = .receiver := by
      rcases hm with ⟨_, _, h1⟩ | ⟨_, h1, _⟩
      · rw [he] at h1; cases h1; cases hside; rfl
      · rw [he] at h1; cases h1; cases hside; rfl
    subst hs
    exact away (List.mem_map.mpr ⟨_, hpair, rfl⟩)

end

end Accounts

/-- A pair with its parts on the two sides. -/
def Side.pair : Side → Nat → Nat → Nat × Nat
  | .sender, n, j => (n, j)
  | .receiver, n, j => (j, n)

/-- The call finds its partner waiting. -/
def Ledger.meet (l : Ledger) (side : Side) (n : Nat) (j : Nat) (rest : List Nat) : Ledger where
  pairs := l.pairs ++ [side.pair n j]
  waiting other := if other = side then l.waiting side else rest
  dropped := l.dropped

/-- The call waits. -/
def Ledger.wait (l : Ledger) (side : Side) (n : Nat) : Ledger :=
  { l with waiting := fun other => if other = side then l.waiting side ++ [n] else l.waiting other }

/-- A cancel removes the calls of its party that wait. -/
def Ledger.drop (l : Ledger) (gone : Nat → Bool) (n : Nat) : Ledger where
  pairs := l.pairs
  waiting side := (l.waiting side).filter fun i => !gone i
  dropped i := if (i ∈ l.waiting .sender ∨ i ∈ l.waiting .receiver) ∧
    gone i = true then some n else l.dropped i

theorem Ledger.matched_meet (l : Ledger) (side other : Side) (n j : Nat) (rest : List Nat) :
    (l.meet side n j rest).matched other = l.matched other ++ [if other = side then n else j] := by
  cases side with
  | sender | receiver =>
    cases other with
    | sender => simp [Ledger.meet, Ledger.matched, Side.pair]
    | receiver => simp [Ledger.meet, Ledger.matched, Side.pair]

namespace Accounts

variable {l' : Ledger} {j i : Nat} {e : PartyId × Option μ}

section

variable (h : Accounts tr s l)

include h

/-- What is noted of a cancel stays right when another party comes. -/
theorem cancels_snoc (hside : ev.side = some side)
    (hdropped : l'.dropped = l.dropped) (hpairs : ∀ p ∈ l.pairs, p ∈ l'.pairs) (k : Nat)
    (party : PartyId) (removed : Bool) (hk : (tr ++ [ev])[k]? = some (.cancel party removed)) :
    (removed = true ↔ ∃ i, l'.dropped i = some k) ∧
    ∀ i offer, i < k → entryAt (tr ++ [ev]) i = some (party, offer) →
      (∃ k', k' ≤ k ∧ l'.dropped i = some k') ∨ ∃ j, j < k ∧
        ((i, j) ∈ l'.pairs ∨ (j, i) ∈ l'.pairs) := by
  have old : tr[k]? = some (.cancel party removed) := by
    rcases getElem?_snoc_cases hk with old | ⟨_, rfl⟩
    · exact old
    · cases hside
  have hlt := (List.getElem?_eq_some_iff.mp old).1
  obtain ⟨h1, h2⟩ := h.cancels k party removed old
  rw [hdropped]
  refine ⟨h1, fun i offer hi he => ?_⟩
  rw [entryAt_snoc_old (by omega)] at he
  rcases h2 i offer hi he with hd | ⟨j, hj, hp⟩
  · exact .inl hd
  · exact .inr ⟨j, hj, hp.imp (hpairs _) (hpairs _)⟩

theorem cancelled_snoc (ev : Event μ) (i k : Nat) (hd : l.dropped i = some k) :
    i < k ∧ ∃ party offer, entryAt (tr ++ [ev]) i = some (party, offer) ∧
      (tr ++ [ev])[k]? = some (.cancel party true) := by
  obtain ⟨hlt, party, offer, hentry, hcancel⟩ := h.cancelled i k hd
  have := (List.getElem?_eq_some_iff.mp hcancel).1
  exact ⟨hlt, party,
    offer, by rw [entryAt_snoc_old (by omega)]; exact hentry, getElem?_snoc_old hcancel ev⟩

theorem told_snoc (hpairs : ∀ p ∈ l.pairs, p ∈ l'.pairs)
    (hnew : ev.met = true → ∃ j, j < tr.length ∧
      ((tr.length, j) ∈ l'.pairs ∨ (j, tr.length) ∈ l'.pairs)) (k : Nat) (e : Event μ)
    (hk : (tr ++ [ev])[k]? = some e) (hmet : e.met = true) :
    ∃ j, j < k ∧ ((k, j) ∈ l'.pairs ∨ (j, k) ∈ l'.pairs) := by
  rcases getElem?_snoc_cases hk with old | ⟨rfl, rfl⟩
  · obtain ⟨j, hj, hp⟩ := h.told k e old hmet
    exact ⟨j, hj, hp.imp (hpairs _) (hpairs _)⟩
  · exact hnew hmet

/-- The old entries of a queue are those of the calls that wait. -/
theorem entries_snoc (side : Side) (ev : Event μ) :
    (l.waiting side).map (entryAt (tr ++ [ev])) = (l.waiting side).map (entryAt tr) :=
  List.map_congr_left fun _ hi => entryAt_snoc_old (h.waiting_lt hi)

theorem meet (side : Side) (hside : ev.side = some side) (hown : l.waiting side = [])
    {js : List Nat} (hwait : l.waiting side.other = j :: js)
    (hmet : Met (tr ++ [ev]) (side.pair tr.length j).1 (side.pair tr.length j).2)
    (hqown : queue t side = []) (hqother : (queue t side.other).map some = js.map (entryAt tr)) :
    Accounts (tr ++ [ev]) t (l.meet side tr.length j js) := by
  have waits : ∀ i ∈ j :: js, i < tr.length := fun i hi => by
    rw [← hwait] at hi
    exact h.waiting_lt hi
  have hj : j < tr.length := waits j List.mem_cons_self
  have pairs_sub : ∀ p ∈ l.pairs, p ∈ (l.meet side tr.length j js).pairs :=
    fun p hp => List.mem_append_left _ hp
  have pair_mem : side.pair tr.length j ∈ (l.meet side tr.length j js).pairs :=
    List.mem_append_right _ (List.mem_singleton.mpr rfl)
  constructor
  case arrived =>
    intro o
    have live : (l.meet side tr.length j js).live = l.live := rfl
    rw [live, arrivals_snoc, List.filter_append, h.arrived o, Ledger.matched_meet]
    by_cases ho : o = side
    · subst ho
      rw [if_pos hside, if_pos rfl, hown, List.filter_cons_of_pos h.live_new]
      simp [Ledger.meet, hown]
    · have hne : ¬ ev.side = some o := fun hc => ho (Option.some.inj (hc.symm.trans hside))
      rw [if_neg hne, if_neg ho, Side.eq_other ho, hwait]
      have rest : (l.meet side tr.length j js).waiting side.other = js :=
        if_neg (by rw [← Side.eq_other ho]; exact ho)
      rw [rest]
      simp
  case oneSide => exact ⟨side, (if_pos rfl).trans hown⟩
  case queued =>
    intro o
    by_cases ho : o = side
    · subst ho
      rw [hqown]
      show _ = List.map _ (if o = o then l.waiting o else js)
      rw [if_pos rfl, hown]
      rfl
    · have rest : (l.meet side tr.length j js).waiting o = js := if_neg ho
      rw [rest, Side.eq_other ho, hqother]
      refine (List.map_congr_left fun i hi => entryAt_snoc_old ?_).symm
      exact waits i (List.mem_cons_of_mem _ hi)
  case pairs =>
    intro a b hab
    rcases List.mem_append.mp hab with hab | hab
    · exact (h.pairs a b hab).snoc ev
    · rw [← List.mem_singleton.mp hab] at hmet
      exact hmet
  case told =>
    refine h.told_snoc pairs_sub fun _ => ⟨j, hj, ?_⟩
    cases side with
    | sender => exact .inl pair_mem
    | receiver => exact .inr pair_mem
  case cancelled => exact h.cancelled_snoc ev
  case cancels => exact h.cancels_snoc hside rfl pairs_sub

theorem wait (side : Side) (hside : ev.side = some side) (hmet : ev.met = false)
    (hother : l.waiting side.other = []) (hentry : ev.entry = some e)
    (hqown : queue t side = queue s side ++ [e]) (hqother : queue t side.other =
    queue s side.other) : Accounts (tr ++ [ev]) t (l.wait side tr.length) := by
  have waiting_other : ∀ {o : Side}, o ≠ side → (l.wait side tr.length).waiting o = l.waiting o :=
    fun ho => if_neg ho
  have waiting_own : (l.wait side tr.length).waiting side = l.waiting side ++ [tr.length] :=
    if_pos rfl
  have other_ne : side.other ≠ side := by
    cases side with
    | sender => decide
    | receiver => decide
  have queue_other : ∀ {o : Side}, o ≠ side → queue t o = queue s o := fun ho => by
    rw [Side.eq_other ho]
    exact hqother
  constructor
  case arrived =>
    intro o
    have live : (l.wait side tr.length).live = l.live := rfl
    have matched : (l.wait side tr.length).matched o = l.matched o := by cases o <;> rfl
    rw [live, arrivals_snoc, List.filter_append, h.arrived o, matched]
    by_cases ho : o = side
    · subst ho
      rw [if_pos hside, List.filter_cons_of_pos h.live_new, waiting_own]
      simp
    · have hne : ¬ ev.side = some o := fun hc => ho (Option.some.inj (hc.symm.trans hside))
      rw [if_neg hne, waiting_other ho]
      simp
  case oneSide => exact ⟨side.other, (waiting_other other_ne).trans hother⟩
  case queued =>
    intro o
    by_cases ho : o = side
    · subst ho
      rw [waiting_own, hqown, List.map_append, List.map_append, h.entries_snoc, h.queued]
      rw [List.map_singleton, List.map_singleton, entryAt_snoc_new, hentry]
    · rw [waiting_other ho, queue_other ho, h.entries_snoc, h.queued]
  case pairs => exact fun i j hij => (h.pairs i j hij).snoc ev
  case told =>
    refine h.told_snoc (fun _ hp => hp) fun hc => ?_
    rw [hmet] at hc
    cases hc
  case cancelled => exact h.cancelled_snoc ev
  case cancels => exact h.cancels_snoc hside rfl fun _ hp => hp

end

/-- The calls of `party`. -/
def goneFor (tr : List (Event μ)) (party : PartyId) (i : Nat) : Bool :=
  (entryAt tr i).any fun e => e.1 == party

theorem goneFor_iff (tr : List (Event μ)) (party : PartyId) (i : Nat) :
    goneFor tr party i = true ↔ ∃ offer, entryAt tr i = some (party, offer) := by
  unfold goneFor
  cases entryAt tr i with
  | none => simp
  | some e =>
    obtain ⟨q, offer⟩ := e
    simp

theorem entry_arrived (h : entryAt tr i = some e) : ∃ side, i ∈ arrivals tr side := by
  obtain ⟨ev, hev, hentry⟩ := Option.bind_eq_some_iff.mp h
  obtain ⟨hi, rfl⟩ := List.getElem?_eq_some_iff.mp hev
  have found : ∀ side, tr[i].side = some side → i ∈ arrivals tr side := fun side hside =>
    (List.mem_findIdxs_iff_pos_getElem hi).mpr (by simp [hside])
  cases hc : tr[i] with
  | send sender msg out => exact ⟨.sender, found _ (by rw [hc]; rfl)⟩
  | recv receiver out => exact ⟨.receiver, found _ (by rw [hc]; rfl)⟩
  | cancel party removed => rw [hc] at hentry; cases hentry

/-- Both calls of a pair were made. -/
theorem Met.lt (h : Met tr i j) : i < tr.length ∧ j < tr.length := by
  obtain ⟨sender, msg, receiver, h⟩ := h
  rcases h with ⟨_, h1, h2⟩ | ⟨_, h1, h2⟩
  · exact ⟨(List.getElem?_eq_some_iff.mp h1).1, (List.getElem?_eq_some_iff.mp h2).1⟩
  · exact ⟨(List.getElem?_eq_some_iff.mp h2).1, (List.getElem?_eq_some_iff.mp h1).1⟩

/-- What a cancel leaves in a queue. -/
theorem queue_cancel (s : EndpointState μ) (party : PartyId) (side : Side) :
    queue (s.cancel party).2 side = (queue s side).filter fun e => e.1 != party := by
  cases side with
  | sender =>
    show List.map _ (List.filter _ s.senders) = List.filter _ (List.map _ s.senders)
    rw [List.filter_map]
    rfl
  | receiver =>
    show List.map _ (List.filter _ s.receivers) = List.filter _ (List.map _ s.receivers)
    rw [List.filter_map]
    rfl

section

variable (h : Accounts tr s l)

include h

/-- A call is on one side. -/
theorem waiting_side (hi : i ∈ arrivals tr side) :
    i ∈ l.waiting .sender ∨ i ∈ l.waiting .receiver ↔ i ∈ l.waiting side := by
  have only : ∀ o, i ∈ l.waiting o → i ∈ l.waiting side := fun o ho => by
    obtain ⟨e, he, hside⟩ := side_of_mem_arrivals hi
    obtain ⟨e', he', hside'⟩ := side_of_mem_arrivals (h.mem_arrivals (List.mem_append_right _ ho))
    rw [he] at he'
    cases he'
    rw [hside] at hside'
    cases hside'
    exact ho
  constructor
  · rintro (ho | ho)
    · exact only _ ho
    · exact only _ ho
  · intro hw
    cases side with
    | sender => exact .inl hw
    | receiver => exact .inr hw

theorem arrived_drop (gone : Nat → Bool) (n : Nat) (side : Side) :
    (arrivals tr side).filter (l.drop gone n).live = l.matched side ++ (l.waiting side).filter
      fun i => !gone i := by
  have live : ∀ i ∈ arrivals tr side, (l.drop gone n).live i =
      (!(decide (i ∈ l.waiting side) && gone i) && l.live i) := by
    intro i hi
    unfold Ledger.live Ledger.drop
    dsimp only
    simp only [h.waiting_side hi]
    by_cases hw : i ∈ l.waiting side
    · cases hg : gone i with
      | true => simp [hw]
      | false => simp [hw]
    · simp [hw]
  rw [List.filter_congr live, ← List.filter_filter, h.arrived side, List.filter_append]
  congr 1
  · refine List.filter_eq_self.mpr fun i hi => ?_
    have hw : i ∉ l.waiting side := fun hc => h.not_matched hc hi
    simp [hw]
  · refine List.filter_congr fun i hi => ?_
    simp [hi]

theorem matched_pair (hi : i ∈ l.matched side) :
    ∃ j, j < tr.length ∧ ((i, j) ∈ l.pairs ∨ (j, i) ∈ l.pairs) := by
  cases side with
  | sender =>
    obtain ⟨⟨a, b⟩, hp, rfl⟩ := List.mem_map.mp hi
    exact ⟨b, (Met.lt (h.pairs a b hp)).2, .inl hp⟩
  | receiver =>
    obtain ⟨⟨a, b⟩, hp, rfl⟩ := List.mem_map.mp hi
    exact ⟨a, (Met.lt (h.pairs a b hp)).1, .inr hp⟩

/-- The queues after a cancel are those of the calls that still wait. -/
theorem queued_drop (party : PartyId) (side : Side) :
    (queue (s.cancel party).2 side).map some =
      ((l.waiting side).filter fun i => !goneFor tr party i).map (entryAt tr) := by
  have kept : ∀ q : List (PartyId × Option μ), (q.filter fun e => e.1 != party).map some =
      (q.map some).filter fun o => !o.any fun e => e.1 == party := fun q => by
    rw [List.filter_map]
    rfl
  rw [queue_cancel, kept, h.queued side, List.filter_map]
  rfl

/-- A cancel reports whether one of its party waited. -/
theorem removed_iff (party : PartyId) :
    (s.cancel party).1 = true ↔ ∃ side, ∃ i ∈ l.waiting side, goneFor tr party i = true := by
  have length : ∀ side, (queue s side).length = (l.waiting side).length := fun side => by
    simpa using congrArg List.length (h.queued side)
  have kept : ∀ side, (queue (s.cancel party).2 side).length =
      ((l.waiting side).filter fun i => !goneFor tr party i).length := fun side => by
    simpa using congrArg List.length (h.queued_drop party side)
  have some_gone : ∀ side, ((l.waiting side).filter fun i => !goneFor tr party i).length <
    (l.waiting side).length ↔ ∃ i ∈ l.waiting side, goneFor tr party i = true := fun side => by
    rw [List.length_filter_lt_length_iff_exists]
    simp
  have le : ∀ side, ((l.waiting side).filter fun i => !goneFor tr party i).length ≤
    (l.waiting side).length := fun side => List.length_filter_le ..
  have senders : s.senders.length = (queue s .sender).length := (List.length_map ..).symm
  have receivers : s.receivers.length = (queue s .receiver).length := (List.length_map ..).symm
  have senders' : (s.cancel party).2.senders.length = (queue (s.cancel party).2 .sender).length :=
    (List.length_map ..).symm
  have receivers' : (s.cancel party).2.receivers.length =
    (queue (s.cancel party).2 .receiver).length := (List.length_map ..).symm
  have report : (s.cancel party).1 = true ↔ s.senders.length + s.receivers.length ≠
      (s.cancel party).2.senders.length + (s.cancel party).2.receivers.length := bne_iff_ne
  rw [report, senders, receivers, senders', receivers', kept, kept, length, length]
  have h1 := le .sender
  have h2 := le .receiver
  constructor
  · intro hne
    by_cases hs : ((l.waiting .sender).filter fun i => !goneFor tr party i).length <
      (l.waiting .sender).length
    · exact ⟨.sender, (some_gone _).mp hs⟩
    · exact ⟨.receiver, (some_gone _).mp (by omega)⟩
  · rintro ⟨side, hgone⟩
    have lt := (some_gone side).mpr hgone
    cases side with
    | sender => omega
    | receiver => omega

/-- The cancel that removed a call was made after it. -/
theorem dropped_lt {k : Nat} (hd : l.dropped i = some k) : k < tr.length := by
  obtain ⟨_, _, _, _, hcancel⟩ := h.cancelled i k hd
  exact (List.getElem?_eq_some_iff.mp hcancel).1

theorem waiting_live (hw : i ∈ l.waiting side) : l.dropped i = none := by
  have kept : i ∈ (arrivals tr side).filter l.live := by
    rw [h.arrived side]
    exact List.mem_append_right _ hw
  exact Option.isNone_iff_eq_none.mp (List.mem_filter.mp kept).2

/-- A call that was made met, waits, or was cancelled. -/
theorem fate (hi : i ∈ arrivals tr side) :
    (∃ k, k < tr.length ∧ l.dropped i = some k) ∨ i ∈ l.matched side ∨ i ∈ l.waiting side := by
  cases hd : l.dropped i with
  | some k => exact .inl ⟨k, h.dropped_lt hd, rfl⟩
  | none =>
    have kept : i ∈ (arrivals tr side).filter l.live :=
      List.mem_filter.mpr ⟨hi, by rw [Ledger.live, hd]; rfl⟩
    rw [h.arrived side] at kept
    exact .inr (List.mem_append.mp kept)

end

end Accounts

theorem Ledger.dropped_drop (l : Ledger) (gone : Nat → Bool) (n i : Nat) :
    ((∃ side, i ∈ l.waiting side) ∧ gone i = true ∧ (l.drop gone n).dropped i = some n) ∨
    (¬ ((∃ side, i ∈ l.waiting side) ∧ gone i = true) ∧ (l.drop gone n).dropped i = l.dropped i) :=
      by
  have waits : (i ∈ l.waiting .sender ∨ i ∈ l.waiting .receiver) ↔ ∃ side, i ∈ l.waiting side := by
    constructor
    · rintro (hi | hi)
      · exact ⟨_, hi⟩
      · exact ⟨_, hi⟩
    · rintro ⟨side, hi⟩
      cases side with
      | sender => exact .inl hi
      | receiver => exact .inr hi
  rw [← waits]
  by_cases hc : (i ∈ l.waiting .sender ∨ i ∈ l.waiting .receiver) ∧ gone i = true
  · exact .inl ⟨hc.1, hc.2, if_pos hc⟩
  · exact .inr ⟨hc, if_neg hc⟩

namespace Accounts

variable {i k j : Nat} {e : PartyId × Option μ}

/-- A cancel leaves what earlier cancels removed. -/
theorem dropped_old (h : Accounts tr s l) (gone : Nat → Bool) (hd : l.dropped i = some k) :
    (l.drop gone tr.length).dropped i = some k := by
  rcases l.dropped_drop gone tr.length i with ⟨⟨side, hw⟩, _⟩ | ⟨_, heq⟩
  · rw [h.waiting_live hw] at hd
    cases hd
  · exact heq.trans hd

theorem dropped_new (h : Accounts tr s l) (gone : Nat → Bool) (i : Nat) :
    (l.drop gone tr.length).dropped i = some tr.length ↔ ∃ side, i ∈ l.waiting side ∧
      gone i = true := by
  rcases l.dropped_drop gone tr.length i with ⟨⟨side, hw⟩, hg, heq⟩ | ⟨hn, heq⟩
  · exact ⟨fun _ => ⟨side, hw, hg⟩, fun _ => heq⟩
  · rw [heq]
    constructor
    · intro hd
      exact absurd (h.dropped_lt hd) (Nat.lt_irrefl _)
    · rintro ⟨side, hw, hg⟩
      exact absurd ⟨⟨side, hw⟩, hg⟩ hn

theorem dropped_cases (tr : List (Event μ)) (gone : Nat → Bool)
    (hd : (l.drop gone tr.length).dropped i = some k) :
    l.dropped i = some k ∨ (k = tr.length ∧ ∃ side, i ∈ l.waiting side ∧ gone i = true) := by
  rcases l.dropped_drop gone tr.length i with ⟨⟨side, hw⟩, hg, heq⟩ | ⟨_, heq⟩
  · exact .inr ⟨Option.some.inj (hd.symm.trans heq), side, hw, hg⟩
  · exact .inl (heq.symm.trans hd)

/-- What is noted of the cancels, the new one included. -/
theorem cancels_drop (h : Accounts tr s l) (party : PartyId) (k : Nat) (p : PartyId)
    (removed : Bool)
    (hk : (tr ++ [.cancel party (s.cancel party).1])[k]? = some (.cancel p removed)) :
    (removed = true ↔ ∃ i, (l.drop (goneFor tr party) tr.length).dropped i = some k) ∧
    ∀ i offer, i < k → entryAt (tr ++ [.cancel party (s.cancel party).1]) i = some (p, offer) →
      (∃ k', k' ≤ k ∧ (l.drop (goneFor tr party) tr.length).dropped i = some k') ∨
      ∃ j, j < k ∧ ((i, j) ∈ l.pairs ∨ (j, i) ∈ l.pairs) := by
  rcases getElem?_snoc_cases hk with old | ⟨rfl, heq⟩
  · have hlt := (List.getElem?_eq_some_iff.mp old).1
    obtain ⟨h1, h2⟩ := h.cancels k p removed old
    constructor
    · rw [h1]
      exact (exists_mark_old (fun _ _ => h.dropped_old _) (fun _ _ hd =>
        (dropped_cases tr _ hd).imp_right And.left) (Nat.ne_of_lt hlt)).symm
    · intro i offer hi he
      rw [entryAt_snoc_old (by omega)] at he
      rcases h2 i offer hi he with ⟨k', hk', hd⟩ | hp
      · exact .inl ⟨k', hk', h.dropped_old _ hd⟩
      · exact .inr hp
  · cases heq
    constructor
    · rw [h.removed_iff party]
      constructor
      · rintro ⟨side, i, hw, hgone⟩
        exact ⟨i, (h.dropped_new _ i).mpr ⟨side, hw, hgone⟩⟩
      · rintro ⟨i, hd⟩
        obtain ⟨side, hw, hgone⟩ := (h.dropped_new _ i).mp hd
        exact ⟨side, i, hw, hgone⟩
    · intro i offer hi he
      rw [entryAt_snoc_old hi] at he
      obtain ⟨side, harr⟩ := entry_arrived he
      rcases h.fate harr with ⟨k, hlt, hd⟩ | hm | hw
      · exact .inl ⟨k, Nat.le_of_lt hlt, h.dropped_old _ hd⟩
      · exact .inr (h.matched_pair hm)
      · have hgone := (goneFor_iff tr party i).mpr ⟨offer, he⟩
        exact .inl ⟨tr.length, Nat.le_refl _, (h.dropped_new _ i).mpr ⟨side, hw, hgone⟩⟩

theorem drop (h : Accounts tr s l) (party : PartyId) :
    Accounts (tr ++ [.cancel party (s.cancel party).1]) (s.cancel party).2
      (l.drop (goneFor tr party) tr.length) := by
  constructor
  case arrived =>
    intro side
    rw [arrivals_snoc, if_neg (by simp [Event.side]), List.append_nil, h.arrived_drop]
    cases side with
    | sender => rfl
    | receiver => rfl
  case oneSide =>
    obtain ⟨side, hside⟩ := h.oneSide
    refine ⟨side, ?_⟩
    show List.filter _ (l.waiting side) = []
    rw [hside]
    rfl
  case queued =>
    intro side
    rw [h.queued_drop]
    refine (List.map_congr_left fun i hi => entryAt_snoc_old ?_).symm
    exact h.waiting_lt (List.mem_of_mem_filter hi)
  case pairs => exact fun i j hij => (h.pairs i j hij).snoc _
  case told => exact h.told_snoc (fun _ hp => hp) fun hc => by cases hc
  case cancelled =>
    intro i k hd
    rcases dropped_cases tr _ hd with hd | ⟨rfl, side, hw, hgone⟩
    · exact h.cancelled_snoc _ i k hd
    · have hi := h.waiting_lt hw
      obtain ⟨offer, hentry⟩ := (goneFor_iff tr party i).mp hgone
      refine ⟨hi, party, offer, by rw [entryAt_snoc_old hi]; exact hentry, ?_⟩
      rw [List.getElem?_concat_length, (h.removed_iff party).mpr ⟨side, i, hw, hgone⟩]
  case cancels => exact h.cancels_drop party

/-! ## Runs -/

theorem init :
    Accounts [] (EndpointState.new : EndpointState μ) ⟨[], fun _ => [], fun _ => none⟩ := by
  constructor
  case arrived => intro side; cases side <;> rfl
  case oneSide => exact ⟨.sender, rfl⟩
  case queued => intro side; cases side <;> rfl
  case pairs => intro i j hij; cases hij
  case told => intro k ev hk; cases hk
  case cancelled => intro i k hd; cases hd
  case cancels => intro k party removed hk; cases hk

section

variable (h : Accounts tr s l)

include h

/-- A call that waits was told so; its entry gives the call. -/
theorem waiting_send (hj : j ∈ l.waiting .sender) (he : entryAt tr j = some e) :
    ∃ msg, e = (e.1, some msg) ∧ tr[j]? = some (.send e.1 msg .queued) := by
  obtain ⟨ev, hev, hside⟩ := side_of_mem_arrivals (h.mem_arrivals (List.mem_append_right _ hj))
  have unmet := h.not_met hj hev hside
  rw [entryAt, hev] at he
  cases ev with
  | send sender msg out =>
    cases he
    cases out with
    | delivered receiver m => cases unmet
    | queued => exact ⟨msg, rfl, hev⟩
  | recv receiver out => cases hside
  | cancel party removed => cases hside

theorem waiting_recv (hj : j ∈ l.waiting .receiver)
    (he : entryAt tr j = some e) : tr[j]? = some (.recv e.1 .queued) := by
  obtain ⟨ev, hev, hside⟩ := side_of_mem_arrivals (h.mem_arrivals (List.mem_append_right _ hj))
  have unmet := h.not_met hj hev hside
  rw [entryAt, hev] at he
  cases ev with
  | send sender msg out => cases hside
  | recv receiver out =>
    cases he
    cases out with
    | received sender m => cases unmet
    | queued => exact hev
  | cancel party removed => cases hside

/-- The other side of one that has a call waiting. -/
theorem other_nil {js : List Nat} (hw : l.waiting side.other = j :: js) :
    l.waiting side = [] := by
  obtain ⟨o, ho⟩ := h.oneSide
  by_cases hc : o = side
  · rw [← hc]
    exact ho
  · rw [← Side.eq_other hc, ho] at hw
    cases hw

theorem queue_nil (hw : l.waiting side = []) : queue s side = [] := by
  have queued := h.queued side
  rw [hw] at queued
  exact List.map_eq_nil_iff.mp queued

theorem send (sender : PartyId) (msg : μ) :
    ∃ l', Accounts (tr ++ [.send sender msg (s.send sender msg).1]) (s.send sender msg).2 l' := by
  obtain ⟨senders, receivers⟩ := s
  cases receivers with
  | nil =>
    refine ⟨_, h.wait .sender rfl rfl (h.waiting_nil rfl) rfl ?_ rfl⟩
    exact List.map_append
  | cons receiver rest =>
    obtain ⟨j, js, hw, he, hrest⟩ := h.front .receiver rfl
    have hj : j ∈ l.waiting .receiver := by
      rw [hw]
      exact List.mem_cons_self
    have own : l.waiting .sender = [] := h.other_nil hw
    have waited :=
      getElem?_snoc_old (h.waiting_recv hj he) (.send sender msg (.delivered receiver msg))
    refine ⟨_, h.meet .sender rfl own hw ⟨sender, msg, receiver, .inr ⟨h.waiting_lt hj, waited, ?_⟩⟩
      (h.queue_nil own) hrest⟩
    exact List.getElem?_concat_length ..

theorem recv (receiver : PartyId) :
    ∃ l', Accounts (tr ++ [.recv receiver (s.recv receiver).1]) (s.recv receiver).2 l' := by
  obtain ⟨senders, receivers⟩ := s
  cases senders with
  | nil =>
    refine ⟨_, h.wait .receiver rfl rfl (h.waiting_nil rfl) rfl ?_ rfl⟩
    exact List.map_append
  | cons w rest =>
    obtain ⟨j, js, hw, he, hrest⟩ := h.front .sender rfl
    have hj : j ∈ l.waiting .sender := by
      rw [hw]
      exact List.mem_cons_self
    have own : l.waiting .receiver = [] := h.other_nil hw
    obtain ⟨msg, heq, hsent⟩ := h.waiting_send hj he
    cases heq
    have waited := getElem?_snoc_old hsent (.recv receiver (.received w.party w.msg))
    refine ⟨_, h.meet .receiver rfl own hw ⟨w.party, w.msg, receiver,
      .inl ⟨h.waiting_lt hj, waited, ?_⟩⟩ (h.queue_nil own) hrest⟩
    exact List.getElem?_concat_length ..

theorem step (hstep : Step s ev t) : ∃ l', Accounts (tr ++ [ev]) t l' := by
  cases ev with
  | send sender msg out =>
    have := h.send sender msg
    rw [show s.send sender msg = (out, t) from hstep] at this
    exact this
  | recv receiver out =>
    have := h.recv receiver
    rw [show s.recv receiver = (out, t) from hstep] at this
    exact this
  | cancel party removed =>
    have := h.drop party
    rw [show s.cancel party = (removed, t) from hstep] at this
    exact ⟨_, this⟩

end

end Accounts

end

/-- **Rendezvous.**  Sends and receives meet first come, first served; each meets at most once and
hands over its own message and identity; what did not meet and was not cancelled waits. -/
theorem endpoint_accounts {tr : List (Event μ)} {s : EndpointState μ} (h : Run Step .new tr s) :
    (s.senders = [] ∨ s.receivers = []) ∧
    ∃ l, Accounts tr s l ∧ (l.pairs.map Prod.fst).Nodup ∧ (l.pairs.map Prod.snd).Nodup := by
  obtain ⟨l, acc⟩ := h.inv_trace (I := fun tr s => ∃ l, Accounts tr s l) ⟨_, Accounts.init⟩
    fun _ _ _ _ ⟨_, acc⟩ hstep => acc.step hstep
  refine ⟨?_, l, acc, (List.nodup_append.mp (acc.nodup .sender)).1,
    (List.nodup_append.mp (acc.nodup .receiver)).1⟩
  obtain ⟨side, hside⟩ := acc.oneSide
  have nil := acc.queue_nil hside
  cases side with
  | sender => exact .inl (List.map_eq_nil_iff.mp nil)
  | receiver => exact .inr (List.map_eq_nil_iff.mp nil)

/-- A cancelled sender is passed over. -/
theorem endpoint_accounts_cancelled :
    (([] : List (SendWaiter Bool)) = [] ∨ ([4] : List PartyId) = []) ∧
    ∃ l, Accounts [.send 1 true .queued, .send 2 false .queued, .cancel 1 true,
      .recv 3 (.received 2 false), .recv 4 .queued]
      ⟨[], [4]⟩ l ∧ (l.pairs.map Prod.fst).Nodup ∧ (l.pairs.map Prod.snd).Nodup := by
  refine endpoint_accounts (s := ⟨[], [4]⟩) ?_
  refine .cons (t := ⟨[⟨1, true⟩], []⟩) (by exact rfl) ?_
  refine .cons (t := ⟨[⟨1, true⟩, ⟨2, false⟩], []⟩) (by exact rfl) ?_
  refine .cons (t := ⟨[⟨2, false⟩], []⟩) (by exact rfl) ?_
  refine .cons (t := ⟨[], []⟩) (by exact rfl) ?_
  exact .cons (t := ⟨[], [4]⟩) (by exact rfl) (.nil _)

end Endpoint

end Praesidium
