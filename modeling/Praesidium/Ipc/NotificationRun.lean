import Praesidium.Ipc.Notification

/-!
What becomes of the signals and the waits of a notification, over whole histories.

A history holds the calls with what they returned.  Waits that were queued are followed by
their position: a `Ledger` says which signal woke a wait, which cancel removed it, and which
waits are still queued.  `Accounts` says when it is right: the waits that were not cancelled were
woken in their order, and the rest of them is the queue.

The latch is a matter of counting.  A signal wakes a waiter, is latched, or finds the bit set; a
latched one is taken by a wait or still there:

    completed + merged + pending = signals        (Latch.counted)
-/

namespace Praesidium

namespace Notification

/-! ## Histories -/

/-- A call and what it returned; a signal with the `pending` bit it found. -/
inductive Event where
  | signal (found : Bool) (out : SignalOutcome)
  | wait (party : PartyId) (out : WaitOutcome)
  | cancel (party : PartyId) (removed : Bool)
  deriving DecidableEq, Repr

def Step (n : NotificationState) : Event → NotificationState → Prop
  | .signal found out, t => n.pending = found ∧ n.signal = (out, t)
  | .wait party out, t => n.wait party = (out, t)
  | .cancel party removed, t => n.cancel party = (removed, t)

namespace Event

def isSignal : Event → Bool
  | .signal .. => true
  | _ => false

/-- The signal found `pending` already set. -/
def merges : Event → Bool
  | .signal found _ => found
  | _ => false

/-- The signal woke a waiter. -/
def wakes : Event → Bool
  | .signal _ (.woke _) => true
  | _ => false

def latches : Event → Bool
  | .signal _ .latched => true
  | _ => false

/-- The wait took a latched signal. -/
def takes : Event → Bool
  | .wait _ .ready => true
  | _ => false

def queues : Event → Bool
  | .wait _ .queued => true
  | _ => false

def party : Event → Option PartyId
  | .wait party _ => some party
  | _ => none

end Event

def signals (tr : List Event) : Nat := tr.countP Event.isSignal

def merged (tr : List Event) : Nat := tr.countP Event.merges

/-- The waits that ended: woken, or ready at once. -/
def completed (tr : List Event) : Nat := tr.countP fun ev => ev.wakes || ev.takes

/-- The positions of the waits that were queued. -/
def queuedWaits (tr : List Event) : List Nat := tr.findIdxs Event.queues

/-- The positions of the signals that woke a waiter. -/
def wakingSignals (tr : List Event) : List Nat := tr.findIdxs Event.wakes

def latchedAt (tr : List Event) (i : Nat) : Bool := tr[i]?.any Event.latches

def takenAt (tr : List Event) (i : Nat) : Bool := tr[i]?.any Event.takes

def partyAt (tr : List Event) (i : Nat) : Option PartyId := tr[i]?.bind Event.party

/-! ## Ledgers -/

/-- What became of the queued waits: `woken`, with the signal; `waiting` still; `dropped` gives the
cancel that removed a wait. -/
structure Ledger where
  woken : List (Nat × Nat)
  waiting : List Nat
  dropped : Nat → Option Nat

def Ledger.live (l : Ledger) (i : Nat) : Bool := (l.dropped i).isNone

/-- The ledger is right for the history `tr` that led to `n`. -/
structure Accounts (tr : List Event) (n : NotificationState) (l : Ledger) : Prop where
  /-- what was not cancelled was woken in order, the rest waits in order -/
  queued : (queuedWaits tr).filter l.live = l.woken.map Prod.fst ++ l.waiting
  waiters : n.waiters.map some = l.waiting.map (partyAt tr)
  /-- one wait for each signal that woke a waiter -/
  wakings : l.woken.map Prod.snd = wakingSignals tr
  woken : ∀ i k, (i, k) ∈ l.woken → i < k ∧ ∃ party found,
    tr[i]? = some (.wait party .queued) ∧ tr[k]? = some (.signal found (.woke party))
  /-- a wait is cancelled while it is queued: no younger one was woken before -/
  cancelled : ∀ i k, l.dropped i = some k → i < k ∧
    (∃ party, tr[i]? = some (.wait party .queued) ∧ tr[k]? = some (.cancel party true)) ∧
    ∀ j s, (j, s) ∈ l.woken → s < k → j < i
  /-- a cancel removes every wait of its party that was neither woken nor cancelled before -/
  cancels : ∀ k party removed, tr[k]? = some (.cancel party removed) →
    (removed = true ↔ ∃ i, l.dropped i = some k) ∧
    ∀ i, i < k → tr[i]? = some (.wait party .queued) →
      (∃ k', k' ≤ k ∧ l.dropped i = some k') ∨ ∃ j, j < k ∧ (i, j) ∈ l.woken

section

variable {tr : List Event} {n t : NotificationState} {l : Ledger} {ev : Event}

/-! ## Positions -/

variable {i : Nat}

theorem partyAt_snoc_old (hi : i < tr.length) : partyAt (tr ++ [ev]) i = partyAt tr i := by
  unfold partyAt
  rw [List.getElem?_append_left hi]

theorem partyAt_snoc_new : partyAt (tr ++ [ev]) tr.length = ev.party := by
  unfold partyAt
  rw [List.getElem?_concat_length]
  rfl

/-- A wait that was queued, from its position and its party. -/
theorem queuedWait_at (hi : i ∈ queuedWaits tr) {party : PartyId} (hp : partyAt tr i = some party) :
    tr[i]? = some (.wait party .queued) := by
  obtain ⟨e, he, hq⟩ := mem_findIdxs_get hi
  rw [partyAt, he] at hp
  cases e with
  | wait q out =>
    cases hp
    cases out with
    | ready => cases hq
    | queued => exact he
  | signal found out => cases hp
  | cancel q removed => cases hp

theorem mem_queuedWaits {party : PartyId} (h : tr[i]? = some (.wait party .queued)) :
    i ∈ queuedWaits tr := by
  obtain ⟨hi, he⟩ := List.getElem?_eq_some_iff.mp h
  refine (List.mem_findIdxs_iff_pos_getElem hi).mpr ?_
  rw [he]
  rfl

theorem partyAt_wait {party : PartyId} {out : WaitOutcome} (h : tr[i]? = some (.wait party out)) :
    partyAt tr i = some party := by
  rw [partyAt, h]
  rfl

namespace Accounts

variable {i : Nat}

section

variable (h : Accounts tr n l)

include h

theorem mem_queuedWaits (hi : i ∈ l.waiting) : i ∈ queuedWaits tr := by
  have kept : i ∈ (queuedWaits tr).filter l.live := by
    rw [h.queued]
    exact List.mem_append_right _ hi
  exact List.mem_of_mem_filter kept

theorem waiting_lt (hi : i ∈ l.waiting) : i < tr.length := by
  obtain ⟨_, he, _⟩ := mem_findIdxs_get (h.mem_queuedWaits hi)
  exact (List.getElem?_eq_some_iff.mp he).1

theorem waiting_live (hi : i ∈ l.waiting) : l.dropped i = none := by
  have kept : i ∈ (queuedWaits tr).filter l.live := by
    rw [h.queued]
    exact List.mem_append_right _ hi
  exact Option.isNone_iff_eq_none.mp (List.mem_filter.mp kept).2

theorem sorted : (l.woken.map Prod.fst ++ l.waiting).Pairwise (· < ·) := by
  rw [← h.queued]
  exact List.pairwise_findIdxs.filter _

/-- What was woken is older than what waits. -/
theorem woken_lt {j s : Nat} (hj : (j, s) ∈ l.woken) (hi : i ∈ l.waiting) :
    j < i :=
  (List.pairwise_append.mp h.sorted).2.2 j (List.mem_map.mpr ⟨_, hj, rfl⟩) i hi

theorem dropped_lt {k : Nat} (hd : l.dropped i = some k) : k < tr.length := by
  obtain ⟨_, ⟨_, _, hcancel⟩, _⟩ := h.cancelled i k hd
  exact (List.getElem?_eq_some_iff.mp hcancel).1

/-- The wait to come is not in the ledger. -/
theorem live_new : l.live tr.length = true := by
  refine Option.isNone_iff_eq_none.mpr (Option.eq_none_iff_forall_ne_some.mpr fun k hk => ?_)
  have later := (h.cancelled _ _ hk).1
  have made := h.dropped_lt hk
  omega

/-- A wait that was queued was cancelled, was woken, or waits. -/
theorem fate (hi : i ∈ queuedWaits tr) :
    (∃ k, k < tr.length ∧ l.dropped i = some k) ∨ (∃ j, j < tr.length ∧ (i, j) ∈ l.woken) ∨
      i ∈ l.waiting := by
  cases hd : l.dropped i with
  | some k => exact .inl ⟨k, h.dropped_lt hd, rfl⟩
  | none =>
    have kept : i ∈ (queuedWaits tr).filter l.live :=
      List.mem_filter.mpr ⟨hi, by rw [Ledger.live, hd]; rfl⟩
    rw [h.queued] at kept
    rcases List.mem_append.mp kept with hw | hw
    · obtain ⟨⟨a, j⟩, hpair, rfl⟩ := List.mem_map.mp hw
      obtain ⟨_, _, _, _, hsignal⟩ := h.woken a j hpair
      exact .inr (.inl ⟨j, (List.getElem?_eq_some_iff.mp hsignal).1, hpair⟩)
    · exact .inr (.inr hw)

/-! ## Signals and waits -/

/-- An event that is not a cancel: it may wake the waits `w` and add itself to the queue. -/
theorem extend (w : List (Nat × Nat)) (ws : List Nat)
    (hev : ∀ party removed, ev ≠ .cancel party removed)
    (hqueue : l.waiting ++ (if ev.queues = true then [tr.length] else []) = w.map Prod.fst ++ ws)
    (hsignals : w.map Prod.snd = if ev.wakes = true then [tr.length] else [])
    (hwoken : ∀ i k, (i, k) ∈ w → i < k ∧ ∃ party found, (tr ++ [ev])[i]? =
      some (.wait party .queued) ∧ (tr ++ [ev])[k]? = some (.signal found (.woke party)))
    (hwaiters : t.waiters.map some = ws.map (partyAt (tr ++ [ev]))) :
    Accounts (tr ++ [ev]) t { l with woken := l.woken ++ w, waiting := ws } := by
  constructor
  case queued =>
    show (queuedWaits (tr ++ [ev])).filter l.live = (l.woken ++ w).map Prod.fst ++ ws
    have new : (if ev.queues = true then [tr.length] else []).filter l.live = if ev.queues =
      true then [tr.length] else [] := by
      by_cases hq : ev.queues = true
      · rw [if_pos hq, List.filter_cons_of_pos h.live_new, List.filter_nil]
      · rw [if_neg hq, List.filter_nil]
    rw [queuedWaits, findIdxs_snoc, List.filter_append, ← queuedWaits, h.queued, new,
      List.append_assoc, hqueue, List.map_append, List.append_assoc]
  case waiters => exact hwaiters
  case wakings =>
    rw [List.map_append, h.wakings, hsignals, wakingSignals, wakingSignals, findIdxs_snoc]
  case woken =>
    intro i k hik
    rcases List.mem_append.mp hik with hik | hik
    · obtain ⟨hlt, party, found, hwait, hsignal⟩ := h.woken i k hik
      exact ⟨hlt, party, found, getElem?_snoc_old hwait ev, getElem?_snoc_old hsignal ev⟩
    · exact hwoken i k hik
  case cancelled =>
    intro i k hd
    obtain ⟨hlt, ⟨party, hwait, hcancel⟩, older⟩ := h.cancelled i k hd
    refine ⟨hlt, ⟨party, getElem?_snoc_old hwait ev, getElem?_snoc_old hcancel ev⟩,
      fun j s hjs hs => ?_⟩
    rcases List.mem_append.mp hjs with hjs | hjs
    · exact older j s hjs hs
    · -- the signal of a new pair is this event, after every cancel
      have hmem : s ∈ w.map Prod.snd := List.mem_map.mpr ⟨_, hjs, rfl⟩
      have hlast : s = tr.length := by
        rw [hsignals] at hmem
        by_cases hw : ev.wakes = true
        · rw [if_pos hw] at hmem
          exact List.mem_singleton.mp hmem
        · rw [if_neg hw] at hmem
          cases hmem
      have made := h.dropped_lt hd
      omega
  case cancels =>
    intro k party removed hk
    have old : tr[k]? = some (.cancel party removed) := by
      rcases getElem?_snoc_cases hk with old | ⟨_, heq⟩
      · exact old
      · exact absurd heq (hev _ _)
    have hlt := (List.getElem?_eq_some_iff.mp old).1
    obtain ⟨h1, h2⟩ := h.cancels k party removed old
    refine ⟨h1, fun i hi hwait => ?_⟩
    rw [List.getElem?_append_left (by omega)] at hwait
    rcases h2 i hi hwait with hd | ⟨j, hj, hpair⟩
    · exact .inl hd
    · exact .inr ⟨j, hj, List.mem_append_left _ hpair⟩

/-- Nothing happens to the queue. -/
theorem same (hev : ∀ party removed, ev ≠ .cancel party removed) (hq : ev.queues = false)
    (hw : ev.wakes = false) (ht : t.waiters = n.waiters) : Accounts (tr ++ [ev]) t l := by
  have next := h.extend (t := t) [] l.waiting hev (by rw [hq]; simp) (by rw [hw]; rfl)
    (fun _ _ hik => by cases hik) ?_
  · rw [List.append_nil] at next
    exact next
  · rw [ht, h.waiters]
    exact (List.map_congr_left fun i hi => partyAt_snoc_old (h.waiting_lt hi)).symm

theorem signal (found : Bool) :
    ∃ l', Accounts (tr ++ [.signal found n.signal.1]) n.signal.2 l' := by
  obtain ⟨pending, waiters⟩ := n
  cases waiters with
  | nil => exact ⟨l, h.same (fun _ _ => by simp) rfl rfl rfl⟩
  | cons party rest =>
    have queue := h.waiters
    cases hl : l.waiting with
    | nil => rw [hl] at queue; cases queue
    | cons j js =>
      rw [hl, List.map_cons, List.map_cons, List.cons.injEq] at queue
      have hj : j ∈ l.waiting := by rw [hl]; exact List.mem_cons_self
      have hjs : ∀ i ∈ js, i < tr.length :=
        fun i hi => h.waiting_lt (by rw [hl]; exact List.mem_cons_of_mem _ hi)
      refine ⟨_, h.extend [(j, tr.length)] js (fun _ _ => by simp [NotificationState.signal]) ?_ rfl
        (fun i k hik => ?_) ?_⟩
      · rw [hl]
        exact List.append_nil _
      · cases List.mem_singleton.mp hik
        have waited := queuedWait_at (h.mem_queuedWaits hj) queue.1.symm
        exact ⟨h.waiting_lt hj, party, found, getElem?_snoc_old waited _,
          List.getElem?_concat_length ..⟩
      · exact queue.2.trans (List.map_congr_left fun i hi => partyAt_snoc_old (hjs i hi)).symm

theorem wait (party : PartyId) :
    ∃ l', Accounts (tr ++ [.wait party (n.wait party).1]) (n.wait party).2 l' := by
  obtain ⟨pending, waiters⟩ := n
  cases pending with
  | true => exact ⟨l, h.same (fun _ _ => by simp) rfl rfl rfl⟩
  | false =>
    refine ⟨_, h.extend [] (l.waiting ++ [tr.length]) (fun _ _ => by simp) rfl rfl
      (fun _ _ hik => by cases hik) ?_⟩
    show (waiters ++ [party]).map some = _
    have old : l.waiting.map (partyAt (tr ++ [.wait party .queued])) = l.waiting.map (partyAt tr) :=
      List.map_congr_left fun i hi => partyAt_snoc_old (h.waiting_lt hi)
    have waiters_eq : waiters.map some = l.waiting.map (partyAt tr) := h.waiters
    rw [List.map_append, List.map_append, waiters_eq]
    show _ = l.waiting.map (partyAt (tr ++ [.wait party .queued])) ++
      [partyAt (tr ++ [.wait party .queued]) tr.length]
    rw [old, partyAt_snoc_new]
    rfl

end

end Accounts

/-! ## Cancels -/

/-- The waits of `party`. -/
def goneFor (tr : List Event) (party : PartyId) (i : Nat) : Bool := partyAt tr i == some party

/-- A cancel removes the waits of its party that are queued. -/
def Ledger.drop (l : Ledger) (gone : Nat → Bool) (k : Nat) : Ledger where
  woken := l.woken
  waiting := l.waiting.filter fun i => !gone i
  dropped i := if i ∈ l.waiting ∧ gone i = true then some k else l.dropped i

theorem Ledger.dropped_drop {gone : Nat → Bool} {k : Nat} {o : Option Nat} :
    (l.drop gone k).dropped i = o ↔
      (i ∈ l.waiting ∧ gone i = true ∧ o = some k) ∨
        (¬ (i ∈ l.waiting ∧ gone i = true) ∧ l.dropped i = o) := by
  show (if i ∈ l.waiting ∧ gone i = true then some k else l.dropped i) = o ↔ _
  by_cases hc : i ∈ l.waiting ∧ gone i = true
  · rw [if_pos hc]
    exact ⟨fun h => .inl ⟨hc.1, hc.2, h.symm⟩, fun h => h.elim (fun h => h.2.2.symm) fun h =>
      absurd hc h.1⟩
  · rw [if_neg hc]
    exact ⟨fun h => .inr ⟨hc, h⟩, fun h => h.elim (fun h => absurd ⟨h.1, h.2.1⟩ hc) fun h => h.2⟩

namespace Accounts

variable {party : PartyId}

theorem queued_drop (h : Accounts tr n l) (gone : Nat → Bool) (k : Nat) :
    (queuedWaits tr).filter (l.drop gone k).live = l.woken.map Prod.fst ++ l.waiting.filter fun i =>
      !gone i := by
  have live : ∀ i, (l.drop gone k).live i = (!(decide (i ∈ l.waiting) && gone i) && l.live i) := by
    intro i
    show (if i ∈ l.waiting ∧ gone i = true then some k else l.dropped i).isNone = _
    by_cases hw : i ∈ l.waiting
    · cases hg : gone i with
      | true => simp [hw]
      | false => simp [hw, Ledger.live]
    · simp [hw, Ledger.live]
  rw [funext live, ← List.filter_filter, h.queued, List.filter_append]
  congr 1
  · refine List.filter_eq_self.mpr fun i hi => ?_
    obtain ⟨⟨a, s⟩, hpair, rfl⟩ := List.mem_map.mp hi
    have away : a ∉ l.waiting := fun hc => Nat.lt_irrefl _ (h.woken_lt hpair hc)
    simp [away]
  · exact List.filter_congr fun i hi => by simp [hi]

theorem waiters_drop (h : Accounts tr n l) (party : PartyId) :
    (n.cancel party).2.waiters.map some = (l.waiting.filter fun i => !goneFor tr party i).map
      (partyAt tr) := by
  have kept : (n.waiters.filter fun p => p != party).map some = (n.waiters.map some).filter fun o =>
    !(o == some party) := by
    rw [List.filter_map]
    rfl
  show (n.waiters.filter fun p => p != party).map some = _
  rw [kept, h.waiters, List.filter_map]
  rfl

/-- A cancel reports whether one of its party waited. -/
theorem removed_iff (h : Accounts tr n l) (party : PartyId) :
    (n.cancel party).1 = true ↔ ∃ i ∈ l.waiting, goneFor tr party i = true := by
  have length : n.waiters.length = l.waiting.length := by simpa using congrArg List.length h.waiters
  have kept : (n.cancel party).2.waiters.length = (l.waiting.filter fun i =>
    !goneFor tr party i).length := by
    simpa using congrArg List.length (h.waiters_drop party)
  have le := List.length_filter_le (fun i => !goneFor tr party i) l.waiting
  have report : (n.cancel party).1 = true ↔ n.waiters.length ≠ (n.cancel party).2.waiters.length :=
    bne_iff_ne
  have gone : (l.waiting.filter fun i => !goneFor tr party i).length < l.waiting.length ↔
      ∃ i ∈ l.waiting, goneFor tr party i = true := by
    rw [List.length_filter_lt_length_iff_exists]
    simp
  rw [report, length, kept, ← gone]
  omega

variable {i : Nat}

theorem goneFor_wait (hi : tr[i]? = some (.wait party .queued)) : goneFor tr party i = true :=
  beq_iff_eq.mpr (partyAt_wait hi)

theorem init : Accounts [] .new ⟨[], [], fun _ => none⟩ where
  queued := rfl
  waiters := rfl
  wakings := rfl
  woken _ _ hik := by cases hik
  cancelled _ _ hd := by cases hd
  cancels _ _ _ hk := by cases hk

section

variable (h : Accounts tr n l)

include h

/-- A cancel leaves what earlier cancels removed. -/
theorem dropped_old (gone : Nat → Bool) {k : Nat} (hd : l.dropped i = some k) :
    (l.drop gone tr.length).dropped i = some k := by
  refine Ledger.dropped_drop.mpr (.inr ⟨fun hc => ?_, hd⟩)
  rw [h.waiting_live hc.1] at hd
  cases hd

theorem cancelled_drop (party : PartyId) (i k : Nat)
    (hd : (l.drop (goneFor tr party) tr.length).dropped i = some k) :
    i < k ∧ (∃ p, (tr ++ [.cancel party (n.cancel party).1])[i]? = some (.wait p .queued) ∧
      (tr ++ [.cancel party (n.cancel party).1])[k]? = some (.cancel p true)) ∧
    ∀ j s, (j, s) ∈ l.woken → s < k → j < i := by
  rcases Ledger.dropped_drop.mp hd with ⟨hw, hg, hk⟩ | ⟨_, hold⟩
  · cases hk
    have waited := queuedWait_at (h.mem_queuedWaits hw) (beq_iff_eq.mp hg)
    refine ⟨h.waiting_lt hw, ⟨party, getElem?_snoc_old waited _, ?_⟩, fun j s hjs _ =>
      h.woken_lt hjs hw⟩
    rw [List.getElem?_concat_length, (h.removed_iff party).mpr ⟨i, hw, hg⟩]
  · obtain ⟨hlt, ⟨p, hwait, hcancel⟩, older⟩ := h.cancelled i k hold
    exact ⟨hlt, ⟨p, getElem?_snoc_old hwait _, getElem?_snoc_old hcancel _⟩, older⟩

theorem cancels_drop (party : PartyId) (k : Nat) (p : PartyId) (removed : Bool)
    (hk : (tr ++ [.cancel party (n.cancel party).1])[k]? = some (.cancel p removed)) :
    (removed = true ↔ ∃ i, (l.drop (goneFor tr party) tr.length).dropped i = some k) ∧
    ∀ i, i < k → (tr ++ [.cancel party (n.cancel party).1])[i]? = some (.wait p .queued) →
      (∃ k', k' ≤ k ∧ (l.drop (goneFor tr party) tr.length).dropped i = some k') ∨ ∃ j, j < k ∧
        (i, j) ∈ l.woken := by
  rcases getElem?_snoc_cases hk with old | ⟨rfl, heq⟩
  · have hlt := (List.getElem?_eq_some_iff.mp old).1
    obtain ⟨h1, h2⟩ := h.cancels k p removed old
    constructor
    · rw [h1]
      refine (exists_mark_old (fun _ _ => h.dropped_old _) (fun i k hd =>
        ?_) (Nat.ne_of_lt hlt)).symm
      rcases Ledger.dropped_drop.mp hd with ⟨_, _, hlast⟩ | ⟨_, hold⟩
      · exact .inr (Option.some.inj hlast)
      · exact .inl hold
    · intro i hi hwait
      rw [List.getElem?_append_left (by omega)] at hwait
      rcases h2 i hi hwait with ⟨k', hk', hd⟩ | hw
      · exact .inl ⟨k', hk', h.dropped_old _ hd⟩
      · exact .inr hw
  · cases heq
    constructor
    · rw [h.removed_iff party]
      constructor
      · rintro ⟨i, hw, hg⟩
        exact ⟨i, Ledger.dropped_drop.mpr (.inl ⟨hw, hg, rfl⟩)⟩
      · rintro ⟨i, hd⟩
        rcases Ledger.dropped_drop.mp hd with ⟨hw, hg, _⟩ | ⟨_, hold⟩
        · exact ⟨i, hw, hg⟩
        · exact absurd (h.dropped_lt hold) (Nat.lt_irrefl _)
    · intro i hi hwait
      rw [List.getElem?_append_left hi] at hwait
      rcases h.fate (Notification.mem_queuedWaits hwait) with ⟨k, hlt, hd⟩ | hw | hw
      · exact .inl ⟨k, Nat.le_of_lt hlt, h.dropped_old _ hd⟩
      · exact .inr hw
      · exact .inl ⟨tr.length, Nat.le_refl _,
          Ledger.dropped_drop.mpr (.inl ⟨hw, goneFor_wait hwait, rfl⟩)⟩

theorem cancel (party : PartyId) :
    Accounts (tr ++ [.cancel party (n.cancel party).1]) (n.cancel party).2
      (l.drop (goneFor tr party) tr.length) where
  queued := by
    rw [queuedWaits, findIdxs_snoc, if_neg (by exact Bool.false_ne_true), List.append_nil]
    exact h.queued_drop _ _
  waiters := by
    rw [h.waiters_drop party]
    exact (List.map_congr_left fun i hi =>
      partyAt_snoc_old (h.waiting_lt (List.mem_of_mem_filter hi))).symm
  wakings := by
    rw [wakingSignals, findIdxs_snoc, if_neg (by exact Bool.false_ne_true), List.append_nil]
    exact h.wakings
  woken i k hik := by
    obtain ⟨hlt, p, found, hwait, hsignal⟩ := h.woken i k hik
    exact ⟨hlt, p, found, getElem?_snoc_old hwait _, getElem?_snoc_old hsignal _⟩
  cancelled := h.cancelled_drop party
  cancels := h.cancels_drop party

theorem step (hstep : Step n ev t) : ∃ l', Accounts (tr ++ [ev]) t l' := by
  cases ev with
  | signal found out =>
    have next := h.signal found
    rw [hstep.2] at next
    exact next
  | wait party out =>
    have next := h.wait party
    rw [show n.wait party = (out, t) from hstep] at next
    exact next
  | cancel party removed =>
    have next := h.cancel party
    rw [show n.cancel party = (removed, t) from hstep] at next
    exact ⟨_, next⟩

end

end Accounts

/-! ## The latch -/

theorem any_lt {p : Event → Bool} (h : tr[i]?.any p = true) : i < tr.length := by
  obtain ⟨ev, hev, _⟩ := (Option.any_eq_true _ _).mp h
  exact (List.getElem?_eq_some_iff.mp hev).1

theorem any_snoc (p : Event → Bool) (i : Nat) :
    (tr ++ [ev])[i]?.any p = true ↔ tr[i]?.any p = true ∨ (i = tr.length ∧ p ev = true) := by
  constructor
  · intro h
    obtain ⟨e, he, hp⟩ := (Option.any_eq_true _ _).mp h
    rcases getElem?_snoc_cases he with old | ⟨last, rfl⟩
    · exact .inl (by rw [old]; exact hp)
    · exact .inr ⟨last, hp⟩
  · rintro (h | ⟨rfl, hp⟩)
    · obtain ⟨e, he, hp⟩ := (Option.any_eq_true _ _).mp h
      rw [getElem?_snoc_old he]
      exact hp
    · rw [List.getElem?_concat_length]
      exact hp

/-- Every latched signal was taken by a later wait. -/
def Drained (tr : List Event) : Prop :=
  ∀ i, latchedAt tr i = true → ∃ j, i < j ∧ takenAt tr j = true

/-- What the pending bit says of the history that led to it. -/
structure Latch (tr : List Event) (n : NotificationState) : Prop where
  exclusive : n.pending = true → n.waiters = []
  counted : completed tr + merged tr + n.pending.toNat = signals tr
  drained : n.pending = false ↔ Drained tr

theorem drained_latched (h : ev.latches = true) : ¬ Drained (tr ++ [ev]) := fun hd => by
  obtain ⟨j, hlt, hj⟩ := hd tr.length ((any_snoc _ _).mpr (.inr ⟨rfl, h⟩))
  have bound := any_lt hj
  rw [List.length_append, List.length_singleton] at bound
  omega

theorem drained_taken (h : ev.takes = true) (hl : ev.latches = false) :
    Drained (tr ++ [ev]) := fun i hi => by
  rcases (any_snoc _ _).mp hi with old | ⟨_, hc⟩
  · exact ⟨tr.length, any_lt old, (any_snoc _ _).mpr (.inr ⟨rfl, h⟩)⟩
  · rw [hl] at hc
    cases hc

theorem drained_other (ht : ev.takes = false) (hl : ev.latches = false) :
    Drained (tr ++ [ev]) ↔ Drained tr := by
  have latched : ∀ i, latchedAt (tr ++ [ev]) i = true ↔ latchedAt tr i = true := fun i => by
    rw [latchedAt, any_snoc, hl, latchedAt]
    simp
  have taken : ∀ i, takenAt (tr ++ [ev]) i = true ↔ takenAt tr i = true := fun i => by
    rw [takenAt, any_snoc, ht, takenAt]
    simp
  unfold Drained
  simp only [latched, taken]

theorem countP_snoc (p : Event → Bool) : (tr ++ [ev]).countP p = tr.countP p + (p ev).toNat := by
  rw [List.countP_append, List.countP_singleton]
  cases p ev with
  | true => rfl
  | false => rfl

theorem counted_snoc (h : completed tr + merged tr + n.pending.toNat = signals tr)
    (hev : (ev.wakes || ev.takes).toNat + ev.merges.toNat + t.pending.toNat =
      n.pending.toNat + ev.isSignal.toNat) :
    completed (tr ++ [ev]) + merged (tr ++ [ev]) + t.pending.toNat = signals (tr ++ [ev]) := by
  unfold completed merged signals at h ⊢
  rw [countP_snoc, countP_snoc, countP_snoc]
  omega

theorem Latch.step (h : Latch tr n) (hstep : Step n ev t) : Latch (tr ++ [ev]) t := by
  obtain ⟨pending, waiters⟩ := n
  cases ev with
  | signal found out =>
    obtain ⟨rfl, hout⟩ := hstep
    cases waiters with
    | cons party rest =>
      cases hout
      -- someone waits, so the bit is clear
      have clear : pending = false := eq_false_of_ne_true fun hc => by cases h.exclusive hc
      subst clear
      exact ⟨nofun, counted_snoc h.counted rfl, h.drained.trans (drained_other rfl rfl).symm⟩
    | nil =>
      cases hout
      refine ⟨fun _ => rfl, counted_snoc h.counted ?_, nofun, fun hc =>
        absurd hc (drained_latched rfl)⟩
      exact Nat.add_right_cancel_iff.mpr (Nat.zero_add _)
  | wait party out =>
    cases pending with
    | true =>
      cases hstep
      exact ⟨nofun, counted_snoc h.counted rfl, fun _ => drained_taken rfl rfl, fun _ => rfl⟩
    | false =>
      cases hstep
      exact ⟨nofun, counted_snoc h.counted rfl, h.drained.trans (drained_other rfl rfl).symm⟩
  | cancel party removed =>
    cases hstep
    refine ⟨fun hc => ?_, counted_snoc h.counted (Nat.zero_add _),
      h.drained.trans (drained_other rfl rfl).symm⟩
    have nil : waiters = [] := h.exclusive hc
    subst nil
    rfl

end

theorem latch_run {tr : List Event} {n : NotificationState} (h : Run Step .new tr n) :
    Latch tr n := by
  refine h.inv_trace (I := Latch) ⟨nofun, rfl, ?_⟩ fun _ _ _ _ hl hstep => hl.step hstep
  exact ⟨fun _ _ hi => (by cases hi), fun _ => rfl⟩

/-- **Accounting.**  The bit is never set while someone waits.  Signals wake, in order, the queued
waits that were not cancelled; every signal ends one wait, finds the bit set, or is latched at the
end; and a wait is queued when all that was latched before it has been taken. -/
theorem notification_accounts {tr : List Event} {n : NotificationState} (h : Run Step .new tr n) :
    (n.pending = true → n.waiters = []) ∧
    (∃ l, Accounts tr n l) ∧
    completed tr ≤ signals tr ∧ completed tr + merged tr + n.pending.toNat = signals tr ∧
    ∀ k party out, tr[k]? = some (.wait party out) →
      (out = .queued ↔ ∀ i, i < k → latchedAt tr i = true → ∃ j, i < j ∧ j < k ∧
        takenAt tr j = true) := by
  have latch := latch_run h
  have accounts := h.inv_trace (I := fun tr n => ∃ l, Accounts tr n l) ⟨_, Accounts.init⟩
    fun _ _ _ _ ⟨_, acc⟩ hstep => acc.step hstep
  have counted := latch.counted
  refine ⟨latch.exclusive, accounts, by omega, counted, fun k party out hk => ?_⟩
  obtain ⟨m, t, hrun, hstep⟩ := h.at_position hk
  have before : ∀ {i}, i < k → (tr.take k)[i]? = tr[i]? := fun hi => List.getElem?_take_of_lt hi
  have bound : ∀ {i p}, (tr.take k)[i]?.any p = true → i < k := fun hi => by
    have hlt := any_lt hi
    rw [List.length_take] at hlt
    omega
  have queued : out = .queued ↔ m.pending = false := by
    have hout : (m.wait party).1 = out := congrArg Prod.fst hstep
    rw [← hout, NotificationState.wait]
    cases m.pending with
    | true => simp
    | false => simp
  rw [queued, (latch_run hrun).drained]
  constructor
  · intro hd i hi hl
    obtain ⟨j, hlt, hj⟩ := hd i (by rw [latchedAt, before hi]; exact hl)
    refine ⟨j, hlt, bound hj, ?_⟩
    rw [takenAt, before (bound hj)] at hj
    exact hj
  · intro hd i hl
    have hi := bound hl
    rw [latchedAt, before hi] at hl
    obtain ⟨j, hlt, hjk, hj⟩ := hd i hi hl
    exact ⟨j, hlt, by rw [takenAt, before hjk]; exact hj⟩

/-- A cancelled waiter is passed over; of three more signals two are latched as one. -/
theorem notification_accounts_cancelled :
    let tr : List Event :=
      [.wait 1 .queued, .wait 2 .queued, .cancel 1 true, .signal false (.woke 2),
      .signal false .latched,
      .signal true .latched, .wait 3 .ready, .wait 4 .queued]
    (∃ l, Accounts tr ⟨false, [4]⟩ l) ∧ completed tr + merged tr + false.toNat = signals tr ∧
    completed tr = 2 := by
  intro tr
  have run : Run Step .new tr ⟨false, [4]⟩ := by
    refine .cons (t := ⟨false, [1]⟩) (by exact rfl) ?_
    refine .cons (t := ⟨false, [1, 2]⟩) (by exact rfl) ?_
    refine .cons (t := ⟨false, [2]⟩) (by exact rfl) ?_
    refine .cons (t := ⟨false, []⟩) ⟨rfl, rfl⟩ ?_
    refine .cons (t := ⟨true, []⟩) ⟨rfl, rfl⟩ ?_
    refine .cons (t := ⟨true, []⟩) ⟨rfl, rfl⟩ ?_
    refine .cons (t := ⟨false, []⟩) (by exact rfl) ?_
    exact .cons (t := ⟨false, [4]⟩) (by exact rfl) (.nil _)
  obtain ⟨_, accounts, _, counted, _⟩ := notification_accounts run
  exact ⟨accounts, counted, rfl⟩

end Notification

end Praesidium
