import Praesidium.CapCore.CSpaceDestroy
import Praesidium.CapCore.CSpaceRetype
import Praesidium.Lib.Run

/-!
The public operations of a capability space as data, and runs of them.

`Call` is an operation any holder may request, `Boot` one of the trusted installs,
and an `Action` on one space is either of these or a grant to or from some other
space, which is arbitrary.  An event is an action with what it returned; a step
that traps is no event.

`call_spec`, `boot_spec` and `grant_spec` say once what an action can do:
`CallEffect` when it returns a value, nothing when it refuses.
-/

namespace Praesidium

open Fallible

/-! ## Operations as data -/

inductive Call where
  | retype (ut : Nat) (newType : CapType) (framesPerObj count : U32) (destStart : Nat)
  | mint (src dest : Nat) (newRights : Rights) (badge : U64)
  | copy (src dest : Nat)
  | moveCap (src dest : Nat)
  | split (src dest : Nat) (amount : U32)
  | delegate (src dest : Nat) (amount : U32)
  | mintReply (dest : Nat) (caller badge : U64)
  | consumeReply (dest : Nat)
  | revoke (c : Nat)
  | delete (c : Nat)
  deriving DecidableEq, Repr

/-- The value of a call is the caller id of `consume_reply`. -/
def Call.exec {N : Nat} : Call → Op N (Option U64)
  | .retype ut newType framesPerObj count destStart => do
    CSpace.retype ut newType framesPerObj count destStart
    pure none
  | .mint src dest newRights badge => do CSpace.mint src dest newRights badge; pure none
  | .copy src dest => do CSpace.copy src dest; pure none
  | .moveCap src dest => do CSpace.moveCap src dest; pure none
  | .split src dest amount => do CSpace.split src dest amount; pure none
  | .delegate src dest amount => do CSpace.delegate src dest amount; pure none
  | .mintReply dest caller badge => do CSpace.mintReply dest caller badge; pure none
  | .consumeReply dest => do return some (← CSpace.consumeReply dest)
  | .revoke c => do CSpace.revoke c; pure none
  | .delete c => do CSpace.delete c; pure none

inductive Boot where
  | rootUntyped (base : U64) (frames : U32)
  | rootSched (slot : Nat) (budget period : U32)
  | rootDomain (slot : Nat) (domainId : U64)
  | notification (slot : Nat) (notifId : U64) (rights : Rights)
  | sharedRo (slot : Nat) (basePfn : U64) (frames : U32) (va : U64)
  | frame (slot : Nat) (basePfn : U64) (frames : U32) (rights : Rights)
  deriving DecidableEq, Repr

namespace Boot

def exec {N : Nat} : Boot → Op N Unit
  | .rootUntyped base frames => CSpace.setRootUntyped base frames
  | .rootSched slot budget period => CSpace.setRootSched slot budget period
  | .rootDomain slot domainId => CSpace.setRootDomain slot domainId
  | .notification slot notifId rights => CSpace.installNotification slot notifId rights
  | .sharedRo slot basePfn frames va => CSpace.installSharedRo slot basePfn frames va
  | .frame slot basePfn frames rights => CSpace.installFrame slot basePfn frames rights

/-- The slot an install writes. -/
def slot : Boot → Nat
  | .rootUntyped _ _ => 0
  | .rootSched slot _ _ => slot
  | .rootDomain slot _ => slot
  | .notification slot _ _ => slot
  | .sharedRo slot _ _ _ => slot
  | .frame slot _ _ _ => slot

/-- The record it writes there, with `obj` the next object id. -/
def cap (obj : U64) : Boot → RawCap
  | .rootUntyped base frames => ⟨.untyped, Rights.RETYPE, base, frames, 0, 0, 0⟩
  | .rootSched _ budget period =>
    ⟨.sched, Rights.DERIVE ||| Rights.GRANT, obj, budget, 0, period, 0⟩
  | .rootDomain _ domainId => ⟨.domain, Rights.ENTER, domainId, 0, 0, 0, 0⟩
  | .notification _ notifId rights => ⟨.notification, rights, notifId, 0, 0, 0, 0⟩
  | .sharedRo _ basePfn frames va =>
    ⟨.sharedRo, Rights.READ, basePfn, frames, 0, (va >>> 12).setWidth 32, 0⟩
  | .frame _ basePfn frames rights => ⟨.frame, rights, basePfn, frames, 0, 0, 0⟩

theorem cap_isNull (obj : U64) (b : Boot) : (b.cap obj).isNull = false := by
  cases b <;> rfl

end Boot

/-! ## What an action can do -/

/-- The effect of a call that returned a value. -/
inductive CallEffect {N : Nat} (cs : CSpace N) : Call → Option U64 → CSpace N → Prop
  | retype {ut newType framesPerObj count dest cs'} :
      CSpace.Retyped cs ut newType framesPerObj count dest cs' →
      CallEffect cs (.retype ut newType framesPerObj count dest) none cs'
  | mint {src dest newRights badge} : cs.Live src → (cs.slot src).cap.capType ∉ CSpace.linearTypes →
      newRights.subsetOf (cs.slot src).cap.rights = true → dest < N → ¬ cs.Live dest →
      CallEffect cs (.mint src dest newRights badge) none
        (cs.put dest ⟨{ (cs.slot src).cap with rights := newRights, badge := badge }, some src⟩)
  | copy {src dest} : cs.Live src → (cs.slot src).cap.capType ∉ CSpace.linearTypes → dest < N →
      ¬ cs.Live dest → CallEffect cs (.copy src dest) none (cs.put dest ⟨(cs.slot src).cap,
        if (cs.slot src).parent = NIL then some src else (cs.slot src).parent⟩)
  | stay {src} : cs.Live src → CallEffect cs (.moveCap src src) none cs
  | moveCap {src dest cs'} : cs.Live src → dest ≠ src → dest < N → ¬ cs.Live dest →
      CSpace.Moved cs src dest cs' → CallEffect cs (.moveCap src dest) none cs'
  | split {src dest amount child parent} {next : U64} : cs.Live src →
      (cs.slot src).cap.capType = .sched →
      dest < N → ¬ cs.Live dest → (Budget.fromCap (cs.slot src).cap).split amount =
      some (child, parent) →
      next.toNat = cs.nextObj.toNat + 1 →
      CallEffect cs (.split src dest amount) none
        (cs.afterSplit src dest child parent next)
  | delegateSelf {src amount} : CallEffect cs (.delegate src src amount) none cs
  | delegate {src dest amount s d} : src ≠ dest → cs.Live src → cs.Live dest →
      (cs.slot src).cap.capType = .sched → (cs.slot dest).cap.capType = .sched →
      (Budget.fromCap (cs.slot src).cap).delegate (Budget.fromCap (cs.slot dest).cap) amount =
      some (s, d) → CallEffect cs (.delegate src dest amount) none
        ((cs.put src (cs.withBudget src s)).put dest (cs.withBudget dest d))
  | mintReply {dest caller badge} : dest < N → ¬ cs.Live dest →
      CallEffect cs (.mintReply dest caller badge) none
        (cs.put dest ⟨⟨.reply, Rights.empty, caller, 0, 0, 0, badge⟩, NIL⟩)
  | consumeReply {dest cs'} : cs.Live dest → (cs.slot dest).cap.capType = .reply →
      CSpace.Destroyed cs dest cs' →
      CallEffect cs (.consumeReply dest) (some (cs.slot dest).cap.objref) cs'
  | revoke {c t} : cs.Live c → CSpace.Sweep c cs t → CallEffect cs (.revoke c) none (t.reclaimed c)
  | delete {c t cs'} : cs.Live c → CSpace.Sweep c cs t → (t.reclaimed c).Live c →
      CSpace.Destroyed (t.reclaimed c) c cs' → CallEffect cs (.delete c) none cs'

/-- The calls that destroy capabilities. -/
def Call.Destroys : Call → Prop
  | .consumeReply _ => True
  | .revoke _ => True
  | .delete _ => True
  | _ => False

variable {N : Nat} {σ α : Type}

/-- **Calls, from any state.**  A call has its effect, refuses without one, or traps; only
a destruction can index the table out of bounds. -/
theorem call_spec (c : Call) (cs : CSpace N) :
    Ends c.exec cs (fun v cs' => CallEffect cs c v cs')
      (fun f cs' => CSpace.Refused cs f cs' ∨ f = .overflow ∨ (f = .oob ∧ c.Destroys)) := by
  cases c with
  | retype ut newType framesPerObj count dest =>
    unfold Call.exec
    rw [ends_bind]
    exact (CSpace.retype_spec cs ut newType framesPerObj count dest).imp (fun _ _ h => .retype h)
      (fun _ _ h => h.imp id fun h => Or.inl h.1)
  | mint src dest newRights badge =>
    unfold Call.exec
    rw [ends_bind]
    refine (CSpace.mint_spec cs src dest newRights badge).imp (fun _ _ h => ?_) (fun _ _ h =>
      Or.inl h)
    obtain ⟨h1, h2, h3, h4, h5, rfl⟩ := h
    exact .mint h1 h2 h3 h4 h5
  | copy src dest =>
    unfold Call.exec
    rw [ends_bind]
    refine (CSpace.copy_spec cs src dest).imp (fun _ _ h => ?_) (fun _ _ h => Or.inl h)
    obtain ⟨h1, h2, h3, h4, rfl⟩ := h
    exact .copy h1 h2 h3 h4
  | moveCap src dest =>
    unfold Call.exec
    rw [ends_bind]
    refine (CSpace.moveCap_spec cs src dest).imp (fun _ _ h => ?_) (fun _ _ h => Or.inl h)
    rcases h with ⟨hl, ⟨rfl, rfl⟩ | ⟨h1, h2, h3, h4⟩⟩
    · exact .stay hl
    · exact .moveCap hl h1 h2 h3 h4
  | split src dest amount =>
    unfold Call.exec
    rw [ends_bind]
    refine (CSpace.split_spec cs src dest amount).imp (fun _ _ h => ?_) (fun _ _ h =>
      h.imp id Or.inl)
    obtain ⟨h1, h2, h3, h4, child, parent, h5, next, h6, rfl⟩ := h
    exact .split h1 h2 h3 h4 h5 h6
  | delegate src dest amount =>
    unfold Call.exec
    rw [ends_bind]
    refine (CSpace.delegate_spec cs src dest amount).imp (fun _ _ h => ?_) (fun _ _ h => Or.inl h)
    rcases h with ⟨rfl, rfl⟩ | ⟨h1, h2, h3, h4, h5, s, d, h6, rfl⟩
    · exact .delegateSelf
    · exact .delegate h1 h2 h3 h4 h5 h6
  | mintReply dest caller badge =>
    unfold Call.exec
    rw [ends_bind]
    refine (CSpace.mintReply_spec cs dest caller badge).imp (fun _ _ h => ?_) (fun _ _ h =>
      Or.inl h)
    obtain ⟨h1, h2, rfl⟩ := h
    exact .mintReply h1 h2
  | consumeReply dest =>
    unfold Call.exec
    rw [ends_bind]
    refine (CSpace.consumeReply_spec cs dest).imp (fun _ _ h => ?_) (fun _ _ h => h.imp id fun h =>
      Or.inr ⟨h.1, trivial⟩)
    obtain ⟨h1, h2, rfl, h3⟩ := h
    exact .consumeReply h1 h2 h3
  | revoke c =>
    unfold Call.exec
    rw [ends_bind]
    refine (CSpace.revoke_spec cs c).imp (fun _ _ h => ?_) (fun _ _ h => h.imp id fun h =>
      Or.inr ⟨h, trivial⟩)
    obtain ⟨h1, t, h2, rfl⟩ := h
    exact .revoke h1 h2
  | delete c =>
    unfold Call.exec
    rw [ends_bind]
    refine (CSpace.delete_spec cs c).imp (fun _ _ h => ?_) (fun _ _ h => h.imp id fun h =>
      Or.inr ⟨h, trivial⟩)
    obtain ⟨h1, t, h2, h3, h4⟩ := h
    exact .delete h1 h2 h3 h4

/-- The space after an install: its slot is overwritten with a root. -/
structure Booted {N : Nat} (cs : CSpace N) (b : Boot) (cs' : CSpace N) : Prop where
  inRange : b.slot < N
  slot : ∀ k, cs'.slot k = if k = b.slot then ⟨b.cap cs.nextObj, NIL⟩ else cs.slot k
  zeroed : cs'.zeroed = cs.zeroed

theorem boot_spec (b : Boot) (cs : CSpace N) :
    Ends b.exec cs (fun _ cs' => Booted cs b cs') (fun f _ => f = .overflow ∨
      (f = .oob ∧ N ≤ b.slot)) := by
  have key : ∀ (d : Nat) (e : Cte), Ends (CSpace.writeSlot d e) cs
      (fun _ cs' => d < N ∧ (∀ k, cs'.slot k = if k = d then e else cs.slot k) ∧
      cs'.zeroed = cs.zeroed) (fun f _ => f = .overflow ∨ (f = .oob ∧ N ≤ d)) := by
    intro d e
    rw [CSpace.ends_writeSlot]
    exact ⟨fun hd => Or.inr ⟨rfl, hd⟩, fun hd => ⟨hd, fun k => CSpace.slot_put cs d k e hd, rfl⟩⟩
  cases b with
  | rootSched slot budget period =>
    unfold Boot.exec CSpace.setRootSched
    rw [ends_bind, CSpace.ends_takeObj]
    refine ⟨fun _ => Or.inl rfl, fun next _ => ?_⟩
    rw [CSpace.ends_writeSlot]
    exact ⟨fun hd => Or.inr ⟨rfl, hd⟩, fun hd => ⟨hd, fun k => CSpace.slot_put _ slot k _ hd, rfl⟩⟩
  | rootUntyped base frames | rootDomain slot domainId | notification slot notifId rights
  | sharedRo slot basePfn frames va | frame slot basePfn frames rights =>
    exact (key _ _).imp_ok fun _ _ h => ⟨h.1, h.2.1, h.2.2⟩

/-! ## Actions on one space -/

/-- What an operation returned and the state after it; `none` when it trapped. -/
def returned {σ α : Type} : EStateM.Result Fault σ α → Option (Except CapError α × σ)
  | .ok a s => some (.ok a, s)
  | .error (.err e) s => some (.error e, s)
  | .error _ _ => none

/-- An operation on one space.  The other party of a grant is any space. -/
inductive Action where
  | boot (b : Boot)
  | call (c : Call)
  | grantOut {M : Nat} (dst : CSpace M) (srcSlot dstSlot : Nat) (newRights : Rights) (badge : U64)
      (mode : GrantMode)
  | grantIn {M : Nat} (src : CSpace M) (srcSlot dstSlot : Nat) (newRights : Rights) (badge : U64)
      (mode : GrantMode)

namespace Action

variable {N : Nat}

def exec (cs : CSpace N) : Action → Option (Except CapError (Option U64) × CSpace N)
  | .boot b => (returned (b.exec cs)).map fun r => (r.1.map fun _ => none, r.2)
  | .call c => returned (c.exec cs)
  | .grantOut dst srcSlot dstSlot newRights badge mode =>
    (returned (grant srcSlot dstSlot newRights badge mode (cs, dst))).map fun r =>
    (r.1.map fun _ => none, r.2.1)
  | .grantIn src srcSlot dstSlot newRights badge mode =>
    (returned (grant srcSlot dstSlot newRights badge mode (src, cs))).map fun r =>
    (r.1.map fun _ => none, r.2.2)

/-- Installs go to valid, empty slots. -/
def Ready (cs : CSpace N) : Action → Prop
  | .boot b => b.slot < N ∧ ¬ cs.Live b.slot
  | _ => True

instance (cs : CSpace N) (a : Action) : Decidable (a.Ready cs) :=
  match a with
  | .boot b => inferInstanceAs (Decidable (b.slot < N ∧ ¬ cs.Live b.slot))
  | .call _ => isTrue trivial
  | .grantOut _ _ _ _ _ _ => isTrue trivial
  | .grantIn _ _ _ _ _ _ => isTrue trivial

end Action

/-- An action and what it returned. -/
structure Event where
  act : Action
  ret : Except CapError (Option U64)

def Step {N : Nat} (cs : CSpace N) (ev : Event) (cs' : CSpace N) : Prop :=
  ev.act.Ready cs ∧ ev.act.exec cs = some (ev.ret, cs')

/-- The step an action takes, if it is ready and does not trap. -/
def next {N : Nat} (cs : CSpace N) (a : Action) : Option (Event × CSpace N) :=
  if a.Ready cs then (a.exec cs).map fun r => (⟨a, r.1⟩, r.2) else none

theorem step_of_next (cs : CSpace N) (a : Action) (ev : Event) (cs' : CSpace N)
    (h : next cs a = some (ev, cs')) : Step cs ev cs' := by
  unfold next at h
  split at h
  · next hready =>
    obtain ⟨r, hr, he⟩ := Option.map_eq_some_iff.mp h
    cases he
    exact ⟨hready, hr⟩
  · cases h

/-- The effect of an action that returned a value. -/
inductive Effect {N : Nat} (cs : CSpace N) : Action → Option U64 → CSpace N → Prop
  | boot {b cs'} : ¬ cs.Live b.slot → Booted cs b cs' → Effect cs (.boot b) none cs'
  | call {c v cs'} : c.exec cs = .ok v cs' → CallEffect cs c v cs' → Effect cs (.call c) v cs'
  | grantOut {M : Nat} {dst dst' : CSpace M} {srcSlot dstSlot newRights badge mode cs'} :
      Granted cs srcSlot dst dstSlot newRights badge mode cs' dst' →
      Effect cs (.grantOut dst srcSlot dstSlot newRights badge mode) none cs'
  | grantIn {M : Nat} {src src' : CSpace M} {srcSlot dstSlot newRights badge mode cs'} :
      Granted src srcSlot cs dstSlot newRights badge mode src' cs' →
      Effect cs (.grantIn src srcSlot dstSlot newRights badge mode) none cs'

theorem returned_eq_ok (r : EStateM.Result Fault σ α) (a : α) (s : σ) :
    returned r = some (.ok a, s) ↔ r = .ok a s := by
  cases r with
  | ok b t => simp [returned]
  | error f t => cases f <;> simp [returned]

theorem returned_eq_error (r : EStateM.Result Fault σ α) (e : CapError) (s : σ) :
    returned r = some (.error e, s) ↔ r = .error (.err e) s := by
  cases r with
  | ok b t => simp [returned]
  | error f t => cases f <;> simp [returned]

/-- A result whose value was dropped. -/
theorem returned_map {τ : Type} (r : EStateM.Result Fault σ α) (g : σ → τ)
    (ret : Except CapError (Option U64)) (t : τ)
    (h : (returned r).map (fun p => (p.1.map fun _ => none, g p.2)) = some (ret, t)) :
    (ret = .ok none ∧ ∃ a s, r = .ok a s ∧ t = g s) ∨
      (∃ e s, ret = .error e ∧ r = .error (.err e) s ∧ t = g s) := by
  obtain ⟨⟨x, s⟩, hr, hx⟩ := Option.map_eq_some_iff.mp h
  cases hx
  cases x with
  | ok a => exact Or.inl ⟨rfl, a, s, (returned_eq_ok r a s).mp hr, rfl⟩
  | error e => exact Or.inr ⟨e, s, rfl, (returned_eq_error r e s).mp hr, rfl⟩

/-- **Steps, from any state.**  An action that returned a value had its effect; one that
refused had none. -/
theorem step_spec {cs cs' : CSpace N} {ev : Event} (h : Step cs ev cs') :
    (∃ v, ev.ret = .ok v ∧ Effect cs ev.act v cs') ∨ (∃ e, ev.ret = .error e ∧ cs' = cs) := by
  obtain ⟨act, ret⟩ := ev
  obtain ⟨hready, hexec⟩ := h
  cases act with
  | boot b =>
    rcases returned_map _ id ret cs' hexec with ⟨rfl, a, s, hr, rfl⟩ | ⟨e, s, rfl, hr, rfl⟩
    · exact Or.inl ⟨none, rfl, .boot hready.2 ((boot_spec b cs).ok hr)⟩
    · rcases (boot_spec b cs).error hr with h | ⟨h, -⟩ <;> cases h
  | call c =>
    have hexec' : returned (c.exec cs) = some (ret, cs') := hexec
    cases ret with
    | ok v =>
      have hok := (returned_eq_ok _ v cs').mp hexec'
      exact Or.inl ⟨v, rfl, .call hok ((call_spec c cs).ok hok)⟩
    | error e =>
      rcases (call_spec c cs).error ((returned_eq_error _ e cs').mp hexec') with h | h | h
      · exact Or.inr ⟨e, rfl, h.2⟩
      · cases h
      · cases h.1
  | grantOut dst srcSlot dstSlot newRights badge mode =>
    rcases returned_map _ Prod.fst ret cs' hexec with ⟨rfl, a, s, hr, rfl⟩ | ⟨e, s, rfl, hr, rfl⟩
    · exact Or.inl ⟨none, rfl, .grantOut ((grant_spec _ _ _ _ _ _ _).ok hr)⟩
    · exact Or.inr ⟨e, rfl, by rw [((grant_spec _ _ _ _ _ _ _).error hr).2]⟩
  | grantIn src srcSlot dstSlot newRights badge mode =>
    rcases returned_map _ Prod.snd ret cs' hexec with ⟨rfl, a, s, hr, rfl⟩ | ⟨e, s, rfl, hr, rfl⟩
    · exact Or.inl ⟨none, rfl, .grantIn ((grant_spec _ _ _ _ _ _ _).ok hr)⟩
    · exact Or.inr ⟨e, rfl, by rw [((grant_spec _ _ _ _ _ _ _).error hr).2]⟩

/-! ## Refusals -/

/-- **All or nothing.**  A call that returns an error leaves its space as it was, table,
object counter and zeroed frames; a refused grant leaves both spaces as they were. -/
theorem refusal_changes_nothing {N M : Nat} (cs : CSpace N) (other : CSpace M) :
    (∀ (c : Call) (e : CapError) (t : CSpace N), c.exec cs = .error (.err e) t → t = cs) ∧
    (∀ (srcSlot dstSlot : Nat) (newRights : Rights) (badge : U64) (mode : GrantMode) (e : CapError)
      (s : CSpace N × CSpace M), grant srcSlot dstSlot newRights badge mode (cs, other) = .error
        (.err e) s →
      s = (cs, other)) := by
  refine ⟨fun c e t hexec => ?_, fun srcSlot dstSlot newRights badge mode e s hexec => ?_⟩
  · rcases (call_spec c cs).error hexec with h | h | h
    · exact h.2
    · cases h
    · cases h.1
  · exact ((grant_spec cs srcSlot other dstSlot newRights badge mode).error hexec).2

/-- A space with its root `Untyped` and a `Sched`. -/
def rootsOnly : CSpace 3 :=
  (CSpace.new.put 0 ⟨Boot.cap 1 (.rootUntyped 0 64), NIL⟩).put 2 ⟨Boot.cap 1 (.rootSched 2 1000 10),
    NIL⟩

/-- The second object of a `retype` finds its slot taken, and a grant its destination full. -/
theorem refusal_changes_nothing_rootsOnly :
    (∃ t, (Call.retype 0 .frame 1 2 1).exec rootsOnly = .error (.err .slotOccupied) t ∧
      t = rootsOnly) ∧
    (∃ s, grant 2 0 Rights.DERIVE 0 .move (rootsOnly, rootsOnly) = .error (.err .slotOccupied) s ∧
      s = (rootsOnly, rootsOnly)) := by
  have hretype : (Call.retype 0 .frame 1 2 1).exec rootsOnly = .error (.err .slotOccupied)
    rootsOnly := rfl
  have hgrant : grant 2 0 Rights.DERIVE 0 .move (rootsOnly, rootsOnly) =
      .error (.err .slotOccupied) (rootsOnly, rootsOnly) := rfl
  have h := refusal_changes_nothing rootsOnly rootsOnly
  exact ⟨⟨_, hretype, h.1 _ _ _ hretype⟩, ⟨_, hgrant, h.2 _ _ _ _ _ _ _ hgrant⟩⟩

end Praesidium
