import Mathlib.Logic.Function.Basic
import Praesidium.CapCore.CSpaceDestroy
import Praesidium.Kernel.Loader
import Praesidium.Kernel.Syscall

/-!
Userspace processes in the kernel: IPC over the rendezvous, and signals.

The kernel state holds a capability space for each process, the one rendezvous `Rdv`
and the one notification `Notify`, and for each process the point of `syscall` at which
it stands (`Pc`).  A step is one critical section: from the trap, or from one release of
a lock, to the next.  The blocked operations of the source are loops that take the lock,
look and yield; each look is a step, and any process may go next.

`Kernel.next` computes the step; `Does σ e σ'` says what it can do, case by case:

    σ.next i = some (e, σ') → Does σ e σ'        (next_does)

Where the source halts (`fatal`, a trap in the capability space) there is no step.
-/

namespace Praesidium

open Fallible

namespace User

/-- A process; `caller as u64` keeps it as it is. -/
abbrev ProcId := U64

/-- Where RECV mints the `Reply`. -/
def REPLY_SLOT : Nat := 3

/-- The object id of the notification that the kernel itself raises. -/
def NOTIF_ID : U64 := 0x00907117

/-- The exit code of a killed process, `u64::MAX`. -/
def KILLED : U64 := 18446744073709551615

/-- The rendezvous: one for all endpoints. -/
structure Rdv where
  caller : Option ProcId
  msg : U64
  reply : Option U64
  deriving DecidableEq

/-- The notification: one for all notification objects. -/
structure Notify where
  signaled : Bool
  waiter : Option ProcId
  deriving DecidableEq

/-- Where a process stands: in its own code, or at a critical section of a syscall. -/
inductive Pc where
  | user
  | callPost (msg : U64)
  | callPoll
  | recvPoll
  | recvMint (caller : ProcId) (msg : U64)
  | replySet (word : U64)
  | waitRegister
  | waitPoll
  | signalRaise
  | retired (code : U64)
  deriving DecidableEq

structure Kernel where
  cspaces : ProcId → Option (CSpace PROCESS_SLOTS)
  pc : ProcId → Pc
  rdv : Rdv
  notify : Notify

/-- What a step did.  `entered p inv o`: the check of `inv` passed on an object `o`. -/
inductive Event where
  | entered (p : ProcId) (inv : Invocation) (obj : U64)
  | refused (p : ProcId) (inv : Invocation)
  | answered (p : ProcId) (inv : Invocation) (v : U64)
  | emitted (p : ProcId) (v : U64)
  | exited (p : ProcId) (code : U64)
  | posted (p : ProcId) (msg : U64)
  | callYield (p : ProcId)
  | returned (p : ProcId) (v : U64)
  | recvYield (p : ProcId)
  | took (p caller : ProcId) (msg : U64)
  | minted (p caller : ProcId) (msg : U64)
  | unminted (p caller : ProcId)
  | consumed (p : ProcId) (cptr : U32) (caller : ProcId) (word : U64)
  | replied (p : ProcId) (word : U64)
  | registered (p : ProcId)
  | waitYield (p : ProcId)
  | woke (p : ProcId)
  | raised (p : ProcId)
  | kernelRaised
  | faulted (p : ProcId)
  deriving DecidableEq

/-- Which step is next: a process traps with an invocation, goes on inside the kernel or
faults, or the kernel raises the notification. -/
inductive Input where
  | trap (p : ProcId) (inv : Invocation)
  | resume (p : ProcId)
  | fault (p : ProcId)
  | raise

/-! ## The step function -/

namespace Kernel

def goto (σ : Kernel) (p : ProcId) (pc : Pc) : Kernel := { σ with pc := Function.update σ.pc p pc }

def setSpace (σ : Kernel) (p : ProcId) (cs : CSpace PROCESS_SLOTS) : Kernel :=
  { σ with cspaces := Function.update σ.cspaces p (some cs) }

def retire (σ : Kernel) (p : ProcId) (code : U64) : Kernel := σ.goto p (.retired code)

/-- `ipc_check`, and then on to the operation's first critical section. -/
def ipcCheck (σ : Kernel) (p : ProcId) (inv : Invocation) (cs : CSpace PROCESS_SLOTS) (next : Pc) :
    Event × Kernel :=
  match invoke cs inv with
  | .ok _ => (.entered p inv (cs.slot inv.cptr.toNat).cap.objref, σ.goto p next)
  | .error _ => (.refused p inv, σ.retire p KILLED)

/-- The first section of `ipc_reply`: consume the `Reply`. -/
def ipcReply (σ : Kernel) (p : ProcId) (inv : Invocation) (cs : CSpace PROCESS_SLOTS) :
    Option (Event × Kernel) :=
  match CSpace.consumeReply inv.cptr.toNat cs with
  | .ok caller cs' =>
    some (.consumed p inv.cptr caller inv.word, (σ.setSpace p cs').goto p (.replySet inv.word))
  | .error (.err _) cs' => some (.refused p inv, (σ.setSpace p cs').retire p KILLED)
  | .error _ _ => none

/-- The operations that `invoke` answers. -/
def dispatch (σ : Kernel) (p : ProcId) (inv : Invocation) (cs : CSpace PROCESS_SLOTS) : Event ×
    Kernel :=
  match invoke cs inv with
  | .ok v =>
    if inv.op = op.DEBUG_EMIT then (.emitted p v, σ)
    else if inv.op = op.PROC_EXIT then (.exited p v, σ.retire p v)
    else (.answered p inv v, σ)
  | .error _ => (.refused p inv, σ.retire p KILLED)

/-- `syscall`, up to its first yield point or lock. -/
def syscall (σ : Kernel) (p : ProcId) (inv : Invocation) (cs : CSpace PROCESS_SLOTS) :
    Option (Event × Kernel) :=
  if inv.op = op.ENDPOINT_CALL then some (σ.ipcCheck p inv cs (.callPost inv.word))
  else if inv.op = op.ENDPOINT_RECV then some (σ.ipcCheck p inv cs .recvPoll)
  else if inv.op = op.ENDPOINT_REPLY then σ.ipcReply p inv cs
  else if inv.op = op.NOTIFY_WAIT then some (σ.ipcCheck p inv cs .waitRegister)
  else if inv.op = op.NOTIFY_SIGNAL then some (σ.ipcCheck p inv cs .signalRaise)
  else some (σ.dispatch p inv cs)

/-- The second half of `ipc_recv`: mint the `Reply` that names the caller. -/
def recvMint (σ : Kernel) (p caller : ProcId) (msg : U64) (cs : CSpace PROCESS_SLOTS) :
    Option (Event × Kernel) :=
  match CSpace.mintReply REPLY_SLOT caller 0 cs with
  | .ok _ cs' => some (.minted p caller msg, (σ.setSpace p cs').goto p .user)
  | .error (.err _) cs' => some (.unminted p caller, (σ.setSpace p cs').retire p KILLED)
  | .error _ _ => none

/-- One critical section of the syscall that `p` is in. -/
def resume (σ : Kernel) (p : ProcId) : Option (Event × Kernel) :=
  match σ.pc p with
  | .callPost msg => some (.posted p msg, { σ with rdv := ⟨some p, msg, none⟩ }.goto p .callPoll)
  | .callPoll =>
    match σ.rdv.reply with
    | some v =>
      some (.returned p v, { σ with rdv := { σ.rdv with reply := none, caller := none } }.goto
      p .user)
    | none => some (.callYield p, σ)
  | .recvPoll =>
    match σ.rdv.caller with
    | some c => some (.took p c σ.rdv.msg,
        { σ with rdv := { σ.rdv with caller := none } }.goto p (.recvMint c σ.rdv.msg))
    | none => some (.recvYield p, σ)
  | .recvMint c msg => (σ.cspaces p).bind (σ.recvMint p c msg)
  | .replySet word =>
    some (.replied p word, { σ with rdv := { σ.rdv with reply := some word } }.goto p .user)
  | .waitRegister =>
    some (.registered p, { σ with notify := { σ.notify with waiter := some p } }.goto p .waitPoll)
  | .waitPoll =>
    if σ.notify.signaled then some (.woke p, { σ with notify := ⟨false, none⟩ }.goto p .user)
    else some (.waitYield p, σ)
  | .signalRaise =>
    some (.raised p, { σ with notify := { σ.notify with signaled := true } }.goto p .user)
  | .user => none
  | .retired _ => none

def next (σ : Kernel) : Input → Option (Event × Kernel)
  | .trap p inv => if σ.pc p = .user then (σ.cspaces p).bind (σ.syscall p inv) else none
  | .resume p => σ.resume p
  | .fault p => if σ.pc p = .user then some (.faulted p, σ.retire p KILLED) else none
  | .raise => some (.kernelRaised, { σ with notify := { σ.notify with signaled := true } })

end Kernel

def Step (σ : Kernel) (e : Event) (σ' : Kernel) : Prop := ∃ i, σ.next i = some (e, σ')

theorem step_of_next (σ : Kernel) (i : Input) (e : Event) (σ' : Kernel)
    (h : σ.next i = some (e, σ')) : Step σ e σ' :=
  ⟨i, h⟩

/-! ## What a step can do -/

/-- Where the check of an invocation leads. -/
def firstSection (inv : Invocation) : Option Pc :=
  if inv.op = op.ENDPOINT_CALL then some (.callPost inv.word)
  else if inv.op = op.ENDPOINT_RECV then some .recvPoll
  else if inv.op = op.NOTIFY_WAIT then some .waitRegister
  else if inv.op = op.NOTIFY_SIGNAL then some .signalRaise
  else none

inductive Does (σ : Kernel) : Event → Kernel → Prop
  | entered {p inv cs v pc} : σ.pc p = .user → σ.cspaces p = some cs → invoke cs inv = .ok v →
      firstSection inv = some pc → Does σ (.entered p inv (cs.slot inv.cptr.toNat).cap.objref)
      (σ.goto p pc)
  | refused {p inv} : σ.pc p = .user → Does σ (.refused p inv) (σ.retire p KILLED)
  | answered {p inv v} : σ.pc p = .user → Does σ (.answered p inv v) σ
  | emitted {p v} : σ.pc p = .user → Does σ (.emitted p v) σ
  | exited {p v} : σ.pc p = .user → Does σ (.exited p v) (σ.retire p v)
  | consumed {p cs cs'} {inv : Invocation} : σ.pc p = .user → σ.cspaces p = some cs →
      cs.Live inv.cptr.toNat →
      (cs.slot inv.cptr.toNat).cap.capType = .reply → CSpace.Destroyed cs inv.cptr.toNat cs' →
      Does σ (.consumed p inv.cptr (cs.slot inv.cptr.toNat).cap.objref inv.word)
        ((σ.setSpace p cs').goto p (.replySet inv.word))
  | posted {p msg} : σ.pc p = .callPost msg →
      Does σ (.posted p msg) ({ σ with rdv := ⟨some p, msg, none⟩ }.goto p .callPoll)
  | callYield {p} : σ.pc p = .callPoll → σ.rdv.reply = none → Does σ (.callYield p) σ
  | returned {p v} : σ.pc p = .callPoll → σ.rdv.reply = some v →
      Does σ (.returned p v) ({ σ with rdv := { σ.rdv with reply := none, caller := none } }.goto
      p .user)
  | recvYield {p} : σ.pc p = .recvPoll → σ.rdv.caller = none → Does σ (.recvYield p) σ
  | took {p c} : σ.pc p = .recvPoll → σ.rdv.caller = some c →
      Does σ (.took p c σ.rdv.msg) ({ σ with rdv := { σ.rdv with caller := none } }.goto p
      (.recvMint c σ.rdv.msg))
  | minted {p c msg cs} : σ.pc p = .recvMint c msg → σ.cspaces p = some cs →
      REPLY_SLOT < PROCESS_SLOTS → ¬ cs.Live REPLY_SLOT → Does σ (.minted p c msg)
        ((σ.setSpace p (cs.put REPLY_SLOT ⟨⟨.reply, Rights.empty, c, 0, 0, 0, 0⟩, NIL⟩)).goto
        p .user)
  | unminted {p c msg} : σ.pc p = .recvMint c msg → Does σ (.unminted p c) (σ.retire p KILLED)
  | replied {p word} : σ.pc p = .replySet word →
      Does σ (.replied p word) ({ σ with rdv := { σ.rdv with reply := some word } }.goto p .user)
  | registered {p} : σ.pc p = .waitRegister →
      Does σ (.registered p) ({ σ with notify := { σ.notify with waiter := some p } }.goto p
      .waitPoll)
  | waitYield {p} : σ.pc p = .waitPoll → σ.notify.signaled = false → Does σ (.waitYield p) σ
  | woke {p} : σ.pc p = .waitPoll → σ.notify.signaled = true →
      Does σ (.woke p) ({ σ with notify := ⟨false, none⟩ }.goto p .user)
  | raised {p} : σ.pc p = .signalRaise →
      Does σ (.raised p) ({ σ with notify := { σ.notify with signaled := true } }.goto p .user)
  | kernelRaised : Does σ .kernelRaised { σ with notify := { σ.notify with signaled := true } }
  | faulted {p} : σ.pc p = .user → Does σ (.faulted p) (σ.retire p KILLED)

variable {σ σ' : Kernel} {e : Event} {p : ProcId} {inv : Invocation} {cs : CSpace PROCESS_SLOTS}

theorem setSpace_same (h : σ.cspaces p = some cs) : σ.setSpace p cs = σ := by
  unfold Kernel.setSpace
  rw [← h, Function.update_eq_self]

theorem recvMint_does {c : ProcId} {msg : U64} (hpc : σ.pc p = .recvMint c msg)
    (hcs : σ.cspaces p = some cs) (h : σ.recvMint p c msg cs = some (e, σ')) : Does σ e σ' := by
  unfold Kernel.recvMint at h
  split at h
  · next u cs' hc =>
    cases h
    obtain ⟨h1, h2, rfl⟩ := (CSpace.mintReply_spec cs REPLY_SLOT c 0).ok hc
    exact .minted hpc hcs h1 h2
  · next f cs' hc =>
    cases h
    obtain ⟨-, rfl⟩ := (CSpace.mintReply_spec cs REPLY_SLOT c 0).error hc
    rw [setSpace_same hcs]
    exact .unminted hpc
  · cases h

theorem dispatch_does (hpc : σ.pc p = .user) (h : σ.dispatch p inv cs = (e, σ')) : Does σ e σ' := by
  unfold Kernel.dispatch at h
  split at h
  · split_ifs at h with h1 h2
    · cases h
      exact .emitted hpc
    · cases h
      exact .exited hpc
    · cases h
      exact .answered hpc
  · cases h
    exact .refused hpc

section

variable (hpc : σ.pc p = .user) (hcs : σ.cspaces p = some cs)

include hpc hcs

theorem ipcCheck_does {pc : Pc} (hpc' : firstSection inv = some pc)
    (h : σ.ipcCheck p inv cs pc = (e, σ')) : Does σ e σ' := by
  unfold Kernel.ipcCheck at h
  split at h
  · next v hv =>
    cases h
    exact .entered hpc hcs hv hpc'
  · cases h
    exact .refused hpc

theorem ipcReply_does (h : σ.ipcReply p inv cs = some (e, σ')) :
    Does σ e σ' := by
  unfold Kernel.ipcReply at h
  split at h
  · next c cs' hc =>
    cases h
    obtain ⟨h1, h2, rfl, h3⟩ := (CSpace.consumeReply_spec cs inv.cptr.toNat).ok hc
    exact .consumed hpc hcs h1 h2 h3
  · next f cs' hc =>
    cases h
    -- a refusal leaves the space as it was
    rcases (CSpace.consumeReply_spec cs inv.cptr.toNat).error hc with ⟨-, rfl⟩ | ⟨hf, -⟩
    · rw [setSpace_same hcs]
      exact .refused hpc
    · cases hf
  · cases h

theorem syscall_does (h : σ.syscall p inv cs = some (e, σ')) :
    Does σ e σ' := by
  unfold Kernel.syscall at h
  split_ifs at h with h1 h2 h3 h4 h5
  · exact ipcCheck_does hpc hcs (by rw [firstSection, if_pos h1]) (Option.some.inj h)
  · exact ipcCheck_does hpc hcs (by rw [firstSection, if_neg h1, if_pos h2]) (Option.some.inj h)
  · exact ipcReply_does hpc hcs h
  · exact ipcCheck_does hpc hcs (by rw [firstSection, if_neg h1, if_neg h2, if_pos h4])
      (Option.some.inj h)
  · exact ipcCheck_does hpc hcs (by rw [firstSection, if_neg h1, if_neg h2, if_neg h4, if_pos h5])
      (Option.some.inj h)
  · exact dispatch_does hpc (Option.some.inj h)

end

theorem resume_does (h : σ.resume p = some (e, σ')) : Does σ e σ' := by
  unfold Kernel.resume at h
  cases hpc : σ.pc p with
  | callPost msg =>
    simp only [hpc, Option.some.injEq] at h
    cases h
    exact .posted hpc
  | callPoll =>
    cases hr : σ.rdv.reply with
    | some v =>
      simp only [hpc, hr, Option.some.injEq] at h
      cases h
      exact .returned hpc hr
    | none =>
      simp only [hpc, hr, Option.some.injEq] at h
      cases h
      exact .callYield hpc hr
  | recvPoll =>
    cases hr : σ.rdv.caller with
    | some c =>
      simp only [hpc, hr, Option.some.injEq] at h
      cases h
      exact .took hpc hr
    | none =>
      simp only [hpc, hr, Option.some.injEq] at h
      cases h
      exact .recvYield hpc hr
  | recvMint c msg =>
    simp only [hpc] at h
    obtain ⟨cs, hcs, h⟩ := Option.bind_eq_some_iff.mp h
    exact recvMint_does hpc hcs h
  | replySet word =>
    simp only [hpc, Option.some.injEq] at h
    cases h
    exact .replied hpc
  | waitRegister =>
    simp only [hpc, Option.some.injEq] at h
    cases h
    exact .registered hpc
  | waitPoll =>
    simp only [hpc] at h
    split at h
    · next hs =>
      cases h
      exact .woke hpc hs
    · next hs =>
      cases h
      exact .waitYield hpc (by simpa using hs)
  | signalRaise =>
    simp only [hpc, Option.some.injEq] at h
    cases h
    exact .raised hpc
  | user => simp [hpc] at h
  | retired code => simp [hpc] at h

/-- **Steps.** -/
theorem next_does (i : Input) (h : σ.next i = some (e, σ')) : Does σ e σ' := by
  cases i with
  | trap p inv =>
    simp only [Kernel.next] at h
    split at h
    · next hpc =>
      obtain ⟨cs, hcs, h⟩ := Option.bind_eq_some_iff.mp h
      exact syscall_does hpc hcs h
    · cases h
  | resume p => exact resume_does h
  | fault p =>
    simp only [Kernel.next] at h
    split at h
    · next hpc =>
      cases h
      exact .faulted hpc
    · cases h
  | raise =>
    cases h
    exact .kernelRaised

theorem Step.does (h : Step σ e σ') : Does σ e σ' := by
  obtain ⟨i, hi⟩ := h
  exact next_does i hi

end User

end Praesidium
