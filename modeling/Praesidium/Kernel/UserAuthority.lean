import Praesidium.Kernel.UserConfined

/-!
The authority behind the effects of a syscall.

A call is dispatched by a trap and goes on, one critical section at a time, until the process is
back in its own code or retired; any process may step in between (`InCall`).  What the kernel does
on behalf of the process in that call are the `CallStep`s.

The check at the dispatch is the only one.  An operation with an effect gets past it with the
capability that the operation needs (`trap_dispatched`), and every later section belongs to the
operation that was checked (`InCall.stage`):

    CallStep σ p inv τ e τ' → no effect without Authorised cs inv     (no_ambient_authority)
-/

namespace Praesidium

namespace User

/-- The object type and the right behind each operation with an effect. -/
def authority (o : U16) : Option (CapType × Rights) :=
  if o = op.ENDPOINT_CALL then some (.endpoint, Rights.SEND)
  else if o = op.ENDPOINT_RECV then some (.endpoint, Rights.RECV)
  else if o = op.ENDPOINT_REPLY then some (.reply, Rights.empty)
  else if o = op.NOTIFY_WAIT then some (.notification, Rights.WAIT)
  else if o = op.NOTIFY_SIGNAL then some (.notification, Rights.SIGNAL)
  else none

/-- The invoked slot holds a capability of the operation's type with the operation's right. -/
def Authorised (cs : CSpace PROCESS_SLOTS) (inv : Invocation) : Prop :=
  ∃ type right, authority inv.op = some (type, right) ∧ cs.Live inv.cptr.toNat ∧
    (cs.slot inv.cptr.toNat).cap.capType = type ∧
    (cs.slot inv.cptr.toNat).cap.rights.contains right = true

/-- The states of the call that `p` dispatched in `σ`. -/
inductive InCall (σ : Kernel) (p : ProcId) (inv : Invocation) : Kernel → Prop
  | dispatched {e τ} : σ.next (.trap p inv) = some (e, τ) → InCall σ p inv τ
  | step {τ i e τ'} : InCall σ p inv τ → τ.pc p ≠ .user → τ.next i = some (e, τ') →
      InCall σ p inv τ'

/-- A step of `syscall` on behalf of `p`. -/
inductive CallStep (σ : Kernel) (p : ProcId) (inv : Invocation) : Kernel → Event → Kernel → Prop
  | trap {e τ} : σ.next (.trap p inv) = some (e, τ) → CallStep σ p inv σ e τ
  | resume {τ e τ'} : InCall σ p inv τ → τ.pc p ≠ .user → τ.next (.resume p) = some (e, τ') →
      CallStep σ p inv τ e τ'

/-- The word that a step returns to the process. -/
def Event.word : Event → Option U64
  | .answered _ _ v => some v
  | .emitted _ _ => some 0
  | .returned _ v => some v
  | .minted _ _ msg => some msg
  | .replied _ _ => some 0
  | .woke _ => some 0
  | .raised _ => some 0
  | _ => none

/-- The word of an operation that hands over no message. -/
def Invocation.result (inv : Invocation) (cap : RawCap) : U64 :=
  if inv.op ∈ [op.DEBUG_EMIT, op.ENDPOINT_REPLY, op.NOTIFY_WAIT, op.NOTIFY_SIGNAL] then 0
    else inv.value cap

variable {σ τ τ' : Kernel} {e : Event} {p q : ProcId} {inv : Invocation} {cs : CSpace PROCESS_SLOTS}

/-! ## The dispatch -/

/-- What the trap leads to. -/
inductive Dispatched (σ : Kernel) (p : ProcId) (inv : Invocation) (cs : CSpace PROCESS_SLOTS) :
    Event → Kernel → Prop
  | entered {pc obj} : Authorised cs inv → firstSection inv = some pc →
      Dispatched σ p inv cs (.entered p inv obj) (σ.goto p pc)
  | consumed {cs' caller} : Authorised cs inv → inv.op = op.ENDPOINT_REPLY →
      Dispatched σ p inv cs (.consumed p inv.cptr caller inv.word)
      ((σ.setSpace p cs').goto p (.replySet inv.word))
  | refused : Dispatched σ p inv cs (.refused p inv) (σ.retire p KILLED)
  | answered {v} : inv.op ≠ op.ENDPOINT_CALL → inv.op ≠ op.ENDPOINT_RECV →
      v = Invocation.result inv (cs.slot inv.cptr.toNat).cap →
      Dispatched σ p inv cs (.answered p inv v) σ
  | emitted {v} : inv.op = op.DEBUG_EMIT → Dispatched σ p inv cs (.emitted p v) σ
  | exited {v} : Dispatched σ p inv cs (.exited p v) (σ.retire p v)

variable {v : U64} {type : CapType} {right : Rights} {pc : Pc}

theorem authorised_of_invoke (h : invoke cs inv = .ok v) (hn : needs inv.op = some (type, right))
    (ha : authority inv.op = some (type, right)) : Authorised cs inv := by
  obtain ⟨hl, hneeds⟩ := invoke_needs h
  obtain ⟨ht, hr⟩ := hneeds type right hn
  exact ⟨type, right, ha, hl, ht, hr⟩

theorem ipcCheck_dispatched (hfirst : firstSection inv = some pc)
    (hn : needs inv.op = some (type, right)) (ha : authority inv.op = some (type, right)) :
    Dispatched σ p inv cs (σ.ipcCheck p inv cs pc).1 (σ.ipcCheck p inv cs pc).2 := by
  unfold Kernel.ipcCheck
  split
  · next v hv => exact .entered (authorised_of_invoke hv hn ha) hfirst
  · exact .refused

theorem ipcReply_dispatched (hcs : σ.cspaces p = some cs) (hop : inv.op = op.ENDPOINT_REPLY)
    (h : σ.ipcReply p inv cs = some (e, τ)) : Dispatched σ p inv cs e τ := by
  unfold Kernel.ipcReply at h
  split at h
  · next caller cs' hc =>
    cases h
    obtain ⟨hl, ht, _, _⟩ := (CSpace.consumeReply_spec cs inv.cptr.toNat).ok hc
    refine .consumed ⟨.reply, Rights.empty, by rw [hop]; rfl, hl, ht, ?_⟩ hop
    unfold Rights.contains Rights.empty
    simp
  · next f cs' hc =>
    cases h
    rcases (CSpace.consumeReply_spec cs inv.cptr.toNat).error hc with ⟨-, rfl⟩ | ⟨hf, -⟩
    · rw [setSpace_same hcs]
      exact .refused
    · cases hf
  · cases h

theorem dispatch_dispatched (h1 : inv.op ≠ op.ENDPOINT_CALL) (h2 : inv.op ≠ op.ENDPOINT_RECV)
    (h3 : inv.op ≠ op.ENDPOINT_REPLY) (h4 : inv.op ≠ op.NOTIFY_WAIT)
    (h5 : inv.op ≠ op.NOTIFY_SIGNAL) :
    Dispatched σ p inv cs (σ.dispatch p inv cs).1 (σ.dispatch p inv cs).2 := by
  unfold Kernel.dispatch
  split
  · next v hv =>
    split_ifs with h6 h7
    · exact .emitted h6
    · exact .exited
    · refine .answered h1 h2 ?_
      unfold Invocation.result
      rw [if_neg (by simp [h3, h4, h5, h6])]
      exact invoke_value hv
  · exact .refused

/-- **The check.** -/
theorem trap_dispatched (hcs : σ.cspaces p = some cs) (h : σ.next (.trap p inv) = some (e, τ)) :
    σ.pc p = .user ∧ Dispatched σ p inv cs e τ := by
  simp only [Kernel.next] at h
  split at h
  case isFalse => cases h
  case isTrue hpc =>
  refine ⟨hpc, ?_⟩
  rw [hcs] at h
  have pair : ∀ {r : Event × Kernel}, some r = some (e, τ) → Dispatched σ p inv cs r.1 r.2 →
    Dispatched σ p inv cs e τ := by
    rintro r ⟨⟩ hd
    exact hd
  change σ.syscall p inv cs = some (e, τ) at h
  unfold Kernel.syscall at h
  split_ifs at h with h1 h2 h3 h4 h5
  · exact pair h (ipcCheck_dispatched (by rw [firstSection, if_pos h1]) (by rw [h1]; rfl)
      (by rw [h1]; rfl))
  · exact pair h (ipcCheck_dispatched (by rw [firstSection, if_neg h1, if_pos h2]) (by rw [h2]; rfl)
      (by rw [h2]; rfl))
  · exact ipcReply_dispatched hcs h3 h
  · exact pair h (ipcCheck_dispatched (by rw [firstSection, if_neg h1, if_neg h2, if_pos h4])
      (by rw [h4]; rfl) (by rw [h4]; rfl))
  · exact pair h (ipcCheck_dispatched
      (by rw [firstSection, if_neg h1, if_neg h2, if_neg h4, if_pos h5]) (by rw [h5]; rfl)
      (by rw [h5]; rfl))
  · exact pair h (dispatch_dispatched h1 h2 h3 h4 h5)

/-! ## Steps of others -/

/-- A step changes the space and the place of nobody but its actor. -/
theorem Does.others (hd : Does σ e τ) (hq : e.actor ≠ some q) :
    τ.cspaces q = σ.cspaces q ∧ τ.pc q = σ.pc q := by
  have move : ∀ {p : ProcId}, (some p ≠ some q) → ∀ (ρ : Kernel) (pc : Pc),
    ρ.cspaces q = σ.cspaces q → ρ.pc q = σ.pc q →
      (ρ.goto p pc).cspaces q = σ.cspaces q ∧ (ρ.goto p pc).pc q = σ.pc q := by
    intro p hp ρ pc hcs hpc
    refine ⟨hcs, ?_⟩
    rw [goto_pc, if_neg fun hc => hp (congrArg some hc.symm)]
    exact hpc
  have space : ∀ {p : ProcId}, (some p ≠ some q) →
    ∀ cs', (σ.setSpace p cs').cspaces q = σ.cspaces q := fun hp cs' =>
    Function.update_of_ne (fun hc => hp (congrArg some hc.symm)) _ _
  cases hd with
  | answered | emitted | callYield | recvYield | waitYield | kernelRaised => exact ⟨rfl, rfl⟩
  | consumed => exact move hq _ _ (space hq _) rfl
  | minted => exact move hq _ _ (space hq _) rfl
  | _ => exact move hq _ _ rfl rfl

/-! ## Inside a call -/

/-- The sections of an operation. -/
def Section (inv : Invocation) : Pc → Prop
  | .callPost _ => inv.op = op.ENDPOINT_CALL
  | .callPoll => inv.op = op.ENDPOINT_CALL
  | .recvPoll => inv.op = op.ENDPOINT_RECV
  | .recvMint _ _ => inv.op = op.ENDPOINT_RECV
  | .replySet _ => inv.op = op.ENDPOINT_REPLY
  | .waitRegister => inv.op = op.NOTIFY_WAIT
  | .waitPoll => inv.op = op.NOTIFY_WAIT
  | .signalRaise => inv.op = op.NOTIFY_SIGNAL
  | .user => False
  | .retired _ => False

/-- Where the process stands: at the end of the call, or in a section of the operation it was
authorised for. -/
inductive Stage (inv : Invocation) (cs : CSpace PROCESS_SLOTS) (pc : Pc) : Prop
  | back : pc = .user → Stage inv cs pc
  | retired (code : U64) : pc = .retired code → Stage inv cs pc
  | inside : Authorised cs inv → Section inv pc → Stage inv cs pc

/-- In this call `p` found the message `msg` of `c` in the rendezvous. -/
def Found (σ : Kernel) (p : ProcId) (inv : Invocation) (c : ProcId) (msg : U64) : Prop :=
  ∃ τ, InCall σ p inv τ ∧ τ.pc p = .recvPoll ∧ τ.rdv.caller = some c ∧ τ.rdv.msg = msg

theorem firstSection_section (h : firstSection inv = some pc) : Section inv pc := by
  unfold firstSection at h
  split_ifs at h with h1 h2 h3 h4
  · cases h
    exact h1
  · cases h
    exact h2
  · cases h
    exact h3
  · cases h
    exact h4

theorem goto_self (σ : Kernel) (p : ProcId) (pc : Pc) : (σ.goto p pc).pc p = pc := by
  rw [goto_pc, if_pos rfl]

theorem Dispatched.stage (h : Dispatched σ p inv cs e τ) (hpc : σ.pc p = .user) :
    Stage inv cs (τ.pc p) := by
  cases h with
  | entered ha hfirst =>
    rw [goto_self]
    exact .inside ha (firstSection_section hfirst)
  | consumed ha hop =>
    rw [goto_self]
    exact .inside ha hop
  | refused => exact .retired KILLED (goto_self _ _ _)
  | answered => exact .back hpc
  | emitted => exact .back hpc
  | exited => exact .retired _ (goto_self _ _ _)

theorem Dispatched.not_recvMint (h : Dispatched σ p inv cs e τ) (hpc : σ.pc p = .user) (c : ProcId)
    (msg : U64) : τ.pc p ≠ .recvMint c msg := by
  cases h with
  | entered _ hfirst =>
    rw [goto_self]
    rintro rfl
    unfold firstSection at hfirst
    split_ifs at hfirst
    all_goals cases hfirst
  | consumed => rw [goto_self]; exact Pc.noConfusion
  | refused => rw [Kernel.retire, goto_self]; exact Pc.noConfusion
  | answered => rw [hpc]; exact Pc.noConfusion
  | emitted => rw [hpc]; exact Pc.noConfusion
  | exited => rw [Kernel.retire, goto_self]; exact Pc.noConfusion

/-- A resumed process goes on within its operation, or leaves it. -/
theorem Does.stage (hd : Does τ e τ') (he : e.actor = some p) (ha : Authorised cs inv)
    (hs : Section inv (τ.pc p)) : Stage inv cs (τ'.pc p) := by
  cases hd with
  | entered hpc | refused hpc | exited hpc | consumed hpc | faulted hpc | answered hpc
  | emitted hpc =>
    cases he
    rw [hpc] at hs
    exact hs.elim
  | posted hpc | took hpc | registered hpc =>
    cases he
    rw [hpc] at hs
    rw [goto_self]
    exact .inside ha hs
  | callYield hpc | recvYield hpc | waitYield hpc => exact .inside ha hs
  | returned hpc | minted hpc | replied hpc | woke hpc | raised hpc =>
    cases he
    exact .back (goto_self _ _ _)
  | unminted hpc =>
    cases he
    exact .retired KILLED (goto_self _ _ _)
  | kernelRaised => cases he

/-- The message that a resumed process comes to hold is the one in the rendezvous. -/
theorem Does.found {c : ProcId} {msg : U64} (hd : Does τ e τ') (he : e.actor = some p)
    (hs : Section inv (τ.pc p)) (hm : τ'.pc p = .recvMint c msg) :
    τ.pc p = .recvPoll ∧ τ.rdv.caller = some c ∧ τ.rdv.msg = msg := by
  cases hd with
  | entered hpc | refused hpc | exited hpc | consumed hpc | faulted hpc | answered hpc
  | emitted hpc =>
    cases he
    rw [hpc] at hs
    exact hs.elim
  | took hpc hc =>
    cases he
    rw [goto_self] at hm
    cases hm
    exact ⟨hpc, hc, rfl⟩
  | callYield hpc | recvYield hpc | waitYield hpc =>
    cases he
    rw [hpc] at hm
    cases hm
  | kernelRaised => cases he
  | posted | registered | returned | minted | replied | woke | raised =>
    cases he
    rw [goto_self] at hm
    cases hm
  | unminted =>
    cases he
    rw [Kernel.retire, goto_self] at hm
    cases hm

/-- A process that is not in its own code can only be resumed. -/
theorem next_resume {i : Input} (h : τ.next i = some (e, τ')) (hi : i.proc = some p)
    (hpc : τ.pc p ≠ .user) : i = .resume p := by
  cases i with
  | trap q inv | fault q =>
    cases hi
    simp only [Kernel.next] at h
    split at h
    · next hu => exact absurd hu hpc
    · cases h
  | resume q =>
    cases hi
    rfl
  | raise => cases hi

/-- A process that goes on is in a section. -/
theorem Stage.resumed (hst : Stage inv cs (τ.pc p)) (hpc : τ.pc p ≠ .user)
    (h : τ.next (.resume p) = some (e, τ')) : Authorised cs inv ∧ Section inv (τ.pc p) := by
  cases hst with
  | back hu => exact absurd hu hpc
  | retired code hr =>
    have stuck : τ.next (.resume p) = none := by
      show τ.resume p = none
      unfold Kernel.resume
      rw [hr]
    rw [stuck] at h
    cases h
  | inside ha hs => exact ⟨ha, hs⟩

/-- **Every section of a call belongs to the operation that was checked**, and a message in hand was
found in the rendezvous. -/
theorem InCall.stage (hcs : σ.cspaces p = some cs) (h : InCall σ p inv τ) :
    Stage inv cs (τ.pc p) ∧ ∀ c msg, τ.pc p = .recvMint c msg → Found σ p inv c msg := by
  induction h with
  | dispatched h =>
    obtain ⟨hpc, hd⟩ := trap_dispatched hcs h
    exact ⟨hd.stage hpc, fun c msg hm => absurd hm (hd.not_recvMint hpc c msg)⟩
  | @step τ i e τ' hin hpc hnext ih =>
    have does := next_does i hnext
    have actor := next_actor hnext
    by_cases hi : i.proc = some p
    · obtain rfl := next_resume hnext hi hpc
      obtain ⟨ha, hs⟩ := ih.1.resumed hpc hnext
      exact ⟨does.stage actor ha hs, fun c msg hm => ⟨τ, hin, does.found actor hs hm⟩⟩
    · obtain ⟨_, same⟩ := does.others (q := p) (by rw [actor]; exact hi)
      rw [same]
      exact ih

/-! ## Every step of a call -/

/-- The word that a step of the call returns: the reply or the message of the rendezvous, or what
the capability and the arguments say. -/
structure Returns (σ : Kernel) (p : ProcId) (inv : Invocation) (cs : CSpace PROCESS_SLOTS)
    (τ : Kernel) (v : U64) : Prop where
  call : inv.op = op.ENDPOINT_CALL → τ.rdv.reply = some v
  recv : inv.op = op.ENDPOINT_RECV → ∃ c, Found σ p inv c v
  other : inv.op ≠ op.ENDPOINT_CALL → inv.op ≠ op.ENDPOINT_RECV →
    v = Invocation.result inv (cs.slot inv.cptr.toNat).cap

/-- An operation without a message returns 0. -/
theorem returns_zero {o : U16} (hop : inv.op = o)
    (ho : o ∈ [op.DEBUG_EMIT, op.ENDPOINT_REPLY, op.NOTIFY_WAIT, op.NOTIFY_SIGNAL]) :
    Returns σ p inv cs τ 0 := by
  have hmem : inv.op ∈ [op.DEBUG_EMIT, op.ENDPOINT_REPLY, op.NOTIFY_WAIT, op.NOTIFY_SIGNAL] :=
    hop ▸ ho
  refine ⟨fun h => ?_, fun h => ?_, fun _ _ => ?_⟩
  · rw [h] at hmem
    exact absurd hmem (by decide)
  · rw [h] at hmem
    exact absurd hmem (by decide)
  · unfold Invocation.result
    rw [if_pos hmem]

theorem Dispatched.returns (h : Dispatched σ p inv cs e τ) (hv : e.word = some v) :
    Returns σ p inv cs σ v := by
  cases h with
  | answered h1 h2 hres =>
    cases hv
    exact ⟨fun h => absurd h h1, fun h => absurd h h2, fun _ _ => hres⟩
  | emitted hop =>
    cases hv
    exact returns_zero hop (by decide)
  | entered | consumed | refused | exited => cases hv

theorem Does.returns (hd : Does τ e τ') (he : e.actor = some p) (hs : Section inv (τ.pc p))
    (hfound : ∀ c msg, τ.pc p = .recvMint c msg → Found σ p inv c msg) (hv : e.word = some v) :
    Returns σ p inv cs τ v := by
  cases hd with
  | answered hpc | emitted hpc =>
    cases he
    rw [hpc] at hs
    exact hs.elim
  | returned hpc hr =>
    cases he
    cases hv
    rw [hpc] at hs
    have hop : inv.op = op.ENDPOINT_CALL := hs
    exact ⟨fun _ => hr, fun h => absurd (hop.symm.trans h) (by decide), fun h => absurd hop h⟩
  | @minted _ c _ _ hpc =>
    cases he
    cases hv
    have hop : inv.op = op.ENDPOINT_RECV := by
      rw [hpc] at hs
      exact hs
    exact ⟨fun h => absurd (hop.symm.trans h) (by decide), fun _ => ⟨c, hfound c _ hpc⟩, fun _ h =>
      absurd hop h⟩
  | replied hpc | woke hpc | raised hpc =>
    cases he
    cases hv
    rw [hpc] at hs
    exact returns_zero hs (by decide)
  | entered | refused | exited | consumed | posted | callYield | recvYield | took | unminted
  | registered | waitYield
  | kernelRaised | faulted => cases hv

/-- **No ambient authority.**  A step of `syscall` on behalf of `p` changes the rendezvous, the
notification or a capability space only if the slot invoked at the dispatch held the capability that
the operation needs.  It never touches the space or the exit record of another process.  Without
that capability the call is a single step, which at most retires `p`.  The word returned is the
reply
in the rendezvous for CALL, a message found there for RECV, and otherwise computed from the invoked
capability and the arguments. -/
theorem no_ambient_authority (hcs : σ.cspaces p = some cs) (h : CallStep σ p inv τ e τ') :
    (τ'.rdv ≠ τ.rdv ∨ τ'.notify ≠ τ.notify ∨ τ'.cspaces ≠ τ.cspaces → Authorised cs inv) ∧
    (∀ q, q ≠ p → τ'.cspaces q = τ.cspaces q ∧ τ'.pc q = τ.pc q) ∧
    (¬ Authorised cs inv → τ = σ ∧ (τ' = σ ∨ ∃ code, τ' = σ.retire p code)) ∧
    ∀ v, e.word = some v → Returns σ p inv cs τ v := by
  cases h with
  | trap h =>
    obtain ⟨_, hd⟩ := trap_dispatched hcs h
    have quiet : ¬ Authorised cs inv → τ' = σ ∨ ∃ code, τ' = σ.retire p code := by
      intro hno
      cases hd with
      | entered ha | consumed ha => exact absurd ha hno
      | refused => exact .inr ⟨_, rfl⟩
      | answered | emitted => exact .inl rfl
      | exited => exact .inr ⟨_, rfl⟩
    refine ⟨fun hch => ?_, fun q hq => ?_, fun hno => ⟨rfl, quiet hno⟩, fun v hv => hd.returns hv⟩
    · by_contra hno
      rcases quiet hno with rfl | ⟨code, rfl⟩
      · simp at hch
      · simp [Kernel.retire, Kernel.goto] at hch
    · refine (next_does _ h).others ?_
      rw [next_actor h]
      exact fun hc => hq (Option.some.inj hc).symm
  | resume hin hpc h =>
    obtain ⟨hstage, hfound⟩ := hin.stage hcs
    obtain ⟨ha, hs⟩ := hstage.resumed hpc h
    refine ⟨fun _ => ha, fun q hq => ?_, fun hno => absurd ha hno, fun v hv => ?_⟩
    · refine (next_does _ h).others ?_
      rw [next_actor h]
      exact fun hc => hq (Option.some.inj hc).symm
    · exact (next_does _ h).returns (next_actor h) hs hfound hv

/-- Process 1 posts its message: it held the `Endpoint` with SEND.  On an empty slot it is
killed. -/
theorem no_ambient_authority_threeProcs :
    (∃ τ', CallStep threeProcs 1 (invocation 2 op.ENDPOINT_CALL 10) calling (.posted 1 10) τ' ∧
      τ'.rdv ≠ calling.rdv ∧
      Authorised (endpointSpace 7 Rights.SEND) (invocation 2 op.ENDPOINT_CALL 10)) ∧
    ∃ τ' e, CallStep threeProcs 1 (invocation 5 op.ENDPOINT_CALL 10) threeProcs e τ' ∧
      ∀ q, q ≠ 1 → τ'.cspaces q = threeProcs.cspaces q ∧ τ'.pc q = threeProcs.pc q := by
  have entered : InCall threeProcs 1 (invocation 2 op.ENDPOINT_CALL 10) calling := .dispatched rfl
  have posted : CallStep threeProcs 1 (invocation 2 op.ENDPOINT_CALL 10) calling (.posted 1 10)
      ({ calling with rdv := ⟨some 1, 10, none⟩ }.goto 1 .callPoll) :=
    .resume entered (by unfold calling; rw [goto_self]; exact Pc.noConfusion) rfl
  have differs : ({ calling with rdv := ⟨some 1, 10, none⟩ }.goto 1 .callPoll).rdv ≠
    calling.rdv := by
    show (⟨some 1, 10, none⟩ : Rdv) ≠ ⟨none, 0, none⟩
    decide
  have killed : CallStep threeProcs 1 (invocation 5 op.ENDPOINT_CALL 10) threeProcs
      (.refused 1 (invocation 5 op.ENDPOINT_CALL 10)) (threeProcs.retire 1 KILLED) := .trap rfl
  exact ⟨⟨_, posted, differs, (no_ambient_authority rfl posted).1 (.inl differs)⟩,
    _, _, killed, (no_ambient_authority rfl killed).2.1⟩

end User

end Praesidium
