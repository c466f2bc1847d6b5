import Praesidium.Kernel.UserCall

/-!
Which object a message or a signal came through.

The check of a syscall names an object; the effect goes to the one rendezvous or the one
notification.  The trace remembers both: `lastEntry tr p` is the check that `p` passed
last.  In every run a taken message was posted by a CALL and a completed wait has a
signal of its own (`traced_run`), but the objects of the two ends need not be the same.

They are if the run uses one endpoint and one notification (`Event.On`).  Then also a
process that holds neither has no part in it: the run without its steps is a run, and
ends with everyone else in the same state (`outsider_removed`).

    σ.next i  commutes with any change of a third process's own state      (next_patch)

With two endpoints, what is sent on one is received on the other (`ipc_crosses`).
-/

namespace Praesidium

namespace User

variable {σ σ' : Kernel} {e : Event} {p q : ProcId} {tr : List Event}

/-! ## Entries -/

/-- The check that `p` passed last, and its object. -/
def lastEntry (tr : List Event) (p : ProcId) : Option (Invocation × U64) :=
  tr.foldl (fun last e => match e with
    | .entered q inv obj => if q = p then some (inv, obj) else last
    | _ => last) none

theorem lastEntry_snoc (tr : List Event) (e : Event) (p : ProcId) :
    lastEntry (tr ++ [e]) p = match e with
      | .entered q inv obj => if q = p then some (inv, obj) else lastEntry tr p
      | _ => lastEntry tr p := by
  unfold lastEntry
  rw [List.foldl_append]
  rfl

theorem lastEntry_other (tr : List Event) (e : Event) (p : ProcId)
    (h : ∀ inv obj, e ≠ .entered p inv obj) : lastEntry (tr ++ [e]) p = lastEntry tr p := by
  rw [lastEntry_snoc]
  cases e with
  | entered q inv obj =>
    have hne : q ≠ p := by
      rintro rfl
      exact h inv obj rfl
    exact if_neg hne
  | _ => rfl

/-- The operation a process is inside of. -/
def Pc.op : Pc → Option U16
  | .callPost _ => some op.ENDPOINT_CALL
  | .callPoll => some op.ENDPOINT_CALL
  | .recvPoll => some op.ENDPOINT_RECV
  | .recvMint _ _ => some op.ENDPOINT_RECV
  | .waitRegister => some op.NOTIFY_WAIT
  | .waitPoll => some op.NOTIFY_WAIT
  | .signalRaise => some op.NOTIFY_SIGNAL
  | _ => none

variable {inv : Invocation} {pc : Pc} {obj : U64} {σ₀ : Kernel} {cs : CSpace PROCESS_SLOTS}
  {i : Input}

theorem firstSection_op (h : firstSection inv = some pc) :
    pc.op = some inv.op ∧ ∀ msg, pc = .callPost msg → inv.word = msg := by
  unfold firstSection at h
  split_ifs at h with h1 h2 h3 h4
  · cases h
    refine ⟨by rw [h1]; rfl, fun msg he => ?_⟩
    cases he
    rfl
  · cases h
    exact ⟨by rw [h2]; rfl, fun msg he => by cases he⟩
  · cases h
    exact ⟨by rw [h3]; rfl, fun msg he => by cases he⟩
  · cases h
    exact ⟨by rw [h4]; rfl, fun msg he => by cases he⟩

/-! ## Where messages and signals come from -/

/-- `c` posted `msg` in a CALL through object `obj`. -/
def Posted (tr : List Event) (obj : U64) (c : ProcId) (msg : U64) : Prop :=
  ∃ a b inv, tr = a ++ .posted c msg :: b ∧ lastEntry a c = some (inv, obj) ∧
    inv.op = op.ENDPOINT_CALL ∧ inv.word = msg

/-- A signal through object `obj`, or the kernel's own one, that no wait has consumed. -/
def Signalled (tr : List Event) (obj : U64) : Prop :=
  ∃ a b, (∀ p, .woke p ∉ b) ∧
    ((∃ p inv, tr = a ++ .raised p :: b ∧ lastEntry a p = some (inv, obj) ∧
    inv.op = op.NOTIFY_SIGNAL) ∨ (tr = a ++ .kernelRaised :: b ∧ obj = NOTIF_ID))

theorem Posted.snoc {c : ProcId} {msg : U64} (h : Posted tr obj c msg) (e : Event) :
    Posted (tr ++ [e]) obj c msg := by
  obtain ⟨a, b, inv, rfl, h1⟩ := h
  exact ⟨a, b ++ [e], inv, by simp, h1⟩

theorem Signalled.snoc (h : Signalled tr obj) (e : Event) (he : ∀ p, e ≠ .woke p) :
    Signalled (tr ++ [e]) obj := by
  obtain ⟨a, b, hno, h⟩ := h
  refine ⟨a, b ++ [e], fun p hp => ?_, ?_⟩
  · rcases List.mem_append.mp hp with hp | hp
    · exact hno p hp
    · exact he p (List.mem_singleton.mp hp).symm
  · rcases h with ⟨p, inv, rfl, h⟩ | ⟨rfl, h⟩
    · exact Or.inl ⟨p, inv, by simp, h⟩
    · exact Or.inr ⟨by simp, h⟩

structure Traced (tr : List Event) (σ : Kernel) : Prop where
  entry : ∀ p o, (σ.pc p).op = some o → ∃ inv obj, lastEntry tr p = some (inv, obj) ∧ inv.op = o ∧
    ∀ msg, σ.pc p = .callPost msg → inv.word = msg
  pending : ∀ c, σ.rdv.caller = some c → ∃ obj, Posted tr obj c σ.rdv.msg
  taken : ∀ s c msg, σ.pc s = .recvMint c msg → ∃ obj, Posted tr obj c msg
  latch : σ.notify.signaled = true → ∃ obj, Signalled tr obj

theorem Init.traced (h : Init σ) : Traced [] σ := by
  refine ⟨fun p o ho => ?_, fun c hc => ?_, fun s c msg hs => ?_, fun hs => ?_⟩
  · rcases h.pc p with hp | ⟨code, hp⟩
    · rw [hp] at ho
      cases ho
    · rw [hp] at ho
      cases ho
  · rw [h.caller] at hc
    cases hc
  · rcases h.pc s with hp | ⟨code, hp⟩
    · rw [hp] at hs
      cases hs
    · rw [hp] at hs
      cases hs
  · rw [h.signaled] at hs
    cases hs

/-! ### What a step does to each of them -/

/-- Entering an operation goes through its check; inside it nothing else leads. -/
def KeepsEntries (σ : Kernel) (e : Event) (σ' : Kernel) : Prop :=
  ∀ p o, (σ'.pc p).op = some o →
    (∃ inv obj, e = .entered p inv obj ∧ firstSection inv = some (σ'.pc p)) ∨
    ((σ.pc p).op = some o ∧ (∀ inv obj, e ≠ .entered p inv obj) ∧ ∀ msg, σ'.pc p = .callPost msg →
    σ.pc p = .callPost msg)

/-- A process moves on inside its operation, or leaves it. -/
theorem keepsEntries_move (hpc : ∀ q, σ'.pc q = if q = p then pc else σ.pc q)
    (hop : pc.op = none ∨ (pc.op = (σ.pc p).op ∧ ∀ msg, pc ≠ .callPost msg))
    (he : ∀ q inv obj, e ≠ .entered q inv obj) : KeepsEntries σ e σ' := by
  intro q o ho
  right
  rw [hpc q] at ho
  by_cases h : q = p
  · subst h
    rw [if_pos rfl] at ho
    rcases hop with hop | ⟨hop, hmsg⟩
    · rw [hop] at ho
      cases ho
    · refine ⟨by rw [← hop]; exact ho, he q, fun msg hm => ?_⟩
      rw [hpc q, if_pos rfl] at hm
      exact absurd hm (hmsg msg)
  · rw [if_neg h] at ho
    refine ⟨ho, he q, fun msg hm => ?_⟩
    rwa [hpc q, if_neg h] at hm

theorem keepsEntries_same (he : ∀ q inv obj, e ≠ .entered q inv obj) (hpc : σ'.pc = σ.pc) :
    KeepsEntries σ e σ' := by
  intro q o ho
  rw [hpc] at ho ⊢
  exact Or.inr ⟨ho, he q, fun msg hm => hm⟩

theorem Does.entries (hd : Does σ e σ') : KeepsEntries σ e σ' := by
  have away : ∀ (τ : Kernel) (p : ProcId) (pc : Pc), τ.pc = σ.pc → pc.op = none →
    (∀ q inv obj, e ≠ .entered q inv obj) → KeepsEntries σ e (τ.goto p pc) := by
    intro τ p pc hτ hop he
    exact keepsEntries_move (fun q => by rw [goto_pc, hτ]) (Or.inl hop) he
  have inside : ∀ (τ : Kernel) (p : ProcId) (pc : Pc), τ.pc = σ.pc → pc.op = (σ.pc p).op →
    (∀ msg, pc ≠ .callPost msg) →
      (∀ q inv obj, e ≠ .entered q inv obj) → KeepsEntries σ e (τ.goto p pc) := by
    intro τ p pc hτ hop hmsg he
    exact keepsEntries_move (fun q => by rw [goto_pc, hτ]) (Or.inr ⟨hop, hmsg⟩) he
  cases hd with
  | @entered p inv cs v pc hpc hcs hinv hfirst =>
    intro q o ho
    rw [goto_pc] at ho ⊢
    by_cases h : q = p
    · rw [if_pos h] at ho ⊢
      rw [h]
      exact Or.inl ⟨inv, _, rfl, hfirst⟩
    · rw [if_neg h] at ho ⊢
      refine Or.inr ⟨ho, fun inv' obj' he => ?_, fun msg hm => hm⟩
      cases he
      exact h rfl
  | refused | exited | faulted | unminted => exact away σ _ _ rfl rfl (by simp)
  | answered | emitted | callYield | recvYield | waitYield | kernelRaised =>
    exact keepsEntries_same (by simp) rfl
  | consumed | returned | minted | replied | woke | raised => exact away _ _ _ rfl rfl (by simp)
  | posted hpc | took hpc | registered hpc =>
    exact inside _ _ _ rfl (by rw [hpc]; rfl) (by simp) (by simp)

/-- A message that is there was there, or is posted now. -/
theorem Does.pending (hd : Does σ e σ') (c : ProcId) (hc : σ'.rdv.caller = some c) :
    (σ.rdv.caller = some c ∧ σ'.rdv.msg = σ.rdv.msg) ∨
      (e = .posted c σ'.rdv.msg ∧ σ.pc c = .callPost σ'.rdv.msg) := by
  cases hd with
  | posted hpc =>
    cases hc
    exact Or.inr ⟨rfl, hpc⟩
  | returned => cases hc
  | took => cases hc
  | _ => exact Or.inl ⟨hc, rfl⟩

/-- A message in the hands of a server was taken before, or is taken now. -/
theorem Does.taken (hd : Does σ e σ') (s c : ProcId) (msg : U64) (hs : σ'.pc s = .recvMint c msg) :
    σ.pc s = .recvMint c msg ∨ (σ.rdv.caller = some c ∧ σ.rdv.msg = msg) := by
  have move : ∀ (τ : Kernel) (p : ProcId) (pc : Pc), τ.pc = σ.pc → (∀ c msg, pc ≠ .recvMint c msg) →
      (τ.goto p pc).pc s = .recvMint c msg → σ.pc s = .recvMint c msg ∨
      (σ.rdv.caller = some c ∧ σ.rdv.msg = msg) := by
    intro τ p pc hτ hne h
    rw [goto_pc] at h
    split at h
    · exact absurd h (hne c msg)
    · rw [hτ] at h
      exact Or.inl h
  cases hd with
  | @took p c' hpc hc =>
    rw [goto_pc] at hs
    split at hs
    · cases hs
      exact Or.inr ⟨hc, rfl⟩
    · exact Or.inl hs
  | @entered p inv cs v pc hpc hcs hinv hfirst =>
    refine move σ p pc rfl (fun c' msg' he => ?_) hs
    subst he
    unfold firstSection at hfirst
    split_ifs at hfirst
    all_goals cases hfirst
  | answered | emitted | callYield | recvYield | waitYield | kernelRaised => exact Or.inl hs
  | _ => exact move _ _ _ rfl (by simp) hs

/-- The latch was set, or is set now. -/
theorem Does.latch (hd : Does σ e σ') (hs : σ'.notify.signaled = true) :
    (σ.notify.signaled = true ∧ ∀ p, e ≠ .woke p) ∨ (∃ p, e = .raised p ∧ σ.pc p = .signalRaise) ∨
      e = .kernelRaised := by
  cases hd with
  | woke => cases hs
  | raised hpc => exact Or.inr (Or.inl ⟨_, rfl, hpc⟩)
  | kernelRaised => exact Or.inr (Or.inr rfl)
  | _ => exact Or.inl ⟨hs, by simp⟩

theorem Traced.step (h : Traced tr σ) (hd : Does σ e σ') : Traced (tr ++ [e]) σ' := by
  refine ⟨fun p o ho => ?_, fun c hc => ?_, fun s c msg hs => ?_, fun hs => ?_⟩
  · rcases hd.entries p o ho with ⟨inv, obj, rfl, hfirst⟩ | ⟨hold, hne, hmsg⟩
    · obtain ⟨hop, hword⟩ := firstSection_op hfirst
      refine ⟨inv, obj, ?_, ?_, fun msg hm => hword msg hm⟩
      · rw [lastEntry_snoc]
        exact if_pos rfl
      · rw [hop] at ho
        exact Option.some.inj ho
    · obtain ⟨inv, obj, hlast, hop, hword⟩ := h.entry p o hold
      refine ⟨inv, obj, ?_, hop, fun msg hm => hword msg (hmsg msg hm)⟩
      rw [lastEntry_other tr e p hne]
      exact hlast
  · rcases hd.pending c hc with ⟨hold, hmsg⟩ | ⟨he, hpc⟩
    · obtain ⟨obj, hobj⟩ := h.pending c hold
      rw [hmsg]
      exact ⟨obj, hobj.snoc e⟩
    · obtain ⟨inv, obj, hlast, hop, hword⟩ := h.entry c _ (by rw [hpc]; rfl)
      exact ⟨obj, tr, [], inv, by rw [he], hlast, hop, hword _ hpc⟩
  · rcases hd.taken s c msg hs with hold | ⟨hcaller, rfl⟩
    · obtain ⟨obj, hobj⟩ := h.taken s c msg hold
      exact ⟨obj, hobj.snoc e⟩
    · obtain ⟨obj, hobj⟩ := h.pending c hcaller
      exact ⟨obj, hobj.snoc e⟩
  · rcases hd.latch hs with ⟨hold, hne⟩ | ⟨p, rfl, hpc⟩ | rfl
    · obtain ⟨obj, hobj⟩ := h.latch hold
      exact ⟨obj, hobj.snoc e hne⟩
    · obtain ⟨inv, obj, hlast, hop, -⟩ := h.entry p _ (by rw [hpc]; rfl)
      exact ⟨obj, tr, [], by simp, Or.inl ⟨p, inv, rfl, hlast, hop⟩⟩
    · exact ⟨NOTIF_ID, tr, [], by simp, Or.inr ⟨rfl, rfl⟩⟩

theorem traced_run (hinit : Init σ₀) (hrun : Run Step σ₀ tr σ) : Traced tr σ :=
  hrun.inv_trace Traced hinit.traced fun _ _ _ _ h hs => h.step hs.does

/-! ## A process on its own -/

/-- Who takes the step. -/
def Input.proc : Input → Option ProcId
  | .trap p _ => some p
  | .resume p => some p
  | .fault p => some p
  | .raise => none

def Event.actor : Event → Option ProcId
  | .entered p _ _ => some p
  | .refused p _ => some p
  | .answered p _ _ => some p
  | .emitted p _ => some p
  | .exited p _ => some p
  | .posted p _ => some p
  | .callYield p => some p
  | .returned p _ => some p
  | .recvYield p => some p
  | .took p _ _ => some p
  | .minted p _ _ => some p
  | .unminted p _ => some p
  | .consumed p _ _ _ => some p
  | .replied p _ => some p
  | .registered p => some p
  | .waitYield p => some p
  | .woke p => some p
  | .raised p => some p
  | .kernelRaised => none
  | .faulted p => some p

/-- Another state for process `q` alone. -/
def Kernel.patch (σ : Kernel) (q : ProcId) (pc : Pc) (space : Option (CSpace PROCESS_SLOTS)) :
    Kernel :=
  { σ with pc := Function.update σ.pc q pc, cspaces := Function.update σ.cspaces q space }

section Patch

variable (σ : Kernel) {p q : ProcId} (x : Pc) (y : Option (CSpace PROCESS_SLOTS)) (hne : p ≠ q)
include hne

theorem patch_pc : (σ.patch q x y).pc p = σ.pc p := Function.update_of_ne hne _ _

theorem patch_space : (σ.patch q x y).cspaces p = σ.cspaces p := Function.update_of_ne hne _ _

theorem goto_patch (pc : Pc) : (σ.patch q x y).goto p pc = (σ.goto p pc).patch q x y := by
  unfold Kernel.goto Kernel.patch
  simp only [Function.update_comm hne]

theorem setSpace_patch (cs : CSpace PROCESS_SLOTS) :
    (σ.patch q x y).setSpace p cs = (σ.setSpace p cs).patch q x y := by
  unfold Kernel.setSpace Kernel.patch
  simp only [Function.update_comm hne]

theorem recvMint_patch (c : ProcId) (msg : U64) (cs : CSpace PROCESS_SLOTS) :
    (σ.patch q x y).recvMint p c msg cs = (σ.recvMint p c msg cs).map fun r =>
      (r.1, r.2.patch q x y) := by
  unfold Kernel.recvMint
  rcases CSpace.mintReply REPLY_SLOT c 0 cs with ⟨u, cs'⟩ | ⟨f, cs'⟩
  · simp only [setSpace_patch σ x y hne, goto_patch _ x y hne, Option.map_some]
  · cases f with
    | err f =>
      simp only [setSpace_patch σ x y hne, Kernel.retire, goto_patch _ x y hne, Option.map_some]
    | _ => rfl

section

variable (inv : Invocation) (cs : CSpace PROCESS_SLOTS)

theorem ipcCheck_patch (pc : Pc) :
    (σ.patch q x y).ipcCheck p inv cs pc = ((σ.ipcCheck p inv cs pc).1,
      (σ.ipcCheck p inv cs pc).2.patch q x y) := by
  unfold Kernel.ipcCheck
  cases invoke cs inv with
  | ok v => simp only [goto_patch σ x y hne]
  | error f => simp only [Kernel.retire, goto_patch σ x y hne]

theorem dispatch_patch :
    (σ.patch q x y).dispatch p inv cs = ((σ.dispatch p inv cs).1, (σ.dispatch p inv cs).2.patch q x
      y) := by
  unfold Kernel.dispatch
  cases invoke cs inv with
  | ok v =>
    simp only [Kernel.retire, goto_patch σ x y hne]
    split_ifs <;> rfl
  | error f => simp only [Kernel.retire, goto_patch σ x y hne]

theorem ipcReply_patch :
    (σ.patch q x y).ipcReply p inv cs = (σ.ipcReply p inv cs).map fun r =>
      (r.1, r.2.patch q x y) := by
  unfold Kernel.ipcReply
  rcases CSpace.consumeReply inv.cptr.toNat cs with ⟨c, cs'⟩ | ⟨f, cs'⟩
  · simp only [setSpace_patch σ x y hne, goto_patch _ x y hne, Option.map_some]
  · cases f with
    | err f =>
      simp only [setSpace_patch σ x y hne, Kernel.retire, goto_patch _ x y hne, Option.map_some]
    | _ => rfl

theorem syscall_patch :
    (σ.patch q x y).syscall p inv cs = (σ.syscall p inv cs).map fun r =>
      (r.1, r.2.patch q x y) := by
  unfold Kernel.syscall
  simp only [ipcCheck_patch σ x y hne, dispatch_patch σ x y hne, ipcReply_patch σ x y hne]
  split_ifs <;> rfl

end

theorem resume_patch :
    (σ.patch q x y).resume p = (σ.resume p).map fun r => (r.1, r.2.patch q x y) := by
  have move : ∀ (e : Event) (τ : Kernel) (pc : Pc), some (e, (τ.patch q x y).goto p pc) =
      (some (e, τ.goto p pc)).map fun r => (r.1, r.2.patch q x y) :=
    fun e τ pc => congrArg (fun k => some (e, k)) (goto_patch τ x y hne pc)
  unfold Kernel.resume
  rw [patch_pc σ x y hne, patch_space σ x y hne]
  rw [show (σ.patch q x y).rdv = σ.rdv from rfl, show (σ.patch q x y).notify = σ.notify from rfl]
  cases σ.pc p with
  | callPost msg => exact move _ { σ with rdv := ⟨some p, msg, none⟩ } _
  | callPoll =>
    cases σ.rdv.reply with
    | some v => exact move _ { σ with rdv := { σ.rdv with reply := none, caller := none } } _
    | none => rfl
  | recvPoll =>
    cases σ.rdv.caller with
    | some c => exact move _ { σ with rdv := { σ.rdv with caller := none } } _
    | none => rfl
  | recvMint c msg =>
    show (σ.cspaces p).bind ((σ.patch q x y).recvMint p c msg) =
      ((σ.cspaces p).bind (σ.recvMint p c msg)).map _
    cases σ.cspaces p with
    | none => rfl
    | some cs => exact recvMint_patch σ x y hne c msg cs
  | replySet word => exact move _ { σ with rdv := { σ.rdv with reply := some word } } _
  | waitRegister => exact move _ { σ with notify := { σ.notify with waiter := some p } } _
  | waitPoll =>
    show (if σ.notify.signaled then _ else _) = Option.map _ (if σ.notify.signaled then _ else _)
    split
    · exact move _ { σ with notify := ⟨false, none⟩ } _
    · rfl
  | signalRaise => exact move _ { σ with notify := { σ.notify with signaled := true } } _
  | user => rfl
  | retired code => rfl

end Patch

/-- **Steps are local.**  A step of another process takes no notice of `q`'s own state. -/
theorem next_patch (σ : Kernel) {q : ProcId} (x : Pc) (y : Option (CSpace PROCESS_SLOTS))
    (i : Input) (hi : i.proc ≠ some q) :
    (σ.patch q x y).next i = (σ.next i).map fun r => (r.1, r.2.patch q x y) := by
  cases i with
  | trap p inv =>
    have hne : p ≠ q := fun e => hi (congrArg some e)
    simp only [Kernel.next]
    rw [patch_pc σ x y hne, patch_space σ x y hne]
    split
    · cases σ.cspaces p with
      | none => rfl
      | some cs => exact syscall_patch σ x y hne inv cs
    · rfl
  | resume p => exact resume_patch σ x y (fun e => hi (congrArg some e))
  | fault p =>
    have hne : p ≠ q := fun e => hi (congrArg some e)
    simp only [Kernel.next, Kernel.retire]
    rw [patch_pc σ x y hne, goto_patch σ x y hne]
    split <;> rfl
  | raise => rfl

/-! ### The actor of an event -/

theorem ipcCheck_actor (inv : Invocation) (cs : CSpace PROCESS_SLOTS) (pc : Pc) :
    (σ.ipcCheck p inv cs pc).1.actor = some p := by
  unfold Kernel.ipcCheck
  split <;> rfl

theorem syscall_actor (h : σ.syscall p inv cs = some (e, σ')) : e.actor = some p := by
  have check : ∀ pc, some (σ.ipcCheck p inv cs pc) = some (e, σ') → e.actor = some p := by
    intro pc h
    have he : (σ.ipcCheck p inv cs pc).1 = e := congrArg Prod.fst (Option.some.inj h)
    rw [← he]
    exact ipcCheck_actor inv cs pc
  unfold Kernel.syscall at h
  split_ifs at h
  · exact check _ h
  · exact check _ h
  · unfold Kernel.ipcReply at h
    split at h <;> cases h <;> rfl
  · exact check _ h
  · exact check _ h
  · unfold Kernel.dispatch at h
    split at h
    · split_ifs at h <;> cases h <;> rfl
    · cases h
      rfl

theorem resume_actor (h : σ.resume p = some (e, σ')) : e.actor = some p := by
  unfold Kernel.resume at h
  split at h
  · cases h
    rfl
  · split at h <;> cases h <;> rfl
  · split at h <;> cases h <;> rfl
  · obtain ⟨cs, -, h⟩ := Option.bind_eq_some_iff.mp h
    unfold Kernel.recvMint at h
    split at h <;> cases h <;> rfl
  · cases h
    rfl
  · cases h
    rfl
  · split at h <;> cases h <;> rfl
  · cases h
    rfl
  · cases h
  · cases h

theorem next_actor (h : σ.next i = some (e, σ')) : e.actor = i.proc := by
  cases i with
  | trap p inv =>
    simp only [Kernel.next] at h
    split at h
    · obtain ⟨cs, -, h⟩ := Option.bind_eq_some_iff.mp h
      exact syscall_actor h
    · cases h
  | resume p => exact resume_actor h
  | fault p =>
    simp only [Kernel.next] at h
    split at h
    · cases h
      rfl
    · cases h
  | raise =>
    cases h
    rfl

/-! ## Outsiders -/

/-- The run is on one endpoint `o` and one notification `n`. -/
def Event.On (o n : U64) : Event → Prop
  | .entered _ inv obj =>
    (inv.op = op.ENDPOINT_CALL ∨ inv.op = op.ENDPOINT_RECV → obj = o) ∧
      (inv.op = op.NOTIFY_WAIT ∨ inv.op = op.NOTIFY_SIGNAL → obj = n)
  | .kernelRaised => n = NOTIF_ID
  | _ => True

instance (o n : U64) (e : Event) : Decidable (e.On o n) :=
  match e with
  | .entered _ inv obj =>
    inferInstanceAs (Decidable ((inv.op = op.ENDPOINT_CALL ∨ inv.op = op.ENDPOINT_RECV → obj = o) ∧
      (inv.op = op.NOTIFY_WAIT ∨ inv.op = op.NOTIFY_SIGNAL → obj = n)))
  | .kernelRaised => inferInstanceAs (Decidable (n = NOTIF_ID))
  | .refused _ _ | .answered _ _ _ | .emitted _ _ | .exited _ _ | .posted _ _ | .callYield _
    | .returned _ _ | .recvYield _
  | .took _ _ _ | .minted _ _ _ | .unminted _ _ | .consumed _ _ _ _ | .replied _ _ | .registered _
    | .waitYield _ | .woke _
  | .raised _ | .faulted _ => isTrue trivial

/-- The space has no capability to endpoint `o` or notification `n`, and no `Reply`. -/
def HoldsNone (o n : U64) (cs : CSpace PROCESS_SLOTS) : Prop :=
  ∀ d, cs.Live d → (cs.slot d).cap.capType ≠ .reply ∧
    ((cs.slot d).cap.capType = .endpoint → (cs.slot d).cap.objref ≠ o) ∧
    ((cs.slot d).cap.capType = .notification → (cs.slot d).cap.objref ≠ n)

/-- Process `q` is outside: in its own code or gone, and with no capability to get in. -/
structure Outsider (o n : U64) (q : ProcId) (σ : Kernel) : Prop where
  pc : σ.pc q = .user ∨ ∃ code, σ.pc q = .retired code
  space : ∀ cs, σ.cspaces q = some cs → HoldsNone o n cs

/-- The two states differ at most in `q`'s own part. -/
def SameBut (q : ProcId) (σ τ : Kernel) : Prop := ∃ x y, τ = σ.patch q x y

variable {o n : U64}

theorem patch_self (σ : Kernel) (q : ProcId) : σ.patch q (σ.pc q) (σ.cspaces q) = σ := by
  unfold Kernel.patch
  simp only [Function.update_eq_self]

theorem patch_patch (σ : Kernel) (q : ProcId) (x x' : Pc) (y y' : Option (CSpace PROCESS_SLOTS)) :
    (σ.patch q x' y').patch q x y = σ.patch q x y := by
  unfold Kernel.patch
  simp only [Function.update_idem]

/-- Others leave `q`'s own part alone. -/
theorem next_keeps (h : σ.next i = some (e, σ')) (hi : i.proc ≠ some q) :
    σ'.pc q = σ.pc q ∧ σ'.cspaces q = σ.cspaces q := by
  have hpatch := next_patch σ (σ.pc q) (σ.cspaces q) i hi
  rw [patch_self, h] at hpatch
  have hσ : σ' = σ'.patch q (σ.pc q) (σ.cspaces q) := congrArg Prod.snd (Option.some.inj hpatch)
  rw [hσ]
  exact ⟨Function.update_self .., Function.update_self ..⟩

theorem Outsider.not_at (h : Outsider o n q σ) (hpc : σ.pc q = pc) (hu : pc ≠ .user)
    (hr : ∀ code, pc ≠ .retired code) : False := by
  rcases h.pc with hq | ⟨code, hq⟩
  · exact hu (hpc.symm.trans hq)
  · exact hr code (hpc.symm.trans hq)

/-- No check of an outsider passes. -/
theorem Outsider.not_entered {v : U64} (h : Outsider o n q σ) (hcs : σ.cspaces q = some cs)
    (hinv : invoke cs inv = .ok v) (hfirst : firstSection inv = some pc)
    (hon : (Event.entered q inv (cs.slot inv.cptr.toNat).cap.objref).On o n) : False := by
  obtain ⟨hl, hneeds⟩ := invoke_needs hinv
  obtain ⟨-, hep, hnot⟩ := h.space cs hcs inv.cptr.toNat hl
  unfold firstSection at hfirst
  split_ifs at hfirst with h1 h2 h3 h4
  · exact hep (hneeds .endpoint Rights.SEND (by rw [h1]; rfl)).1 (hon.1 (Or.inl h1))
  · exact hep (hneeds .endpoint Rights.RECV (by rw [h2]; rfl)).1 (hon.1 (Or.inr h2))
  · exact hnot (hneeds .notification Rights.WAIT (by rw [h3]; rfl)).1 (hon.2 (Or.inl h3))
  · exact hnot (hneeds .notification Rights.SIGNAL (by rw [h4]; rfl)).1 (hon.2 (Or.inr h4))

/-- An outsider's step is its own business. -/
theorem Outsider.own (h : Outsider o n q σ) (hd : Does σ e σ') (ha : e.actor = some q)
    (hon : e.On o n) : Outsider o n q σ' ∧ SameBut q σ σ' := by
  have gone : ∀ code, Outsider o n q (σ.retire q code) ∧ SameBut q σ (σ.retire q code) := by
    intro code
    refine ⟨⟨Or.inr ⟨code, ?_⟩, h.space⟩, .retired code, σ.cspaces q, ?_⟩
    · exact Function.update_self ..
    · unfold Kernel.retire Kernel.goto Kernel.patch
      simp only [Function.update_eq_self]
  have stay : Outsider o n q σ ∧ SameBut q σ σ := ⟨h, σ.pc q, σ.cspaces q, (patch_self σ q).symm⟩
  cases hd with
  | entered hpc hcs hinv hfirst =>
    cases ha
    exact absurd hon (h.not_entered hcs hinv hfirst)
  | consumed hpc hcs hl ht hdes =>
    cases ha
    exact absurd ht (h.space _ hcs _ hl).1
  | refused hpc | exited hpc | faulted hpc =>
    cases ha
    exact gone _
  | answered | emitted | kernelRaised =>
    cases ha
    try exact stay
  | callYield | recvYield | waitYield => exact stay
  | posted hpc | returned hpc _ | took hpc _ | minted hpc | unminted hpc | replied hpc
  | registered hpc | woke hpc _ | raised hpc =>
    cases ha
    exact (h.not_at hpc (by simp) (by simp)).elim

/-- **Noninterference.**  The run without the steps of an outsider is a run, and everyone
else ends in the same state. -/
theorem outsider_removed (h : Outsider o n q σ₀) (hrun : Run Step σ₀ tr σ)
    (hone : ∀ e ∈ tr, e.On o n) :
    ∃ τ, Run Step σ₀ (tr.filter fun e => e.actor ≠ some q) τ ∧ SameBut q σ τ := by
  have hrun' : Run (fun σ e σ' => Step σ e σ' ∧ e.On o n) σ₀ tr σ :=
    hrun.mono fun _ e _ he hs => ⟨hs, hone e he⟩
  have hfollow : ∀ σ τ e σ', Outsider o n q σ ∧ SameBut q σ τ → Step σ e σ' ∧ e.On o n →
      decide (e.actor ≠ some q) = true → ∃ τ', Step τ e τ' ∧ Outsider o n q σ' ∧
        SameBut q σ' τ' := by
    rintro σ τ e σ' ⟨hout, x, y, rfl⟩ ⟨⟨i, hi⟩, -⟩ hv
    have hne : i.proc ≠ some q := by
      rw [← next_actor hi]
      exact of_decide_eq_true hv
    obtain ⟨hpc, hspace⟩ := next_keeps hi hne
    refine ⟨σ'.patch q x y, ⟨i, by rw [next_patch σ x y i hne, hi]; rfl⟩, ⟨?_, ?_⟩, x, y, rfl⟩
    · rw [hpc]
      exact hout.pc
    · rw [hspace]
      exact hout.space
  have hsleep : ∀ σ τ e σ', Outsider o n q σ ∧ SameBut q σ τ → Step σ e σ' ∧ e.On o n →
      decide (e.actor ≠ some q) = false → Outsider o n q σ' ∧ SameBut q σ' τ := by
    rintro σ τ e σ' ⟨hout, x, y, rfl⟩ ⟨hs, hon⟩ hv
    obtain ⟨hout', x', y', rfl⟩ := hout.own hs.does (not_not.mp (of_decide_eq_false hv)) hon
    exact ⟨hout', x, y, (patch_patch σ q x x' y y').symm⟩
  obtain ⟨τ, hτ, -, hsame⟩ := hrun'.simulates (fun σ τ => Outsider o n q σ ∧ SameBut q σ τ)
    (fun e : Event => decide (e.actor ≠ some q)) hfollow hsleep ⟨h, σ₀.pc q, σ₀.cspaces q,
    (patch_self σ₀ q).symm⟩
  exact ⟨τ, hτ, hsame⟩

/-! ## Confinement -/

theorem lastEntry_mem (h : lastEntry tr p = some (inv, obj)) : .entered p inv obj ∈ tr := by
  induction tr using List.reverseRecOn with
  | nil => cases h
  | append_singleton tr e ih =>
    by_cases he : ∃ inv obj, e = .entered p inv obj
    · obtain ⟨inv', obj', rfl⟩ := he
      rw [lastEntry_snoc] at h
      simp only [if_true] at h
      cases h
      simp
    · rw [lastEntry_other tr e p (fun inv obj h => he ⟨inv, obj, h⟩)] at h
      exact List.mem_append_left _ (ih h)

/-- **Messages and signals stay on their object**, in a run that uses one endpoint and one
notification.  What a RECV returns was posted by a CALL through the same object; a wait
ends by a signal through the same object, or by the kernel's own for it; and a process
with no capability to either of them could as well not be there. -/
theorem ipc_confined {σ₀ : Kernel} (hinit : Init σ₀) (hrun : Run Step σ₀ tr σ)
    (hone : ∀ e ∈ tr, e.On o n) :
    (∀ a b s c msg, tr = a ++ .minted s c msg :: b →
      ∃ inv obj, lastEntry a s = some (inv, obj) ∧ inv.op = op.ENDPOINT_RECV ∧ Posted a obj c msg) ∧
    (∀ a b p, tr = a ++ .woke p :: b →
      ∃ inv obj, lastEntry a p = some (inv, obj) ∧ inv.op = op.NOTIFY_WAIT ∧ Signalled a obj) ∧
    (∀ q, (∀ cs, σ₀.cspaces q = some cs → HoldsNone o n cs) →
      ∃ τ, Run Step σ₀ (tr.filter fun e => e.actor ≠ some q) τ ∧ SameBut q σ τ) := by
  refine ⟨?_, ?_, fun q hq => outsider_removed ⟨hinit.pc q, hq⟩ hrun hone⟩
  · rintro a b s c msg rfl
    obtain ⟨σ₁, σ₂, h1, hs, -⟩ := hrun.split_at
    have ht := traced_run hinit h1
    cases hs.does with
    | minted hpc =>
      obtain ⟨inv, obj, hlast, hop, -⟩ := ht.entry s _ (by rw [hpc]; rfl)
      obtain ⟨obj', a₁, a₂, inv', rfl, hlast', hop', hword⟩ := ht.taken s c msg hpc
      have hobj := (hone _ (List.mem_append_left _ (lastEntry_mem hlast))).1 (Or.inr hop)
      have hobj' :=
        (hone _ (List.mem_append_left _ (List.mem_append_left _ (lastEntry_mem hlast')))).1
        (Or.inl hop')
      refine ⟨inv, obj, hlast, hop, a₁, a₂, inv', rfl, ?_, hop', hword⟩
      rw [hlast', hobj, hobj']
  · rintro a b p rfl
    obtain ⟨σ₁, σ₂, h1, hs, -⟩ := hrun.split_at
    have ht := traced_run hinit h1
    cases hs.does with
    | woke hpc hsig =>
      obtain ⟨inv, obj, hlast, hop, -⟩ := ht.entry p _ (by rw [hpc]; rfl)
      have hobj := (hone _ (List.mem_append_left _ (lastEntry_mem hlast))).2 (Or.inl hop)
      obtain ⟨obj', a₁, a₂, hno, hsrc⟩ := ht.latch hsig
      refine ⟨inv, obj, hlast, hop, a₁, a₂, hno, ?_⟩
      rcases hsrc with ⟨p', inv', rfl, hlast', hop'⟩ | ⟨rfl, rfl⟩
      · have hobj' :=
          (hone _ (List.mem_append_left _ (List.mem_append_left _ (lastEntry_mem hlast')))).2
          (Or.inr hop')
        exact Or.inl ⟨p', inv', rfl, by rw [hlast', hobj, hobj'], hop'⟩
      · have hkernel : n = NOTIF_ID := hone .kernelRaised (by simp)
        exact Or.inr ⟨rfl, hobj.trans hkernel⟩

/-- One message on endpoint 7: process 1 posts it, process 3 receives it. -/
def oneMessage : List Input :=
  [.trap 1 (invocation 2 op.ENDPOINT_CALL 10), .resume 1, .trap 3 (invocation 2 op.ENDPOINT_RECV 0),
    .resume 3, .resume 3]

theorem ipc_confined_oneMessage :
    ∃ tr σ, Run Step threeProcs tr σ ∧ (∀ e ∈ tr, e.On 7 0) ∧
    ∃ a inv obj, tr = a ++ [.minted 3 1 10] ∧ lastEntry a 3 = some (inv, obj) ∧
      Posted a obj 1 10 := by
  obtain ⟨tr, σ, hrun, htr⟩ : ∃ tr σ, Run Step threeProcs tr σ ∧
      tr = [.entered 1 (invocation 2 op.ENDPOINT_CALL 10) 7, .posted 1 10,
        .entered 3 (invocation 2 op.ENDPOINT_RECV 0) 7, .took 3 1 10, .minted 3 1 10] :=
    exists_run step_of_next oneMessage (fun tr => tr) (by decide +kernel)
  have hone : ∀ e ∈ tr, e.On 7 0 := by
    rw [htr]
    decide
  have hsplit : tr = tr.dropLast ++ [.minted 3 1 10] := by
    rw [htr]
    rfl
  obtain ⟨inv, obj, hlast, -, hposted⟩ :=
    (ipc_confined threeProcs_init hrun hone).1 _ [] 3 1 10 hsplit
  exact ⟨tr, σ, hrun, hone, _, inv, obj, hsplit, hlast, hposted⟩

/-! ## Two endpoints -/

/-- Process 1 may CALL on endpoint 5 and SIGNAL notification 9; process 3 may RECV on
endpoint 6 and WAIT on notification 8. -/
def strangers : Kernel where
  cspaces p :=
    if p = 1 then some ((endpointSpace 5 Rights.SEND).put 5 ⟨⟨.notification, Rights.SIGNAL, 9, 0, 0,
      0, 0⟩, NIL⟩)
    else if p = 3 then some ((endpointSpace 6 Rights.RECV).put 5 ⟨⟨.notification, Rights.WAIT, 8, 0,
    0, 0, 0⟩, NIL⟩) else none
  pc _ := .user
  rdv := ⟨none, 0, none⟩
  notify := ⟨false, none⟩

/-- Process 1 calls and process 3 receives; process 1 cannot signal from inside its CALL,
so process 3 answers first, and then waits for a signal of process 1. -/
def crossing : List Input :=
  [.trap 1 (invocation 2 op.ENDPOINT_CALL 10), .resume 1, .trap 3 (invocation 2 op.ENDPOINT_RECV 0),
    .resume 3, .resume 3, .trap 3 (invocation 3 op.ENDPOINT_REPLY 99), .resume 3, .resume 1,
    .trap 3 (invocation 5 op.NOTIFY_WAIT 0), .resume 3,
    .trap 1 (invocation 5 op.NOTIFY_SIGNAL 0), .resume 1, .resume 3]

theorem strangers_init : Init strangers := by
  refine ⟨rfl, rfl, rfl, fun q => Or.inl rfl, fun q cs d hcs hl => ?_⟩
  have hspace : ∃ obj rights cap, cap.capType = .notification ∧
    cs = (endpointSpace obj rights).put 5 ⟨cap, NIL⟩ := by
    simp only [strangers] at hcs
    split_ifs at hcs
    · cases hcs
      exact ⟨_, _, _, rfl, rfl⟩
    · cases hcs
      exact ⟨_, _, _, rfl, rfl⟩
  obtain ⟨obj, rights, cap, hty, rfl⟩ := hspace
  unfold CSpace.Live at hl
  rw [CSpace.slot_put _ _ _ _ (by decide)] at hl ⊢
  split at hl
  · next e =>
    rw [if_pos e, hty]
    simp
  · next e =>
    rw [if_neg e, (endpointSpace_live obj rights d hl).2]
    simp

/-- **Two endpoints, one rendezvous.**  A RECV through endpoint 6 returns what a CALL
through endpoint 5 posted, and a WAIT on notification 8 ends by a SIGNAL of
notification 9: process 1 holds no capability to 6 or 8. -/
theorem ipc_crosses :
    Init strangers ∧ ∃ tr σ, Run Step strangers tr σ ∧ tr =
    [.entered 1 (invocation 2 op.ENDPOINT_CALL 10) 5, .posted 1 10,
      .entered 3 (invocation 2 op.ENDPOINT_RECV 0) 6,
      .took 3 1 10, .minted 3 1 10, .consumed 3 replyPtr 1 99, .replied 3 99, .returned 1 99,
      .entered 3 (invocation 5 op.NOTIFY_WAIT 0) 8, .registered 3,
        .entered 1 (invocation 5 op.NOTIFY_SIGNAL 0) 9,
      .raised 1, .woke 3] := by
  exact ⟨strangers_init, exists_run step_of_next crossing (fun tr => tr) (by decide +kernel)⟩

end User

end Praesidium
