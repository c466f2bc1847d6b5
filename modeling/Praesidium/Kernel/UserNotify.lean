import Praesidium.Ipc.Notification
import Praesidium.Kernel.UserCall

/-!
WAIT and SIGNAL: the kernel's latch against the notification object.

The kernel keeps one bit and lets the waiters look at it; the object keeps a queue and picks a
waiter when the signal comes.  They agree as long as, from a signal that finds a waiter blocked
until one has looked, no other signal is raised and no other wait begins (`CalmStep`):

    Run CalmStep σ₀ tr σ → ∃ t, Run (Service.Step List.Perm) .new (tr.filterMap Event.obs) t
        (notify_refines)

and with the object's own order if the waiters look in the order they came.  Without that, the
second of two signals is lost (`signal_lost`).
-/

namespace Praesidium

namespace User

open Service (Obs)

/-- What can be seen of the notification. -/
def Event.obs : Event → Option Obs
  | .registered p => some (.wait p)
  | .raised _ => some .signal
  | .kernelRaised => some .signal
  | .woke p => some (.done p)
  | .waitYield p => some (.blocked p)
  | _ => none

/-- A signal, or the start of a wait. -/
def Event.notifies : Event → Bool
  | .registered _ => true
  | .raised _ => true
  | .kernelRaised => true
  | _ => false

/-- While the latch is set and a waiter is blocked, the waiters look first. -/
def CalmStep (σ : Kernel) (e : Event) (σ' : Kernel) : Prop :=
  Step σ e σ' ∧ (σ.notify.signaled = true → (∃ p, σ.pc p = .waitPoll) → e.notifies = false)

/-- Who is blocked, in the order in which the waits began. -/
def blocked (tr : List Event) : List ProcId :=
  tr.foldl (fun l e => match e with
    | .registered p => l ++ [p]
    | .woke p => l.erase p
    | _ => l) []

theorem blocked_registered (tr : List Event) (p : ProcId) :
    blocked (tr ++ [.registered p]) = blocked tr ++ [p] := by
  unfold blocked
  rw [List.foldl_append]
  rfl

theorem blocked_woke (tr : List Event) (p : ProcId) :
    blocked (tr ++ [.woke p]) = (blocked tr).erase p := by
  unfold blocked
  rw [List.foldl_append]
  rfl

theorem blocked_other (tr : List Event) {e : Event} (h1 : ∀ p, e ≠ .registered p)
    (h2 : ∀ p, e ≠ .woke p) : blocked (tr ++ [e]) = blocked tr := by
  unfold blocked
  rw [List.foldl_append, List.foldl_cons, List.foldl_nil]
  split
  · next p => exact absurd rfl (h1 p)
  · next p => exact absurd rfl (h2 p)
  · rfl

/-- The blocked waiters are those at the poll of a wait. -/
structure Waiters (tr : List Event) (σ : Kernel) : Prop where
  iff : ∀ p, p ∈ blocked tr ↔ σ.pc p = .waitPoll
  nodup : (blocked tr).Nodup

/-- The service has seen what `tr` shows and is in a state that fits the latch.  Once a signal has
found waiters, any of those that `order` puts first may be the one it released. -/
structure Serves (order : List PartyId → List PartyId → Prop) (tr : List Event) (σ : Kernel) :
    Prop where
  quiet : σ.notify.signaled = false →
    Run (Service.Step order) .new (tr.filterMap Event.obs) ⟨⟨false, blocked tr⟩, []⟩
  latched : σ.notify.signaled = true → blocked tr = [] →
    Run (Service.Step order) .new (tr.filterMap Event.obs) ⟨⟨true, []⟩, []⟩
  due : σ.notify.signaled = true → ∀ p ∈ blocked tr,
    order (blocked tr) (p :: (blocked tr).erase p) →
    Run (Service.Step order) .new (tr.filterMap Event.obs) ⟨⟨false, (blocked tr).erase p⟩, [p]⟩

variable {σ σ' : Kernel} {tr : List Event} {e : Event} {order : List PartyId → List PartyId → Prop}

/-! ## Who waits -/

theorem Waiters.hidden (h : Waiters tr σ) (hd : Does σ e σ') (h1 : ∀ p, e ≠ .registered p)
    (h2 : ∀ p, e ≠ .woke p) : Waiters (tr ++ [e]) σ' := by
  have keep : ∀ {p pc}, σ.pc p ≠ .waitPoll → pc ≠ .waitPoll → ∀ {τ : Kernel}, τ.pc = σ.pc → ∀ q,
      ((τ.goto p pc).pc q = .waitPoll ↔ σ.pc q = .waitPoll) := by
    intro p pc hold hnew τ hτ q
    rw [goto_pc, hτ]
    split
    · next hq =>
      rw [hq]
      exact ⟨fun hc => absurd hc hnew, fun hc => absurd hc hold⟩
    · exact Iff.rfl
  have same : ∀ q, σ'.pc q = .waitPoll ↔ σ.pc q = .waitPoll := by
    cases hd with
    | entered hpc _ _ hsec =>
      refine keep (by rw [hpc]; decide) (fun hc => ?_) rfl
      unfold firstSection at hsec
      rw [hc] at hsec
      split_ifs at hsec
      · cases hsec
      · cases hsec
      · cases hsec
      · cases hsec
    | refused hpc | exited hpc | consumed hpc _ _ _ _ | returned hpc _ | took hpc _ | raised hpc
    | faulted hpc => exact keep (by rw [hpc]; decide) Pc.noConfusion rfl
    | answered _ | emitted _ | callYield _ _ | recvYield _ _ | waitYield _ _ | kernelRaised =>
      exact fun _ => Iff.rfl
    | posted hpc | minted hpc _ _ _ | unminted hpc | replied hpc =>
      exact keep (by rw [hpc]; exact Pc.noConfusion) Pc.noConfusion rfl
    | registered _ => exact absurd rfl (h1 _)
    | woke _ _ => exact absurd rfl (h2 _)
  refine ⟨fun q => ?_, ?_⟩
  · rw [blocked_other tr h1 h2, h.iff, same]
  · rw [blocked_other tr h1 h2]
    exact h.nodup

variable {p : ProcId} {τ σ₀ : Kernel}

theorem Waiters.registered (h : Waiters tr σ) (hpc : σ.pc p = .waitRegister) (hτ : τ.pc = σ.pc) :
    Waiters (tr ++ [.registered p]) (τ.goto p .waitPoll) := by
  have away : p ∉ blocked tr := fun hc => by
    rw [h.iff, hpc] at hc
    cases hc
  constructor
  · intro q
    rw [blocked_registered, goto_pc, hτ, List.mem_append, List.mem_singleton, h.iff]
    split
    · next hq => exact ⟨fun _ => rfl, fun _ => .inr hq⟩
    · next hq => exact ⟨fun hc => hc.resolve_right hq, .inl⟩
  · rw [blocked_registered]
    refine List.nodup_append.mpr ⟨h.nodup, List.pairwise_singleton .., fun a ha b hb => ?_⟩
    rw [List.mem_singleton.mp hb]
    exact fun hc => away (hc ▸ ha)

theorem Waiters.woke (h : Waiters tr σ) (hτ : τ.pc = σ.pc) :
    Waiters (tr ++ [.woke p]) (τ.goto p .user) := by
  constructor
  · intro q
    rw [blocked_woke, goto_pc, hτ, h.nodup.mem_erase_iff, h.iff]
    split
    · next hq => exact ⟨fun hc => absurd hq hc.1, fun hc => by cases hc⟩
    · next hq => exact ⟨And.right, fun hc => ⟨hq, hc⟩⟩
  · rw [blocked_woke]
    exact h.nodup.erase _

theorem Waiters.step (h : Waiters tr σ) (hd : Does σ e σ') : Waiters (tr ++ [e]) σ' := by
  cases he : e with
  | registered p =>
    rw [he] at hd
    cases hd with
    | registered hpc => exact h.registered hpc rfl
  | woke p =>
    rw [he] at hd
    cases hd with
    | woke _ _ => exact h.woke rfl
  | _ =>
    rw [← he]
    exact h.hidden hd (fun p hc => by rw [hc] at he; cases he)
      (fun p hc => by rw [hc] at he; cases he)

theorem Waiters.init (h : Init σ) : Waiters [] σ := by
  refine ⟨fun p => ⟨fun hc => (nomatch hc), fun hc => ?_⟩, List.nodup_nil⟩
  rcases h.pc p with hp | ⟨code, hp⟩
  · rw [hp] at hc
    cases hc
  · rw [hp] at hc
    cases hc

/-! ## What the service does -/

theorem obs_hidden (tr : List Event) (h : e.obs = none) :
    (tr ++ [e]).filterMap Event.obs = tr.filterMap Event.obs := by
  rw [List.filterMap_append]
  simp [h]

theorem obs_shown (tr : List Event) {o : Obs} (h : e.obs = some o) :
    (tr ++ [e]).filterMap Event.obs = tr.filterMap Event.obs ++ [o] := by
  rw [List.filterMap_append]
  simp [h]

namespace Serves

theorem hidden (h : Serves order tr σ) (he : e.obs = none)
    (hs : σ'.notify.signaled = σ.notify.signaled) : Serves order (tr ++ [e]) σ' := by
  have same : blocked (tr ++ [e]) = blocked tr :=
    blocked_other tr (fun p hc => by rw [hc] at he; cases he) fun p hc => by rw [hc] at he; cases he
  constructor
  · rw [same, obs_hidden tr he, hs]
    exact h.quiet
  · rw [same, obs_hidden tr he, hs]
    exact h.latched
  · rw [same, obs_hidden tr he, hs]
    exact h.due

variable {p : ProcId}

theorem waitYield (h : Serves order tr σ) (hs : σ.notify.signaled = false) :
    Serves order (tr ++ [.waitYield p]) σ := by
  have same : blocked (tr ++ [.waitYield p]) = blocked tr :=
    blocked_other tr (fun _ => Event.noConfusion) fun _ => Event.noConfusion
  constructor
  · intro _
    rw [same, obs_shown tr rfl]
    exact (h.quiet hs).snoc ⟨List.not_mem_nil, rfl⟩
  · intro hc
    rw [hs] at hc
    cases hc
  · intro hc
    rw [hs] at hc
    cases hc

/-- A wait begins.  If the latch is set nobody is blocked, and the wait takes the signal. -/
theorem registered (h : Serves order tr σ) (hs : σ'.notify.signaled = σ.notify.signaled)
    (hcalm : σ.notify.signaled = true → blocked tr = []) :
    Serves order (tr ++ [.registered p]) σ' := by
  constructor
  · intro hc
    rw [hs] at hc
    rw [blocked_registered, obs_shown tr rfl]
    exact (h.quiet hc).snoc rfl
  · intro _ hc
    rw [blocked_registered] at hc
    exact absurd hc (List.append_ne_nil_of_right_ne_nil _ (List.cons_ne_nil _ _))
  · intro hc q hq _
    rw [hs] at hc
    have nil := hcalm hc
    rw [blocked_registered, nil] at hq ⊢
    rw [obs_shown tr rfl, List.mem_singleton.mp hq, List.nil_append, List.erase_cons_head]
    exact (h.latched hc nil).snoc rfl

/-- A signal comes.  If the latch is set nobody is blocked, and it stays set. -/
theorem raised (hrefl : ∀ l, order l l) (h : Serves order tr σ) (he : e.obs = some .signal)
    (hs : σ'.notify.signaled = true) (hcalm : σ.notify.signaled = true → blocked tr = []) :
    Serves order (tr ++ [e]) σ' := by
  have same : blocked (tr ++ [e]) = blocked tr :=
    blocked_other tr (fun p hc => by rw [hc] at he; cases he) fun p hc => by rw [hc] at he; cases he
  constructor
  · intro hc
    rw [hs] at hc
    cases hc
  · intro _ nil
    rw [same] at nil
    rw [obs_shown tr he]
    cases hold : σ.notify.signaled with
    | true => exact (h.latched hold nil).snoc ⟨[], hrefl _, rfl⟩
    | false =>
      have quiet := h.quiet hold
      rw [nil] at quiet
      exact quiet.snoc ⟨[], hrefl _, rfl⟩
  · intro _ p hp horder
    rw [same] at hp horder ⊢
    rw [obs_shown tr he]
    cases hold : σ.notify.signaled with
    | true =>
      rw [hcalm hold] at hp
      cases hp
    | false => exact (h.quiet hold).snoc ⟨_, horder, rfl⟩

theorem woke (h : Serves order tr σ) (hs : σ.notify.signaled = true) (hp : p ∈ blocked tr)
    (horder : order (blocked tr) (p :: (blocked tr).erase p)) (hs' : σ'.notify.signaled = false) :
    Serves order (tr ++ [.woke p]) σ' := by
  constructor
  · intro _
    rw [blocked_woke, obs_shown tr rfl]
    refine (h.due hs p hp horder).snoc ⟨List.mem_singleton.mpr rfl, ?_⟩
    rw [List.erase_cons_head]
  · intro hc
    rw [hs'] at hc
    cases hc
  · intro hc
    rw [hs'] at hc
    cases hc

theorem step (hrefl : ∀ l, order l l) (h : Serves order tr σ) (hw : Waiters tr σ) (hd : Does σ e σ')
    (hcalm : σ.notify.signaled = true → (∃ p, σ.pc p = .waitPoll) → e.notifies = false)
    (horder : ∀ p, e = .woke p → order (blocked tr) (p :: (blocked tr).erase p)) :
    Serves order (tr ++ [e]) σ' := by
  have calm : e.notifies = true → σ.notify.signaled = true → blocked tr = [] := fun hn hs => by
    refine List.eq_nil_iff_forall_not_mem.mpr fun p hp => ?_
    rw [hcalm hs ⟨p, (hw.iff p).mp hp⟩] at hn
    cases hn
  cases hd with
  | entered _ _ _ _ | refused _ | answered _ | emitted _ | exited _ | consumed _ _ _ _ _
  | posted _ | callYield _ _ | returned _ _ | recvYield _ _ | took _ _ | minted _ _ _ _
  | unminted _ | replied _ | faulted _ => exact h.hidden rfl rfl
  | registered _ => exact h.registered rfl (calm rfl)
  | waitYield _ hs => exact h.waitYield hs
  | woke hpc hs => exact h.woke hs ((hw.iff _).mpr hpc) (horder _ rfl) rfl
  | raised _ | kernelRaised => exact h.raised hrefl rfl rfl (calm rfl)

theorem init (h : Init σ) : Serves order [] σ := by
  constructor
  · intro _
    exact .nil _
  · intro hc
    rw [h.signaled] at hc
    cases hc
  · intro _ p hp
    cases hp

end Serves

theorem does_of_step (h : Step σ e σ') : Does σ e σ' := by
  obtain ⟨i, hi⟩ := h
  exact next_does i hi

theorem waiters_run (hinit : Init σ₀) (hrun : Run Step σ₀ tr σ) : Waiters tr σ :=
  hrun.inv_trace Waiters (.init hinit) fun _ _ _ _ h hs => h.step (does_of_step hs)

/-- The latch serves in any order that the wake-ups keep to. -/
theorem serves_run (hrefl : ∀ l, order l l) (hinit : Init σ₀) (hrun : Run CalmStep σ₀ tr σ)
    (horder : ∀ pre p post, tr = pre ++ .woke p :: post →
      order (blocked pre) (p :: (blocked pre).erase p)) : Serves order tr σ := by
  induction hrun with
  | nil => exact .init hinit
  | snoc hrun hs ih =>
    have serves := ih fun pre p post heq =>
      horder pre p (post ++ [_]) (by rw [heq, List.append_assoc]; rfl)
    have waiters := waiters_run hinit (hrun.mono fun _ _ _ _ h => h.1)
    exact serves.step hrefl waiters (does_of_step hs.1) hs.2 fun p he => horder _ p [] (by rw [he])

theorem Serves.exists_run (hrefl : ∀ l, order l l) (h : Serves order tr σ) :
    ∃ t, Run (Service.Step order) .new (tr.filterMap Event.obs) t := by
  cases hs : σ.notify.signaled with
  | false => exact ⟨_, h.quiet hs⟩
  | true =>
    cases hb : blocked tr with
    | nil => exact ⟨_, h.latched hs hb⟩
    | cons p rest =>
      have due := h.due hs p (by rw [hb]; exact List.mem_cons_self)
      rw [hb, List.erase_cons_head] at due
      exact ⟨_, due (hrefl _)⟩

/-- **The latch refines the notification** in calm runs: every signal that finds waiters releases
one
of them, and with the waiters looking in the order they came it is the object's own choice. -/
theorem notify_refines {σ₀ : Kernel} (hinit : Init σ₀) (hrun : Run CalmStep σ₀ tr σ) :
    (∃ t, Run (Service.Step List.Perm) .new (tr.filterMap Event.obs) t) ∧
    ((∀ pre p post, tr = pre ++ .woke p :: post → (blocked pre).head? = some p) →
      ∃ t, Run (Service.Step Eq) .new (tr.filterMap Event.obs) t) := by
  constructor
  · refine (serves_run List.Perm.refl hinit hrun ?_).exists_run List.Perm.refl
    rintro pre p post rfl
    obtain ⟨σ₁, _, hpre, hs, _⟩ := (hrun.mono fun _ _ _ _ h => h.1).split_at
    have hp : p ∈ blocked pre := by
      rw [(waiters_run hinit hpre).iff]
      cases does_of_step hs with
      | woke hpc _ => exact hpc
    exact List.perm_cons_erase hp
  · intro hfirst
    refine (serves_run (fun _ => rfl) hinit hrun ?_).exists_run fun _ => rfl
    intro pre p post heq
    obtain ⟨rest, hrest⟩ := List.head?_eq_some_iff.mp (hfirst pre p post heq)
    rw [hrest, List.erase_cons_head]

/-! ## One signal, and two -/

/-- A space with a `Notification` to object 8 at slot 5. -/
def notificationSpace (rights : Rights) : CSpace PROCESS_SLOTS :=
  CSpace.new.put 5 ⟨⟨.notification, rights, 8, 0, 0, 0, 0⟩, NIL⟩

/-- Processes 1 and 2 may WAIT and process 3 may SIGNAL. -/
def twoWaiters : Kernel where
  cspaces p :=
    if p = 1 ∨ p = 2 then some (notificationSpace Rights.WAIT)
    else if p = 3 then some (notificationSpace Rights.SIGNAL)
    else none
  pc _ := .user
  rdv := ⟨none, 0, none⟩
  notify := ⟨false, none⟩

theorem twoWaiters_init : Init twoWaiters := by
  refine ⟨rfl, rfl, rfl, fun q => Or.inl rfl, fun q cs d hcs hl => ?_⟩
  have hspace : ∃ rights, cs = notificationSpace rights := by
    simp only [twoWaiters] at hcs
    split_ifs at hcs
    · cases hcs
      exact ⟨_, rfl⟩
    · cases hcs
      exact ⟨_, rfl⟩
  obtain ⟨rights, rfl⟩ := hspace
  have hslot : (notificationSpace rights).slot d =
      if d = 5 then ⟨⟨.notification, rights, 8, 0, 0, 0, 0⟩,
        NIL⟩ else (CSpace.new : CSpace PROCESS_SLOTS).slot d := CSpace.slot_put _ 5 d _ (by decide)
  by_cases e : d = 5
  · rw [hslot, if_pos e]
    simp
  · rw [if_neg e, CSpace.slot_new] at hslot
    exact absurd hl (CSpace.not_live_empty _ d hslot)

/-- The step, unless it is a signal or the start of a wait while the latch is set. -/
def Kernel.calmNext (σ : Kernel) (i : Input) : Option (Event × Kernel) :=
  (σ.next i).filter fun r => !(r.1.notifies && σ.notify.signaled)

theorem calm_of_calmNext (σ : Kernel) (i : Input) (e : Event) (σ' : Kernel)
    (h : σ.calmNext i = some (e, σ')) : CalmStep σ e σ' := by
  obtain ⟨hnext, hcalm⟩ := Option.filter_eq_some_iff.mp h
  refine ⟨⟨i, hnext⟩, fun hs _ => ?_⟩
  rw [hs, Bool.and_true, Bool.not_eq_true'] at hcalm
  exact hcalm

/-- Process 1 waits, process 2 waits, process 3 signals, process 1 returns and process 2 goes on
waiting. -/
def oneSignal : List Input :=
  [.trap 1 (invocation 5 op.NOTIFY_WAIT 0), .resume 1, .trap 2 (invocation 5 op.NOTIFY_WAIT 0),
    .resume 2, .trap 3 (invocation 5 op.NOTIFY_SIGNAL 0), .resume 3, .resume 1, .resume 2]

theorem notify_refines_oneSignal : ∃ tr σ, Run CalmStep twoWaiters tr σ ∧
    tr.filterMap Event.obs = [.wait 1, .wait 2, .signal, .done 1, .blocked 2] ∧
    ∃ t, Run (Service.Step List.Perm) .new [.wait 1, .wait 2, .signal, .done 1, .blocked 2] t := by
  obtain ⟨tr, σ, hrun, hlog⟩ : ∃ tr σ, Run CalmStep twoWaiters tr σ ∧
      tr.filterMap Event.obs = [.wait 1, .wait 2, .signal, .done 1, .blocked 2] :=
    exists_run calm_of_calmNext oneSignal (List.filterMap Event.obs) (by decide +kernel)
  have hserved := (notify_refines twoWaiters_init hrun).1
  rw [hlog] at hserved
  exact ⟨tr, σ, hrun, hlog, hserved⟩

/-- Processes 1 and 2 wait; process 3 signals, and the kernel raises the notification before either
has looked; then both look. -/
def twoSignals : List Input :=
  [.trap 1 (invocation 5 op.NOTIFY_WAIT 0), .resume 1, .trap 2 (invocation 5 op.NOTIFY_WAIT 0),
    .resume 2, .trap 3 (invocation 5 op.NOTIFY_SIGNAL 0), .resume 3, .raise, .resume 1, .resume 2]

/-- **Two signals at once.**  Two signals find two waiters blocked.  One returns and the other has
to
go on waiting, which the notification object does not allow in any order. -/
theorem signal_lost :
    Init twoWaiters ∧ ∃ tr σ, Run Step twoWaiters tr σ ∧
    tr.filterMap Event.obs = [.wait 1, .wait 2, .signal, .signal, .done 1, .blocked 2] ∧
    ¬ ∃ t, Run (Service.Step List.Perm) .new (tr.filterMap Event.obs) t := by
  obtain ⟨tr, σ, hrun, hlog⟩ : ∃ tr σ, Run Step twoWaiters tr σ ∧
      tr.filterMap Event.obs = [.wait 1, .wait 2, .signal, .signal, .done 1, .blocked 2] :=
    exists_run step_of_next twoSignals (List.filterMap Event.obs) (by decide +kernel)
  refine ⟨twoWaiters_init, tr, σ, hrun, hlog, ?_⟩
  rw [hlog]
  rintro ⟨t, hserved⟩
  obtain ⟨s, hrest, hboth⟩ := Service.two_released hserved
  obtain ⟨s1, ⟨_, hdone⟩, hrest⟩ := hrest.cons_inv
  obtain ⟨s2, ⟨hblocked, _⟩, _⟩ := hrest.cons_inv
  -- process 2 is still released
  rw [hdone] at hblocked
  refine hblocked ((hboth.erase 1).mem_iff.mpr ?_)
  decide

end User

end Praesidium
