import Praesidium.Kernel.User
import Praesidium.Lib.Run

/-!
CALL, RECV and REPLY: the rendezvous as a protocol.

What the rendezvous is for is a machine of seven phases (`Phase`): a round begins with a
post, the message is taken, the `Reply` is minted, consumed, the word is set, and the
caller returns with it.

    Run Phase.Step .idle l ph  →  l ends with the events of the round that `ph` is in    (phase_log)

The kernel follows this machine as long as no process posts while another one is inside
its CALL (`SoleStep`):

    Run SoleStep σ₀ tr σ  →  Run Phase.Step .idle (tr.filter Event.rdv) ph, Agrees σ ph
        (call_phases)

With two callers at once it does not: the second post replaces the first, and whoever
polls next gets the reply (`call_miscorrelated`).
-/

namespace Praesidium

namespace User

/-! ## The protocol -/

/-- The events of the rendezvous. -/
def Event.rdv : Event → Bool
  | .posted _ _ => true
  | .took _ _ _ => true
  | .minted _ _ _ => true
  | .unminted _ _ => true
  | .consumed _ _ _ _ => true
  | .replied _ _ => true
  | .returned _ _ => true
  | _ => false

/-- The slot that holds the `Reply`, as the index in an invocation. -/
def replyPtr : U32 := BitVec.ofNat 32 REPLY_SLOT

/-- The caller `p`, its message, the server `s` and its answer, as far as they are known. -/
inductive Phase where
  | idle
  | posted (p : ProcId) (msg : U64)
  | taken (s p : ProcId) (msg : U64)
  | held (s p : ProcId) (msg : U64)
  | consumed (s p : ProcId) (msg word : U64)
  | replied (s p : ProcId) (msg word : U64)
  | lost (s p : ProcId) (msg : U64)

inductive Phase.Step : Phase → Event → Phase → Prop
  | post {p msg} : Step .idle (.posted p msg) (.posted p msg)
  | take {s p msg} : Step (.posted p msg) (.took s p msg) (.taken s p msg)
  | mint {s p msg} : Step (.taken s p msg) (.minted s p msg) (.held s p msg)
  | lose {s p msg} : Step (.taken s p msg) (.unminted s p) (.lost s p msg)
  | consume {s p msg word} : Step (.held s p msg) (.consumed s replyPtr p word)
      (.consumed s p msg word)
  | reply {s p msg word} : Step (.consumed s p msg word) (.replied s word) (.replied s p msg word)
  | ret {s p msg word} : Step (.replied s p msg word) (.returned p word) .idle

/-- The round so far. -/
def Phase.log : Phase → List Event
  | .idle => []
  | .posted p msg => [.posted p msg]
  | .taken s p msg => [.posted p msg, .took s p msg]
  | .held s p msg => [.posted p msg, .took s p msg, .minted s p msg]
  | .consumed s p msg word =>
    [.posted p msg, .took s p msg, .minted s p msg, .consumed s replyPtr p word]
  | .replied s p msg word =>
    [.posted p msg, .took s p msg, .minted s p msg, .consumed s replyPtr p word, .replied s word]
  | .lost s p msg => [.posted p msg, .took s p msg, .unminted s p]

theorem phase_log {l : List Event} {ph : Phase} (h : Run Phase.Step .idle l ph) :
    ∃ l', l = l' ++ ph.log := by
  refine h.inv_trace (fun l ph => ∃ l', l = l' ++ ph.log) ⟨[], rfl⟩ (fun l ph e ph' ih hs => ?_)
  obtain ⟨l', rfl⟩ := ih
  cases hs with
  | ret => exact ⟨_, (List.append_nil _).symm⟩
  | post | take | mint | lose | consume | reply => exact ⟨l', by simp [Phase.log]⟩

/-! ## The kernel and the protocol -/

/-- The sections of a rendezvous that a process can be in the middle of. -/
def Pc.engaged : Pc → Option Pc
  | .callPoll => some .callPoll
  | .recvMint c msg => some (.recvMint c msg)
  | .replySet word => some (.replySet word)
  | _ => none

/-- Who is engaged, and how. -/
def Phase.role : Phase → ProcId → Option Pc
  | .idle, _ => none
  | .posted p _, q => if q = p then some .callPoll else none
  | .taken s p msg, q =>
    if q = s then some (.recvMint p msg) else if q = p then some .callPoll else none
  | .held _ p _, q => if q = p then some .callPoll else none
  | .consumed s p _ word, q =>
    if q = s then some (.replySet word) else if q = p then some .callPoll else none
  | .replied _ p _ _, q => if q = p then some .callPoll else none
  | .lost _ p _, q => if q = p then some .callPoll else none

/-- The server, inside its section. -/
def Phase.serving : Phase → Option (ProcId × Pc)
  | .taken s p msg => some (s, .recvMint p msg)
  | .consumed s _ _ word => some (s, .replySet word)
  | _ => none

/-- What the rendezvous holds. -/
def Phase.Holds : Phase → Rdv → Prop
  | .posted p msg, r => r = ⟨some p, msg, none⟩
  | .replied _ _ _ word, r => r.caller = none ∧ r.reply = some word
  | _, r => r.caller = none ∧ r.reply = none

/-- A server is not its own caller. -/
def Phase.Apart : Phase → Prop
  | .taken s p _ => s ≠ p
  | .consumed s p _ _ => s ≠ p
  | _ => True

structure Agrees (σ : Kernel) (ph : Phase) : Prop where
  rdv : ph.Holds σ.rdv
  pc : ∀ q, (σ.pc q).engaged = ph.role q
  apart : ph.Apart
  reply : ∀ q cs d, σ.cspaces q = some cs → cs.Live d → (cs.slot d).cap.capType = .reply →
    d = REPLY_SLOT ∧ ∃ msg, ph = .held q (cs.slot d).cap.objref msg

/-- The processes are in their own code, nothing is posted or raised, and no one holds a
`Reply`. -/
structure Init (σ : Kernel) : Prop where
  caller : σ.rdv.caller = none
  reply : σ.rdv.reply = none
  signaled : σ.notify.signaled = false
  pc : ∀ q, σ.pc q = .user ∨ ∃ code, σ.pc q = .retired code
  spaces : ∀ q cs d, σ.cspaces q = some cs → cs.Live d → (cs.slot d).cap.capType ≠ .reply

/-- No CALL is posted while another one is open. -/
def SoleStep (σ : Kernel) (e : Event) (σ' : Kernel) : Prop :=
  Step σ e σ' ∧ ∀ p msg, e = .posted p msg → ∀ q, σ.pc q ≠ .callPoll

theorem Init.agrees {σ : Kernel} (h : Init σ) : Agrees σ .idle := by
  refine ⟨⟨h.caller, h.reply⟩, fun q => ?_, trivial, fun q cs d hcs hl ht =>
    absurd ht (h.spaces q cs d hcs hl)⟩
  rcases h.pc q with hq | ⟨code, hq⟩
  · rw [hq]
    rfl
  · rw [hq]
    rfl

variable {σ σ' : Kernel} {ph : Phase} {e : Event} {p q : ProcId}

theorem goto_pc (σ : Kernel) (p : ProcId) (pc : Pc) (q : ProcId) :
    (σ.goto p pc).pc q = if q = p then pc else σ.pc q := by
  unfold Kernel.goto
  exact Function.update_apply _ _ _ _

theorem goto_engaged {role : ProcId → Option Pc} (h : ∀ q, (σ.pc q).engaged = role q) (p : ProcId)
    (pc : Pc) (q : ProcId) :
    ((σ.goto p pc).pc q).engaged = if q = p then pc.engaged else role q := by
  rw [goto_pc]
  split
  · rfl
  · exact h q

variable {pc : Pc} {c s : ProcId} {tr : List Event}

section

variable (h : Agrees σ ph)

include h

/-- A step that neither begins nor ends an engagement, and leaves rendezvous and spaces. -/
theorem Agrees.sleep (hold : (σ.pc p).engaged = none) (hnew : pc.engaged = none)
    (hr : σ'.rdv = σ.rdv) (hs : σ'.cspaces = σ.cspaces)
    (hpc : ∀ q, σ'.pc q = if q = p then pc else σ.pc q) : Agrees σ' ph := by
  refine ⟨by rw [hr]; exact h.rdv, fun q => ?_, h.apart, fun q cs d hcs => h.reply q cs d
    (by rw [← hs]; exact hcs)⟩
  rw [hpc q]
  split
  · next e =>
    rw [hnew, ← hold, e]
    exact h.pc p
  · exact h.pc q

/-- The events outside the protocol. -/
theorem Agrees.hidden (hd : Does σ e σ') (hv : e.rdv = false) : Agrees σ' ph := by
  have quiet : ∀ (p : ProcId) (pc : Pc) (old : Pc), σ.pc p = old → old.engaged = none →
    pc.engaged = none → Agrees (σ.goto p pc) ph := by
    intro p pc old hold ho hn
    exact h.sleep (by rw [hold]; exact ho) hn rfl rfl (goto_pc σ p pc)
  cases hd with
  | @entered p inv cs v pc hpc hcs hinv hfirst =>
    refine quiet p pc .user hpc rfl ?_
    unfold firstSection at hfirst
    split_ifs at hfirst <;> cases hfirst <;> rfl
  | refused hpc | exited hpc | faulted hpc => exact quiet _ _ _ hpc rfl rfl
  | answered | emitted | callYield | recvYield | waitYield => exact h
  | @registered p hpc => exact h.sleep (by rw [hpc]; rfl) rfl rfl rfl (goto_pc _ p .waitPoll)
  | @woke p hpc | @raised p hpc => exact h.sleep (by rw [hpc]; rfl) rfl rfl rfl (goto_pc _ p .user)
  | kernelRaised => exact ⟨h.rdv, h.pc, h.apart, h.reply⟩
  | posted | returned | took | minted | unminted | consumed | replied => cases hv

/-! ### Each event finds the phase it needs -/

theorem Agrees.idle_of (hfree : ∀ q, σ.pc q ≠ .callPoll) : ph = .idle := by
  have hno : ∀ q, ph.role q ≠ some .callPoll := by
    intro q hq
    have := h.pc q
    rw [hq] at this
    cases hpc : σ.pc q with
    | callPoll => exact hfree q hpc
    | _ => simp [hpc, Pc.engaged] at this
  have hap := h.apart
  cases ph with
  | idle => rfl
  | posted p msg | held s p msg | replied s p msg word | lost s p msg =>
    exact absurd (if_pos rfl) (hno p)
  | taken s p msg | consumed s p msg word =>
    refine absurd ?_ (hno p)
    show (if p = s then _ else if p = p then _ else _) = _
    rw [if_neg (fun e => hap e.symm), if_pos rfl]

theorem Agrees.posted_of (hc : σ.rdv.caller = some c) :
    ph = .posted c σ.rdv.msg := by
  have hr := h.rdv
  cases ph with
  | posted p msg =>
    rw [show σ.rdv = ⟨some p, msg, none⟩ from hr] at hc ⊢
    cases hc
    rfl
  | _ => exact absurd (hc.symm.trans hr.1) (by simp)

/-- Who is engaged and does not wait is the server, in the section of its phase. -/
theorem Agrees.serving_of (hpc : (σ.pc s).engaged = some pc) (hne : pc ≠ .callPoll) :
    ph.serving = some (s, pc) := by
  have hrole := h.pc s
  rw [hpc] at hrole
  cases ph with
  | idle => cases hrole
  | _ =>
    simp only [Phase.role] at hrole
    split_ifs at hrole with h1
    all_goals cases hrole
    all_goals first
      | exact absurd rfl hne
      | rw [h1]; rfl

theorem Agrees.taken_of {msg : U64} (hpc : σ.pc s = .recvMint c msg) :
    ph = .taken s c msg := by
  have hs := h.serving_of (by rw [hpc]; rfl) Pc.noConfusion
  cases ph with
  | taken => cases hs; rfl
  | _ => cases hs

theorem Agrees.consumed_of {word : U64} (hpc : σ.pc s = .replySet word) :
    ∃ p msg, ph = .consumed s p msg word := by
  have hs := h.serving_of (by rw [hpc]; rfl) Pc.noConfusion
  cases ph with
  | consumed => cases hs; exact ⟨_, _, rfl⟩
  | _ => cases hs

theorem Agrees.replied_of {v : U64} (hpc : σ.pc p = .callPoll) (hv : σ.rdv.reply = some v) :
    ∃ s msg, ph = .replied s p msg v := by
  have hr := h.rdv
  have hrole := h.pc p
  rw [hpc] at hrole
  cases ph with
  | replied s p' msg word =>
    cases hv.symm.trans hr.2
    simp only [Pc.engaged, Phase.role] at hrole
    split_ifs at hrole with h1
    · exact ⟨s, msg, by rw [h1]⟩
  | posted p' msg =>
    rw [show σ.rdv = ⟨some p', msg, none⟩ from hr] at hv
    cases hv
  | _ => exact absurd (hv.symm.trans hr.2) (by simp)

/-- Who is not engaged is not who waits. -/
theorem Agrees.ne_of_idle (hs : (σ.pc s).engaged = none) (hc : ph.role c = some .callPoll) :
    s ≠ c := by
  rintro rfl
  rw [h.pc, hc] at hs
  cases hs

/-- Where no `Reply` is held, there is none. -/
theorem Agrees.no_reply {P : ProcId → CSpace PROCESS_SLOTS → Nat → Prop}
    (hph : ∀ s c msg, ph ≠ .held s c msg) (q : ProcId) (cs : CSpace PROCESS_SLOTS) (d : Nat)
    (hcs : σ.cspaces q = some cs) (hl : cs.Live d) (ht : (cs.slot d).cap.capType = .reply) :
    P q cs d := by
  obtain ⟨-, msg, hm⟩ := h.reply q cs d hcs hl ht
  exact absurd hm (hph _ _ _)

end

/-- The server is done with its section; the caller still waits. -/
theorem disengage {x : Option Pc} (hne : s ≠ c)
    (h : ∀ q, (σ.pc q).engaged = if q = s then x else if q = c then some .callPoll else none)
    (hpc : pc.engaged = none) (q : ProcId) :
    (if q = s then pc else σ.pc q).engaged = if q = c then some .callPoll else none := by
  by_cases e : q = s
  · rw [if_pos e, hpc, if_neg (fun e' => hne (e.symm.trans e'))]
  · have hq := h q
    rwa [if_neg e] at hq ⊢

/-- The `Reply` that is minted is the only one. -/
theorem Agrees.reply_minted {msg : U64} {cs : CSpace PROCESS_SLOTS} {x : Cte}
    (h : Agrees σ (.taken s c msg)) (hcs : σ.cspaces s = some cs)
    (hslot : REPLY_SLOT < PROCESS_SLOTS) (hx : x.cap.objref = c) (q : ProcId)
    (cs' : CSpace PROCESS_SLOTS) (d : Nat)
    (hcs' : (σ.setSpace s (cs.put REPLY_SLOT x)).cspaces q = some cs') (hl : cs'.Live d)
    (ht : (cs'.slot d).cap.capType = .reply) :
    d = REPLY_SLOT ∧ ∃ msg', Phase.held s c msg = .held q (cs'.slot d).cap.objref msg' := by
  have none_before := h.no_reply (P := fun _ _ _ => False) fun _ _ _ => Phase.noConfusion
  have hup : Function.update σ.cspaces s (some _) q = some cs' := hcs'
  rw [Function.update_apply] at hup
  by_cases e : q = s
  · rw [if_pos e] at hup
    cases hup
    unfold CSpace.Live at hl
    rw [CSpace.slot_put _ _ _ _ hslot] at hl ht ⊢
    by_cases ed : d = REPLY_SLOT
    · rw [if_pos ed, hx, e]
      exact ⟨ed, msg, rfl⟩
    · rw [if_neg ed] at hl ht
      exact (none_before s cs d hcs hl ht).elim
  · rw [if_neg e] at hup
    exact (none_before q cs' d hup hl ht).elim

/-- With the `Reply` that is consumed, the only one is gone. -/
theorem Agrees.reply_consumed {msg : U64} {cs cs' cs'' : CSpace PROCESS_SLOTS} {d d' : Nat}
    (h : Agrees σ (.held s c msg)) (hcs : σ.cspaces s = some cs) (hslot : d = REPLY_SLOT)
    (hdes : CSpace.Destroyed cs d cs') (hcs' : (σ.setSpace s cs').cspaces q = some cs'')
    (hl : cs''.Live d') : (cs''.slot d').cap.capType ≠ .reply := by
  intro ht
  have hup : Function.update σ.cspaces s (some cs') q = some cs'' := hcs'
  rw [Function.update_apply] at hup
  by_cases e : q = s
  · rw [if_pos e] at hup
    cases hup
    obtain ⟨hd, hl'⟩ := (hdes.live_iff d').mp hl
    obtain ⟨-, size, hcap⟩ := hdes.kept d' hd
    rw [hcap] at ht
    exact hd ((h.reply s cs d' hcs hl' ht).1.trans hslot.symm)
  · rw [if_neg e] at hup
    obtain ⟨-, m, hm⟩ := h.reply q cs'' d' hup hl ht
    cases hm
    exact e rfl

/-- The protocol events, one by one. -/
theorem Agrees.visible (h : Agrees σ ph) (hd : Does σ e σ') (hv : e.rdv = true)
    (hsole : ∀ p msg, e = .posted p msg → ∀ q, σ.pc q ≠ .callPoll) :
    ∃ ph', Phase.Step ph e ph' ∧ Agrees σ' ph' := by
  cases hd with
  | @posted p msg hpc =>
    obtain rfl := h.idle_of (hsole p msg rfl)
    exact ⟨_, .post, rfl, goto_engaged h.pc p _, trivial, h.no_reply fun _ _ _ => Phase.noConfusion⟩
  | @took s c hpc hc =>
    obtain rfl := h.posted_of hc
    have hrdv : σ.rdv = ⟨some c, σ.rdv.msg, none⟩ := h.rdv
    exact ⟨_, .take, ⟨rfl, congrArg Rdv.reply hrdv⟩, goto_engaged h.pc s _,
      h.ne_of_idle (by rw [hpc]; rfl) (if_pos rfl), h.no_reply fun _ _ _ => Phase.noConfusion⟩
  | @minted s c msg cs hpc hcs hslot hfree =>
    obtain rfl := h.taken_of hpc
    refine ⟨_, .mint, h.rdv, fun q => ?_, trivial, h.reply_minted hcs hslot rfl⟩
    rw [goto_pc]
    exact disengage h.apart h.pc rfl q
  | @unminted s c msg hpc =>
    obtain rfl := h.taken_of hpc
    refine ⟨_, .lose, h.rdv, fun q => ?_, trivial, h.no_reply fun _ _ _ => Phase.noConfusion⟩
    unfold Kernel.retire
    rw [goto_pc]
    exact disengage h.apart h.pc rfl q
  | @consumed s cs cs' inv hpc hcs hl ht hdes =>
    obtain ⟨hslot, msg, hph⟩ := h.reply s cs _ hcs hl ht
    generalize (cs.slot inv.cptr.toNat).cap.objref = c at hph ⊢
    subst hph
    have hptr : inv.cptr = replyPtr := BitVec.eq_of_toNat_eq (hslot.trans rfl)
    rw [hptr]
    exact ⟨_, .consume, h.rdv, goto_engaged h.pc s _, h.ne_of_idle (by rw [hpc]; rfl) (if_pos rfl),
      fun q cs'' d hcs'' hl' ht' => absurd ht' (h.reply_consumed hcs hslot hdes hcs'' hl')⟩
  | @replied s word hpc =>
    obtain ⟨p, msg, rfl⟩ := h.consumed_of hpc
    refine ⟨_, .reply, ⟨h.rdv.1, rfl⟩, fun q => ?_, trivial,
      h.no_reply fun _ _ _ => Phase.noConfusion⟩
    rw [goto_pc]
    exact disengage h.apart h.pc rfl q
  | @returned p v hpc hr =>
    obtain ⟨s, msg, rfl⟩ := h.replied_of hpc hr
    refine ⟨_, .ret, ⟨rfl, rfl⟩, fun q => ?_, trivial, h.no_reply fun _ _ _ => Phase.noConfusion⟩
    have hq := goto_engaged h.pc p .user q
    show _ = none
    by_cases e : q = p
    · exact hq.trans (if_pos e)
    · exact hq.trans ((if_neg e).trans (if_neg e))
  | entered | refused | exited | faulted | answered | emitted | callYield | recvYield | waitYield
  | registered
  | woke | raised | kernelRaised => cases hv

/-- **The kernel follows the protocol**, one CALL at a time. -/
theorem call_phases {σ₀ : Kernel} (hinit : Init σ₀) (hrun : Run SoleStep σ₀ tr σ) :
    ∃ ph, Run Phase.Step .idle (tr.filter Event.rdv) ph ∧ Agrees σ ph :=
  hrun.simulates Agrees Event.rdv (fun _ _ _ _ h hs hv => h.visible hs.1.does hv hs.2)
    (fun _ _ _ _ h hs hv => h.hidden hs.1.does hv) hinit.agrees

/-! ## Correlation -/

/-- **A CALL returns the answer to its own message**, as long as CALLs are posted one at a
time.  When `p` returns with `v`, the rendezvous events before it end with the round of
this CALL: `p`'s post, the RECV of `s` that took it and minted a `Reply` naming `p`, and
the REPLY of `s` that consumed it with the word `v`.  Between two takes there is the post
of the second one's message.  A message that no one took is still there. -/
theorem call_correlated {σ₀ : Kernel} {tr : List Event} (hinit : Init σ₀)
    (hrun : Run SoleStep σ₀ tr σ) :
    (∀ a b p v, tr = a ++ .returned p v :: b → ∃ s msg l, a.filter Event.rdv =
      l ++ [.posted p msg, .took s p msg, .minted s p msg, .consumed s replyPtr p v,
        .replied s v]) ∧
    (∀ a b c s p msg s' p' msg', tr = a ++ .took s p msg :: (b ++ .took s' p' msg' :: c) →
      .posted p' msg' ∈ b) ∧
    (∀ a b p msg, tr = a ++ .posted p msg :: b → (∀ s, .took s p msg ∉ b) →
      σ.rdv.caller = some p ∧ σ.rdv.msg = msg) := by
  obtain ⟨ph, hphases, hagree⟩ := call_phases hinit hrun
  refine ⟨?_, ?_, ?_⟩
  · rintro a b p v rfl
    rw [List.filter_append, List.filter_cons_of_pos rfl] at hphases
    obtain ⟨ph₁, ph₂, h1, hs, -⟩ := hphases.split_at
    cases hs with
    | @ret s _ msg _ =>
      obtain ⟨l, hl⟩ := phase_log h1
      exact ⟨s, msg, l, hl⟩
  · rintro a b c s p msg s' p' msg' rfl
    rw [List.filter_append, List.filter_cons_of_pos rfl, List.filter_append,
      List.filter_cons_of_pos rfl] at hphases
    obtain ⟨ph₁, ph₂, -, hs, hrest⟩ := hphases.split_at
    obtain ⟨ph₃, ph₄, hmid, hs', -⟩ := hrest.split_at
    cases hs
    cases hs'
    -- the phase before the second take was entered by its post
    generalize hl : b.filter Event.rdv = l at hmid
    cases hmid with
    | snoc _ hlast =>
      cases hlast
      have hmem : Event.posted p' msg' ∈ b.filter Event.rdv := by
        rw [hl]
        simp
      exact (List.mem_filter.mp hmem).1
  · rintro a b p msg rfl hno
    rw [List.filter_append, List.filter_cons_of_pos rfl] at hphases
    obtain ⟨ph₁, ph₂, -, hs, hrest⟩ := hphases.split_at
    cases hs
    cases hb : b.filter Event.rdv with
    | nil =>
      rw [hb] at hrest
      rw [hrest.nil_inv] at hagree
      have hrdv : σ.rdv = ⟨some p, msg, none⟩ := hagree.rdv
      rw [hrdv]
      exact ⟨rfl, rfl⟩
    | cons e l =>
      rw [hb] at hrest
      obtain ⟨ph₃, hs', -⟩ := hrest.cons_inv
      cases hs' with
      | @take s _ _ =>
        have hmem : Event.took s p msg ∈ b.filter Event.rdv := by
          rw [hb]
          exact List.mem_cons_self
        exact absurd (List.mem_filter.mp hmem).1 (hno s)

/-! ## One caller, and two -/

/-- A space with an `Endpoint` to object `obj` at slot 2. -/
def endpointSpace (obj : U64) (rights : Rights) : CSpace PROCESS_SLOTS :=
  CSpace.new.put 2 ⟨⟨.endpoint, rights, obj, 1, 0, 0, 0⟩, NIL⟩

/-- Processes 1 and 2 may CALL and process 3 may RECV, all on endpoint 7. -/
def threeProcs : Kernel where
  cspaces p :=
    if p = 1 ∨ p = 2 then some (endpointSpace 7 Rights.SEND)
    else if p = 3 then some (endpointSpace 7 Rights.RECV)
    else none
  pc _ := .user
  rdv := ⟨none, 0, none⟩
  notify := ⟨false, none⟩

theorem endpointSpace_live (obj : U64) (rights : Rights) (d : Nat)
    (hl : (endpointSpace obj rights).Live d) :
    d = 2 ∧ ((endpointSpace obj rights).slot d).cap = ⟨.endpoint, rights, obj, 1, 0, 0, 0⟩ := by
  have hslot : (endpointSpace obj rights).slot d =
      if d = 2 then ⟨⟨.endpoint, rights, obj, 1, 0, 0, 0⟩,
        NIL⟩ else (CSpace.new : CSpace PROCESS_SLOTS).slot d := CSpace.slot_put _ 2 d _ (by decide)
  by_cases e : d = 2
  · rw [hslot, if_pos e]
    exact ⟨e, rfl⟩
  · rw [if_neg e, CSpace.slot_new] at hslot
    exact absurd hl (CSpace.not_live_empty _ d hslot)

theorem threeProcs_init : Init threeProcs := by
  refine ⟨rfl, rfl, rfl, fun q => Or.inl rfl, fun q cs d hcs hl => ?_⟩
  have hspace : ∃ obj rights, cs = endpointSpace obj rights := by
    simp only [threeProcs] at hcs
    split_ifs at hcs
    · cases hcs
      exact ⟨_, _, rfl⟩
    · cases hcs
      exact ⟨_, _, rfl⟩
  obtain ⟨obj, rights, rfl⟩ := hspace
  rw [(endpointSpace_live obj rights d hl).2]
  simp

/-- An invocation with one argument. -/
def invocation (cptr : U32) (o : U16) (word : U64) : Invocation := ⟨cptr, o, #v[word, 0, 0, 0]⟩

/-- Process 1 has entered a CALL with the word 10. -/
def calling : Kernel := threeProcs.goto 1 (.callPost 10)

/-- Process 1 polls, process 3 receives the message and answers 99. -/
def answered : List Input :=
  [.resume 1, .trap 3 (invocation 2 op.ENDPOINT_RECV 0), .resume 3, .resume 3,
    .trap 3 (invocation 3 op.ENDPOINT_REPLY 99), .resume 3, .resume 1]

/-- Steps that post nothing are sole. -/
theorem sole_of_quiet (h : Run Step σ tr σ') (hq : ∀ e ∈ tr, ∀ p msg, e ≠ .posted p msg) :
    Run SoleStep σ tr σ' :=
  h.mono fun _ e _ he hs => ⟨hs, fun p msg hp => absurd hp (hq e he p msg)⟩

theorem call_correlated_answered :
    ∃ tr σ, Run SoleStep threeProcs tr σ ∧ tr.getLast? = some (.returned 1 99) ∧
    ∃ a s msg l, tr = a ++ [.returned 1 99] ∧ a.filter Event.rdv =
      l ++ [.posted 1 msg, .took s 1 msg, .minted s 1 msg, .consumed s replyPtr 1 99,
        .replied s 99] := by
  have henter : Step threeProcs (.entered 1 (invocation 2 op.ENDPOINT_CALL 10) 7) calling :=
    ⟨.trap 1 (invocation 2 op.ENDPOINT_CALL 10), rfl⟩
  have hpost : SoleStep calling (.posted 1 10) ({ calling with rdv := ⟨some 1, 10, none⟩ }.goto 1
    .callPoll) := by
    refine ⟨⟨.resume 1, rfl⟩, fun p msg _ q => ?_⟩
    unfold calling
    rw [goto_pc]
    split <;> simp [threeProcs]
  obtain ⟨tr, σ, hrest, htr⟩ : ∃ tr σ,
      Run Step ({ calling with rdv := ⟨some 1, 10, none⟩ }.goto 1 .callPoll) tr σ ∧
      tr = [.callYield 1, .entered 3 (invocation 2 op.ENDPOINT_RECV 0) 7, .took 3 1 10,
      .minted 3 1 10, .consumed 3 3 1 99, .replied 3 99, .returned 1 99] :=
    exists_run step_of_next answered (fun tr => tr) (by decide +kernel)
  have hrun : Run SoleStep threeProcs (.entered 1 (invocation 2 op.ENDPOINT_CALL 10) 7 :: .posted 1
    10 :: tr) σ := by
    refine .cons ⟨henter, fun p msg he => by cases he⟩
      (.cons hpost (sole_of_quiet hrest ?_))
    rw [htr]
    simp
  have hsplit : (.entered 1 (invocation 2 op.ENDPOINT_CALL 10) 7 :: .posted 1 10 :: tr :
    List Event) = .entered 1 (invocation 2 op.ENDPOINT_CALL 10) 7 :: .posted 1 10 :: tr.dropLast ++
      [.returned 1 99] := by
    rw [htr]
    rfl
  obtain ⟨s, msg, l, hl⟩ := (call_correlated threeProcs_init hrun).1 _ [] 1 99 hsplit
  refine ⟨_, σ, hrun, ?_, _, s, msg, l, hsplit, hl⟩
  rw [htr]
  rfl

/-- Process 2 calls with 20 while process 1 waits; process 3 receives once and answers 99. -/
def twoCalls : List Input :=
  [.trap 1 (invocation 2 op.ENDPOINT_CALL 10), .resume 1, .resume 1,
    .trap 2 (invocation 2 op.ENDPOINT_CALL 20), .resume 2,
    .resume 2, .trap 3 (invocation 2 op.ENDPOINT_RECV 0), .resume 3, .resume 3,
    .trap 3 (invocation 3 op.ENDPOINT_REPLY 99), .resume 3, .resume 1]

/-- **Two callers at once.**  Process 2 overwrites the message of process 1, which no one
ever takes, and process 1 returns with the answer to process 2. -/
theorem call_miscorrelated :
    Init threeProcs ∧ ∃ tr σ, Run Step threeProcs tr σ ∧ tr.filter Event.rdv =
    [.posted 1 10, .posted 2 20, .took 3 2 20, .minted 3 2 20, .consumed 3 replyPtr 2 99,
      .replied 3 99,
      .returned 1 99] := by
  exact ⟨threeProcs_init,
    exists_run step_of_next twoCalls (List.filter Event.rdv) (by decide +kernel)⟩

end User

end Praesidium
