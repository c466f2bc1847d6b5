import Praesidium.Abi.Pex
import Praesidium.CapCore.CSpaceSpec

/-!
The syscall boundary: invocations of capabilities.

`invoke cs inv` resolves `inv.cptr` in the caller's own space, checks the type and the
right that the operation needs, and computes the result word.  It changes nothing: the
effects of IPC and signals are applied by the caller of `invoke`.

    invoke cs inv = .ok v → the slot is live, with the type and right of `needs inv.op`
        (invoke_needs)
    invoke cs inv = .ok v → v is computed from the slot's record and `inv` alone
        (invoke_value)
-/

namespace Praesidium

/-! ## The interface -/

/-- Number of message registers. -/
def MSG_REGS : Nat := 4

namespace op

def CAP_IDENTIFY : U16 := 1
def FRAME_PROBE : U16 := 2
def ENDPOINT_SEND : U16 := 3
def DEBUG_EMIT : U16 := 0x10
def PROC_EXIT : U16 := 0x11
def ENDPOINT_CALL : U16 := 0x20
def ENDPOINT_RECV : U16 := 0x21
def ENDPOINT_REPLY : U16 := 0x22
def SHARED_QUERY : U16 := 0x30
def NOTIFY_WAIT : U16 := 0x40
def NOTIFY_SIGNAL : U16 := 0x41

end op

/-- Perform `op` on the capability at `cptr`, with `args`. -/
structure Invocation where
  cptr : U32
  op : U16
  args : Vector U64 MSG_REGS
  deriving DecidableEq

/-- `inv.args[0]` -/
def Invocation.word (inv : Invocation) : U64 := inv.args.get ⟨0, by decide⟩

inductive InvokeError where
  | badCptr
  | emptySlot
  | wrongType
  | insufficientRights
  | unknownOp
  deriving DecidableEq, Repr

/-! ## The dispatch -/

/-- The type's number; types are numbered in the order of their declaration. -/
def CapType.number (t : CapType) : U8 := BitVec.ofNat 8 t.ctorIdx

variable {N : Nat}

/-- The capability at `cptr`, with the errors of `resolve` told apart. -/
def resolved (cs : CSpace N) (cptr : U32) : Except InvokeError RawCap :=
  match CSpace.resolve cptr.toNat cs with
  | .ok cap _ => .ok cap
  | .error (.err .outOfBounds) _ => .error .badCptr
  | .error _ _ => .error .emptySlot

/-- The type check and the rights check of an operation. -/
def require (cap : RawCap) (type : CapType) (right : Rights) : Except InvokeError Unit :=
  if cap.capType ≠ type then .error .wrongType
  else if ¬ cap.rights.contains right then .error .insufficientRights
  else .ok ()

def invoke (cs : CSpace N) (inv : Invocation) : Except InvokeError U64 := do
  let cap ← resolved cs inv.cptr
  if inv.op = op.CAP_IDENTIFY then
    pure (((cap.capType.number.setWidth 64) <<< 32) ||| cap.rights.setWidth 64)
  else if inv.op = op.FRAME_PROBE then do
    require cap .frame Rights.READ
    pure cap.objref
  else if inv.op = op.ENDPOINT_SEND then do
    require cap .endpoint Rights.SEND
    pure cap.badge
  else if inv.op = op.DEBUG_EMIT ∨ inv.op = op.PROC_EXIT then do
    require cap .endpoint Rights.SEND
    pure inv.word
  else if inv.op = op.ENDPOINT_CALL then do
    require cap .endpoint Rights.SEND
    pure cap.badge
  else if inv.op = op.ENDPOINT_RECV then do
    require cap .endpoint Rights.RECV
    pure cap.badge
  else if inv.op = op.SHARED_QUERY then do
    require cap .sharedRo Rights.READ
    pure (cap.aux.setWidth 64 <<< 12)
  else if inv.op = op.NOTIFY_WAIT then do
    require cap .notification Rights.WAIT
    pure cap.objref
  else if inv.op = op.NOTIFY_SIGNAL then do
    require cap .notification Rights.SIGNAL
    pure cap.objref
  else .error .unknownOp

/-! ## What a result means -/

/-- The object type and the right behind each operation but the pure query. -/
def needs (o : U16) : Option (CapType × Rights) :=
  if o = op.FRAME_PROBE then some (.frame, Rights.READ)
  else if o = op.ENDPOINT_SEND ∨ o = op.DEBUG_EMIT ∨ o = op.PROC_EXIT ∨ o = op.ENDPOINT_CALL then
    some (.endpoint, Rights.SEND)
  else if o = op.ENDPOINT_RECV then some (.endpoint, Rights.RECV)
  else if o = op.SHARED_QUERY then some (.sharedRo, Rights.READ)
  else if o = op.NOTIFY_WAIT then some (.notification, Rights.WAIT)
  else if o = op.NOTIFY_SIGNAL then some (.notification, Rights.SIGNAL)
  else none

variable {cs : CSpace N} {cap : RawCap} {type : CapType} {right : Rights} {inv : Invocation}
  {v : U64}

theorem resolved_ok {cptr : U32} (h : resolved cs cptr = .ok cap) :
    cs.Live cptr.toNat ∧ cap = (cs.slot cptr.toNat).cap := by
  have hends : Fallible.Ends (CSpace.resolve cptr.toNat) cs
      (fun c _ => cs.Live cptr.toNat ∧ c = (cs.slot cptr.toNat).cap) (fun _ _ => True) := by
    unfold CSpace.resolve
    rw [CSpace.ends_live]
    exact ⟨fun _ => trivial, fun _ _ => trivial, fun hl => ⟨hl, rfl⟩⟩
  unfold resolved at h
  split at h
  · next c t hc =>
    cases h
    exact hends.ok hc
  · cases h
  · cases h

theorem require_ok {u : Unit} (h : require cap type right = .ok u) :
    cap.capType = type ∧ cap.rights.contains right = true := by
  unfold require at h
  split at h
  · cases h
  · next hty =>
    split at h
    · cases h
    · next hr => exact ⟨not_not.mp hty, not_not.mp hr⟩

theorem bind_ok {ε α β : Type} {x : Except ε α} {f : α → Except ε β} {b : β} (h : x >>= f = .ok b) :
    ∃ a, x = .ok a ∧ f a = .ok b := by
  cases x with
  | error e => cases h
  | ok a => exact ⟨a, rfl, h⟩

/-- The result word of an operation that passed its checks. -/
def Invocation.value (inv : Invocation) (cap : RawCap) : U64 :=
  if inv.op = op.CAP_IDENTIFY then ((cap.capType.number.setWidth 64) <<< 32) |||
    cap.rights.setWidth 64
  else if inv.op = op.FRAME_PROBE then cap.objref
  else if inv.op = op.ENDPOINT_SEND then cap.badge
  else if inv.op = op.DEBUG_EMIT ∨ inv.op = op.PROC_EXIT then inv.word
  else if inv.op = op.ENDPOINT_CALL ∨ inv.op = op.ENDPOINT_RECV then cap.badge
  else if inv.op = op.SHARED_QUERY then cap.aux.setWidth 64 <<< 12
  else cap.objref

/-- An operation that returned `v` on `cap`: its word, and the checks it passed. -/
theorem ok_of_require {w : U64} (hn : needs inv.op = some (type, right)) (hv : inv.value cap = w)
    (h : (do require cap type right; pure w : Except InvokeError U64) = .ok v) :
    v = inv.value cap ∧ ∀ ty r, needs inv.op = some (ty, r) → cap.capType = ty ∧
      cap.rights.contains r = true := by
  obtain ⟨u, hreq, hw⟩ := bind_ok h
  refine ⟨hv ▸ (Except.ok.inj hw).symm, fun ty r htr => ?_⟩
  rw [hn] at htr
  cases htr
  exact require_ok hreq

theorem invoke_ok (h : invoke cs inv = .ok v) :
    cs.Live inv.cptr.toNat ∧ v = inv.value (cs.slot inv.cptr.toNat).cap ∧
      ∀ type right, needs inv.op = some (type, right) →
      (cs.slot inv.cptr.toNat).cap.capType = type ∧ (cs.slot inv.cptr.toNat).cap.rights.contains
        right = true := by
  obtain ⟨cap, hcap, h⟩ := bind_ok h
  obtain ⟨hl, rfl⟩ := resolved_ok hcap
  refine ⟨hl, ?_⟩
  obtain ⟨cptr, o, args⟩ := inv
  dsimp only at h
  -- down the arms of the source, with the code of the operation put in at each
  by_cases h1 : o = op.CAP_IDENTIFY
  · subst h1
    exact ⟨(Except.ok.inj h).symm, fun _ _ hn => nomatch hn⟩
  rw [if_neg h1] at h
  by_cases h2 : o = op.FRAME_PROBE
  · subst h2
    exact ok_of_require rfl rfl h
  rw [if_neg h2] at h
  by_cases h3 : o = op.ENDPOINT_SEND
  · subst h3
    exact ok_of_require rfl rfl h
  rw [if_neg h3] at h
  by_cases h4 : o = op.DEBUG_EMIT ∨ o = op.PROC_EXIT
  · rw [if_pos h4] at h
    rcases h4 with rfl | rfl
    · exact ok_of_require rfl rfl h
    · exact ok_of_require rfl rfl h
  rw [if_neg h4] at h
  by_cases h5 : o = op.ENDPOINT_CALL
  · subst h5
    exact ok_of_require rfl rfl h
  rw [if_neg h5] at h
  by_cases h6 : o = op.ENDPOINT_RECV
  · subst h6
    exact ok_of_require rfl rfl h
  rw [if_neg h6] at h
  by_cases h7 : o = op.SHARED_QUERY
  · subst h7
    exact ok_of_require rfl rfl h
  rw [if_neg h7] at h
  by_cases h8 : o = op.NOTIFY_WAIT
  · subst h8
    exact ok_of_require rfl rfl h
  rw [if_neg h8] at h
  by_cases h9 : o = op.NOTIFY_SIGNAL
  · subst h9
    exact ok_of_require rfl rfl h
  rw [if_neg h9] at h
  cases h

/-- **No operation without its right.** -/
theorem invoke_needs (h : invoke cs inv = .ok v) :
    cs.Live inv.cptr.toNat ∧ ∀ type right, needs inv.op = some (type, right) →
      (cs.slot inv.cptr.toNat).cap.capType = type ∧ (cs.slot inv.cptr.toNat).cap.rights.contains
        right = true :=
  ⟨(invoke_ok h).1, (invoke_ok h).2.2⟩

/-- **The result depends on the invoked capability and the arguments.** -/
theorem invoke_value (h : invoke cs inv = .ok v) : v = inv.value (cs.slot inv.cptr.toNat).cap :=
  (invoke_ok h).2.1

end Praesidium
