import Praesidium.Kernel.Isolation
import Praesidium.Kernel.Scheduler

/-!
What a context switch loads into the CPU (x86-64): page table, kernel stack and protection keys
(`kernel/src/sched/scheduler.rs`, `kernel/src/arch/x86_64/pku.rs`).

`activate_space` remembers the roots it loaded last and skips the load when they are asked for
again.  The loader and its like load other roots behind its back, with preemption masked, and put
the kernel's back.  What is loaded is right all the same, since those run on the kernel's space and
no process has the roots (0, 0) that stand for "nothing loaded yet":

    Run (Step pku hhdm) (boot s ..) tr c → Coherent .. c                              (run_coherent)

With what ring 3 reaches in a space this is what the running process reaches: pages mapped in its
own space and, unless it wrote PKRU itself, under its own key or the shared one.
-/

namespace Praesidium

namespace X86

open Fallible VSpace Paging Radix

/-- The tables, with the roots that the scheduler takes to be loaded (`ACTIVE_PRIMARY`,
`ACTIVE_SECONDARY`). -/
structure Mmu where
  vspace : backend.State
  active : AddressSpace

/-- The CPU under the scheduler; `domains` are the domains of its tasks. -/
structure Cpu where
  sched : Scheduler
  domains : List (Option U64)
  mmu : Mmu
  pkru : U32
  kernelRsp : U64

namespace Cpu

def STACK_BYTES : U64 := 0x4000
def BLOCK_BYTES : U64 := 0x8000

/-! ## Protection keys -/

/-- The mask that `write_pkru_allow_only` writes: two bits a key, the lower one disables access. -/
def pkruAllowOnly (allow : U64) : U32 :=
  let k := (allow &&& 0xf).toNat
  0x55555555 &&& ~~~((1 : U32) <<< (2 * k)) &&& ~~~(1 : U32)

/-- `pku`: the CPU has protection keys -/
def setDomain (pku : Bool) (pkey : Option U64) (pkru : U32) : U32 :=
  if pku then
    match pkey with
    | some k => pkruAllowOnly k
    | none => 0
  else pkru

/-- The protection key of a leaf. -/
def pkeyOf (leaf : U64) : Nat := ((leaf >>> 59) &&& 0xf).toNat

def accessDisabled (pkru : U32) (key : Nat) : Bool := pkru.getLsbD (2 * key)

/-! ## Switching -/

/-- The roots that are loaded. -/
def loaded (mmu : Mmu) : AddressSpace := backend.active mmu.vspace.machine.regs

def activateSpace (mmu : Mmu) (space : AddressSpace) : List VSpace.Event × Mmu :=
  if space.primary ≠ mmu.active.primary ∨ space.secondary ≠ mmu.active.secondary then
    ([⟨loaded mmu, .activate space⟩],
      { vspace := { mmu.vspace with machine := inSpace mmu.vspace.machine space }, active :=
        space })
  else ([], mmu)

def kernelStackTop (hhdm : U64) (t : Scheduler.Task) : Option U64 :=
  t.stackPhys.map fun block => block + hhdm + BLOCK_BYTES

/-- What a load of ring 3 finds: the leaf in the loaded tables, unless access under its key is
disabled. -/
def reached (pku : Bool) (c : Cpu) (v : U64) : Option U64 :=
  (ring3 c.mmu.vspace.machine (loaded c.mmu) v).bind fun (_, leaf) =>
    if pku && accessDisabled c.pkru (pkeyOf leaf) then none else some leaf

section

variable (pku : Bool) (hhdm : U64)

/-- The switch to task `next`, up to `context_switch`. -/
def switchTo (c : Cpu) (next : Nat) : List VSpace.Event × Cpu :=
  match c.sched.tasks[next]? with
  | none => ([], c)
  | some t =>
    let (evs, mmu) := activateSpace c.mmu t.space
    (evs,
      { c with
        sched := { c.sched with current := next }
        mmu := mmu
        kernelRsp := (kernelStackTop hhdm t).getD c.kernelRsp
        pkru := setDomain pku c.domains[next]?.join c.pkru })

def schedule (c : Cpu) : List VSpace.Event × Cpu :=
  match c.sched.pickNext with
  | some next => if next ≠ c.sched.current then c.switchTo pku hhdm next else ([], c)
  | none => ([], c)

/-- One round of the loop of `task_exit`. -/
def handOff (c : Cpu) : List VSpace.Event × Cpu :=
  match c.sched.pickNext with
  | some next => c.switchTo pku hhdm next
  | none => ([], c)

/-- The timer interrupt. -/
def tick (c : Cpu) : List VSpace.Event × Cpu :=
  let charged := { c with sched := c.sched.onTick.2 }
  if c.sched.onTick.1 then charged.schedule pku hhdm else ([], charged)

def taskExit (c : Cpu) : List VSpace.Event × Cpu :=
  handOff pku hhdm { c with sched := c.sched.finish }

/-! ## Runs -/

/-- The frame below a task's stack. -/
def guardPhys (block : U64) : U64 := block + (BLOCK_BYTES - STACK_BYTES) - 4096

inductive Event where
  | spawn (block : U64) (budget : Budget) (procId : Option Nat) (domain : Option U64)
      (space : AddressSpace)
  | yield
  | tick
  | exit
  | parked
  | reap (procId : Nat) (freed : Option (Option U64 × AddressSpace))
  /-- the kernel edits the loaded tables -/
  | call (call : VSpace.Call)
  /-- with preemption masked, `calls` are made in `space`, and the kernel's space is loaded again -/
  | masked (space : AddressSpace) (calls : List VSpace.Call)
  /-- process `task` writes PKRU, as ring 3 may -/
  | wrpkru (task : Nat) (value : U32)
  deriving DecidableEq, Repr

/-- No process has frame 0 as its root. -/
def Rooted (kernel space : AddressSpace) : Prop := space = kernel ∨ space.primary ≠ 0

def Event.Rooted (kernel : AddressSpace) : Event → Prop
  | .spawn _ _ _ _ space => Cpu.Rooted kernel space
  | _ => True

/-- The guard of a stack block that is given back is mapped again. -/
def restored (act : AddressSpace) : Option (Option U64 × AddressSpace) → List VSpace.Event
  | some (some block, _) => [⟨act, .mapPage (guardPhys block + hhdm) (guardPhys block) .rw⟩]
  | _ => []

/-- Activate `space`, make `calls`, and activate the kernel's space. -/
def maskedCalls (mmu : Mmu) (space : AddressSpace) (calls : List VSpace.Call) : List VSpace.Event :=
  ⟨loaded mmu, .activate space⟩ :: calls.map (⟨space, ·⟩) ++
    [⟨space, .activate (kernelSpace mmu.vspace.machine)⟩]

/-- What happened, with the calls of the paging backend that it took. -/
abbrev Trace := List (Event × List VSpace.Event)

inductive Step : Cpu → Event × List VSpace.Event → Cpu → Prop
  | spawn {c v} (block : U64) (budget : Budget) (procId : Option Nat) (domain : Option U64)
      (space : AddressSpace) (hc : c.sched.isCurrent .runnable) (hs : space ∈ c.mmu.vspace.spaces)
      (hv : backend.Step c.mmu.vspace ⟨loaded c.mmu, .installGuardPage (guardPhys block + hhdm)⟩
      v) : Step c (.spawn block budget procId domain space,
      [⟨loaded c.mmu, .installGuardPage (guardPhys block + hhdm)⟩]) { c with
          sched := c.sched.spawnInner block budget procId space
          domains := c.domains ++ [domain]
          mmu := { c.mmu with vspace := v } }
  | yield {c} (hc : c.sched.isCurrent .runnable) : Step c (.yield, (c.schedule pku hhdm).1)
      (c.schedule pku hhdm).2
  | tick {c} : Step c (.tick, (c.tick pku hhdm).1) (c.tick pku hhdm).2
  | exit {c} (hc : c.sched.isCurrent .runnable) : Step c (.exit, (c.taskExit pku hhdm).1)
      (c.taskExit pku hhdm).2
  | parked {c} (hc : c.sched.isCurrent .finished) : Step c (.parked, (c.handOff pku hhdm).1)
      (c.handOff pku hhdm).2
  | reap {c freed s v} (procId : Nat) (hc : c.sched.isCurrent .runnable)
      (hr : c.sched.reapFinished procId = (freed, s))
      (hv : Run backend.Step c.mmu.vspace (restored hhdm (loaded c.mmu) freed) v) :
      Step c (.reap procId freed, restored hhdm (loaded c.mmu) freed)
        { c with sched := s, mmu := { c.mmu with vspace := v } }
  | call {c v} (call : VSpace.Call) (hn : ∀ space, call ≠ .activate space)
      (hv : backend.Step c.mmu.vspace ⟨loaded c.mmu, call⟩ v) :
      Step c (.call call, [⟨loaded c.mmu, call⟩]) { c with mmu := { c.mmu with vspace := v } }
  | masked {c v t} (space : AddressSpace) (calls : List VSpace.Call)
      (ht : c.sched.tasks[c.sched.current]? = some t)
      (hk : t.space = kernelSpace c.mmu.vspace.machine)
      (hv : Run backend.Step c.mmu.vspace (maskedCalls c.mmu space calls) v) :
      Step c (.masked space calls, maskedCalls c.mmu space calls)
      { c with mmu := { c.mmu with vspace := v } }
  | wrpkru {c t} (value : U32) (hpku : pku = true) (ht : c.sched.tasks[c.sched.current]? = some t)
      (hp : t.procId.isSome = true) : Step c (.wrpkru c.sched.current value,
      []) { c with pkru := value }

end

/-- The boot context becomes task 0, on the kernel's space. -/
def boot (s : backend.State) (pkru : U32) (kernelRsp : U64) : Cpu where
  sched := .bootstrap (kernelSpace s.machine)
  domains := [none]
  mmu := ⟨s, ⟨0, 0⟩⟩
  pkru := pkru
  kernelRsp := kernelRsp

/-! ## Protection keys of leaves -/

theorem and_fifteen_lt (x : U64) : (x &&& 0xf).toNat < 16 := by
  rw [BitVec.toNat_and]
  exact Nat.lt_of_le_of_lt Nat.and_le_right (by decide)

/-- A mask allows the key it was made for and key 0. -/
theorem accessDisabled_allowOnly (allow : U64) {key : Nat} (hkey : key < 16) :
    accessDisabled (pkruAllowOnly allow) key = decide (key ≠ 0 ∧ key ≠ (allow &&& 0xf).toNat) := by
  have all : ∀ n < 16, ∀ key < 16,
    accessDisabled (0x55555555 &&& ~~~((1 : U32) <<< (2 * n)) &&& ~~~(1 : U32)) key =
      decide (key ≠ 0 ∧ key ≠ n) := by decide +kernel
  exact all _ (and_fifteen_lt allow) key hkey

theorem pkeyOf_userLeaf (phys : U64) (prot : Prot) (domain : U64) :
    pkeyOf (userLeaf phys prot domain) = (domain &&& 0xf).toNat := by
  have key : ∀ n < 16, (BitVec.ofNat 64 n <<< 59 >>> 59) &&& 0xf = BitVec.ofNat 64 n := by decide
  have key := key _ (and_fifteen_lt domain)
  rw [BitVec.ofNat_toNat, BitVec.setWidth_eq] at key
  have bits : (leafBits prot >>> 59) &&& 0xf = 0 := by
    decide +revert
  have mask : ADDR_MASK >>> 59 = 0 := by decide
  have user : USER >>> 59 &&& 0xf = 0 := by decide
  unfold pkeyOf userLeaf pkeyBits
  rw [BitVec.ushiftRight_or_distrib, BitVec.ushiftRight_or_distrib, BitVec.ushiftRight_or_distrib,
    BitVec.ushiftRight_and_distrib, mask, Flags.or_and, Flags.or_and, Flags.or_and, key, user, bits]
  simp

/-! ## The tables along a run -/

section

variable {base : U64} {s t : backend.State} {tr burst : List VSpace.Event} {ev : VSpace.Event}

theorem regs_of_call {ty : U64 → Option (Place U64)} (h : Isolated base ty s.machine s.spaces)
    (hp : Permitted ⟨base, 0⟩ ev) (hs : backend.Step s ev t)
    (hn : ∀ space, ev.call ≠ .activate space) : t.machine.regs = s.machine.regs := by
  obtain ⟨hactive, _, made, m', hexec, rfl⟩ := hs
  obtain ⟨active, call⟩ := ev
  cases hactive
  cases call with
  | activate space => exact absurd rfl (hn space)
  | newProcessSpace =>
    obtain ⟨root, pdpt, pd, pts, used, _, copied⟩ := (newProcessSpace_spec h).ok hexec
    exact copied.regs
  | mapPage vaddr phys prot =>
    exact ((ends_edit (mapPage_spec h.active_frame vaddr phys prot)).ok hexec).2.regs
  | mapUserPage vaddr phys prot domain =>
    have place := (h.roots _ h.active).place
    have mapped :=
      ((ends_edit (mapUserPage_spec h.heap place h.active_frame vaddr phys prot domain)).ok hexec).2
    obtain ⟨hact, range⟩ := hp.user vaddr phys prot domain rfl
    obtain ⟨ty', grown, _⟩ := mapped.steps h.heap place (fun hc => hact (by rw [← hc])) (by
      rw [path_pageAlign]
      exact window_path vaddr range)
    exact grown.regs
  | installGuardPage vaddr =>
    exact ((ends_edit (installGuardPage_spec h.active_frame vaddr)).ok hexec).2.regs
  | isolate vaddr => exact absurd rfl (hp.shared vaddr)

/-- Spaces are never given up. -/
theorem spaces_kept (hr : Run backend.Step s burst t) : ∀ space ∈ s.spaces, space ∈ t.spaces := by
  refine hr.inv (fun u => ∀ space ∈ s.spaces, space ∈ u.spaces) (fun _ h => h) fun u ev v hu hs
    space hspace => ?_
  obtain ⟨_, _, made, m', _, rfl⟩ := hs
  exact List.mem_append_right _ (hu space hspace)

section

variable (h : Traced base tr s) (hr : Run backend.Step s burst t)
  (hp : ∀ ev ∈ burst, Permitted ⟨base, 0⟩ ev)

include h hr hp

/-- More calls. -/
theorem traced_append :
    Traced base (tr ++ burst) t := by
  induction hr with
  | nil => rwa [List.append_nil]
  | snoc _ hs ih =>
    rw [← List.append_assoc]
    exact (ih fun ev hev => hp ev (List.mem_append_left _ hev)).step
      (hp _ (List.mem_append_right _ (List.mem_singleton.mpr rfl))) hs

/-- Without a load the registers stay. -/
theorem traced_regs (hn : ∀ ev ∈ burst, ∀ space, ev.call ≠ .activate space) :
    t.machine.regs = s.machine.regs := by
  induction hr with
  | nil => rfl
  | @snoc u t burst ev hr hs ih =>
    have hp' : ∀ ev ∈ burst, Permitted ⟨base, 0⟩ ev :=
      fun ev hev => hp ev (List.mem_append_left _ hev)
    have last : ev ∈ burst ++ [ev] := List.mem_append_right _ (List.mem_singleton.mpr rfl)
    obtain ⟨ty, isolated⟩ := (traced_append h hr hp').isolated
    rw [regs_of_call isolated (hp ev last) hs (hn ev last)]
    exact ih hp' fun ev hev => hn ev (List.mem_append_left _ hev)

end

end

/-! ## What is loaded -/

/-- The task that runs has its space, its stack and, if it did not write PKRU itself, its key
loaded. -/
structure Coherent (pku : Bool) (hhdm base : U64) (tr : List VSpace.Event)
    (wrote : Nat → Prop) (c : Cpu) : Prop where
  traced : Traced base tr c.mmu.vspace
  spaces : ∀ space ∈ c.sched.tasks.map Scheduler.Task.space, space ∈ c.mmu.vspace.spaces ∧
    Rooted ⟨base, 0⟩ space
  -- nothing was loaded yet, or what is remembered is what is loaded
  cache : (c.mmu.active = ⟨0, 0⟩ ∧ loaded c.mmu = ⟨base, 0⟩) ∨ c.mmu.active = loaded c.mmu
  running : ∃ t, c.sched.tasks[c.sched.current]? = some t ∧ loaded c.mmu = t.space ∧
    ∀ block, t.stackPhys = some block → c.kernelRsp = block + hhdm + BLOCK_BYTES
  domains : c.domains.length = c.sched.tasks.length
  keyed : pku = true → ¬ wrote c.sched.current → ∀ k, c.domains[c.sched.current]? = some (some k) →
    c.pkru = pkruAllowOnly k

section

variable {pku : Bool} {hhdm base : U64} {tr burst : List VSpace.Event} {wrote : Nat → Prop}
  {c : Cpu}

variable {mmu : Mmu} {space : AddressSpace} {s : Scheduler} {c0 : Cpu} {v : U64}

/-- The load of a space that exists. -/
theorem traced_activate (h : Traced base tr mmu.vspace) (hs : space ∈ mmu.vspace.spaces)
    (hz : Rooted ⟨base, 0⟩ space)
    (hcache : (mmu.active = ⟨0, 0⟩ ∧ loaded mmu = ⟨base, 0⟩) ∨ mmu.active = loaded mmu) :
    Traced base (tr ++ (activateSpace mmu space).1) (activateSpace mmu space).2.vspace ∧
      (activateSpace mmu space).2.vspace.spaces = mmu.vspace.spaces ∧
      (activateSpace mmu space).2.active = space ∧ loaded (activateSpace mmu space).2 = space := by
  obtain ⟨ty, isolated⟩ := h.isolated
  have secondary := (isolated.roots space hs).secondary
  unfold activateSpace
  split
  · have step : backend.Step mmu.vspace ⟨loaded mmu, .activate space⟩
        { mmu.vspace with machine := inSpace mmu.vspace.machine space } := by
      refine ⟨rfl, fun space' hc => ?_, none, _, rfl, rfl⟩
      cases hc
      exact hs
    refine ⟨h.step ⟨fun _ hc => (nomatch hc), fun _ _ _ _ hc => (nomatch hc)⟩ step, rfl, rfl, ?_⟩
    show (⟨space.primary, 0⟩ : AddressSpace) = space
    rw [← secondary]
  · next same =>
    rw [not_or, Decidable.not_not, Decidable.not_not] at same
    have remembered : mmu.active = space := by
      cases space
      cases hact : mmu.active
      rw [hact] at same
      exact congr (congrArg _ same.1.symm) same.2.symm
    refine ⟨by rw [List.append_nil]; exact h, rfl, remembered, ?_⟩
    rcases hcache with ⟨hzero, hkernel⟩ | hloaded
    · -- nothing was loaded yet: the space is the kernel's, or its roots are not (0, 0)
      rcases hz with hz | hz
      · rw [hkernel, hz]
      · exact absurd (by rw [← remembered, hzero]) hz
    · rw [← hloaded, remembered]

/-- Task `i` keeps its space and its stack. -/
def SameSeat (s s' : Scheduler) (i : Nat) : Prop :=
  ∀ t, s.tasks[i]? = some t → ∃ t', s'.tasks[i]? = some t' ∧ t'.space = t.space ∧
    t'.stackPhys = t.stackPhys

theorem sameSeat_modify {i j : Nat} {f : Scheduler.Task → Scheduler.Task}
    (hspace : ∀ t, (f t).space = t.space) (hstack : j = i → ∀ t, (f t).stackPhys = t.stackPhys) :
    SameSeat s { s with tasks := s.tasks.modify j f } i := by
  intro t ht
  show ∃ t', (s.tasks.modify j f)[i]? = some t' ∧ _
  rw [List.getElem?_modify, ht]
  refine ⟨_, rfl, ?_⟩
  split
  · next hj => exact ⟨hspace t, hstack hj t⟩
  · exact ⟨rfl, rfl⟩

/-- After masked calls the kernel's space is loaded again. -/
theorem loaded_masked {v : backend.State} {calls : List VSpace.Call}
    (hv : Run backend.Step mmu.vspace (maskedCalls mmu space calls) v) :
    backend.active v.machine.regs = kernelSpace mmu.vspace.machine := by
  obtain ⟨u, _, _, _, made, m', hexec, rfl⟩ := Run.snoc_inv hv
  cases hexec
  rfl

theorem restored_quiet (hhdm : U64) (act : AddressSpace)
    (freed : Option (Option U64 × AddressSpace)) :
    ∀ ev ∈ restored hhdm act freed, ∀ space, ev.call ≠ .activate space := by
  intro ev hev space
  unfold restored at hev
  split at hev
  · cases List.mem_singleton.mp hev
    exact fun hc => (nomatch hc)
  · cases hev

/-- The task that runs is not the one that is reaped. -/
theorem reap_modifies {s' : Scheduler} {procId : Nat} {freed : Option (Option U64 × AddressSpace)}
    (hc : s.isCurrent .runnable) (hr : s.reapFinished procId = (freed, s')) :
    s' = s ∨ ∃ j, j ≠ s.current ∧
      s' = { s with tasks := s.tasks.modify j fun t => { t with stackPhys := none, state :=
        .reaped } } := by
  unfold Scheduler.reapFinished at hr
  split at hr
  · cases hr
    exact .inl rfl
  · next j hj =>
    cases hr
    refine .inr ⟨j, fun hcur => ?_, rfl⟩
    obtain ⟨t, ht, hp⟩ := Scheduler.rposition_some hj
    obtain ⟨t', ht', hst⟩ := hc
    rw [hcur, ht'] at ht
    cases ht
    rw [hst] at hp
    simp at hp

namespace Coherent

variable (h : Coherent pku hhdm base tr wrote c)

include h

theorem switchTo {next : Nat} (hnext : next < c.sched.tasks.length) :
    Coherent pku hhdm base (tr ++ (c.switchTo pku hhdm next).1) wrote
      (c.switchTo pku hhdm next).2 := by
  obtain ⟨t, ht⟩ : ∃ t, c.sched.tasks[next]? = some t := ⟨_, List.getElem?_eq_getElem hnext⟩
  obtain ⟨hs, hz⟩ := h.spaces t.space (List.mem_map_of_mem (List.mem_of_getElem? ht))
  obtain ⟨traced, spaces, active, load⟩ := traced_activate h.traced hs hz h.cache
  unfold Cpu.switchTo
  rw [ht]
  dsimp only
  refine ⟨traced, ?_, .inr (active.trans load.symm), ⟨t, ht, load, fun block hb => ?_⟩, h.domains,
    fun hpku _ k hk => ?_⟩
  · rw [spaces]
    exact h.spaces
  · dsimp only
    rw [kernelStackTop, hb]
    rfl
  · show setDomain pku c.domains[next]?.join c.pkru = _
    rw [show c.domains[next]? = some (some k) from hk, hpku]
    rfl

theorem schedule :
    Coherent pku hhdm base (tr ++ (c.schedule pku hhdm).1) wrote (c.schedule pku hhdm).2 := by
  have stays : Coherent pku hhdm base (tr ++ []) wrote c := by rwa [List.append_nil]
  unfold Cpu.schedule
  split
  · next next hnext =>
    split
    · exact h.switchTo (Scheduler.eligible_lt (Scheduler.pickNext_some hnext))
    · exact stays
  · exact stays

theorem handOff :
    Coherent pku hhdm base (tr ++ (c.handOff pku hhdm).1) wrote (c.handOff pku hhdm).2 := by
  unfold Cpu.handOff
  split
  · next next hnext => exact h.switchTo (Scheduler.eligible_lt (Scheduler.pickNext_some hnext))
  · rwa [List.append_nil]

variable {v : backend.State} {f : Scheduler.Task → Scheduler.Task}

/-- A change of another kind: the task that runs keeps its seat, and what was loaded is loaded again
at its end. -/
theorem stay (sched : Scheduler) (hcur : sched.current = c.sched.current)
    (hseat : SameSeat c.sched sched c.sched.current) (hv : Run backend.Step c.mmu.vspace burst v)
    (hp : ∀ ev ∈ burst, Permitted ⟨base, 0⟩ ev)
    (hload : backend.active v.machine.regs = loaded c.mmu)
    (hspaces : ∀ space ∈ sched.tasks.map Scheduler.Task.space, space ∈ v.spaces ∧
      Rooted ⟨base, 0⟩ space) {domains : List (Option U64)}
    (hlen : domains.length = sched.tasks.length)
    (hdom : domains[c.sched.current]? = c.domains[c.sched.current]?) :
    Coherent pku hhdm base (tr ++ burst) wrote
      { c with sched, domains, mmu := { c.mmu with vspace := v } } := by
  obtain ⟨t, ht, space, stack⟩ := h.running
  obtain ⟨t', ht', space', stack'⟩ := hseat t ht
  have hload' : loaded { c.mmu with vspace := v } = loaded c.mmu := hload
  refine ⟨traced_append h.traced hv hp, hspaces, ?_, ⟨t', ?_, ?_, fun block hb => ?_⟩, hlen,
    fun hpku hw k hk => ?_⟩
  · rw [hload']
    exact h.cache
  · rw [hcur]
    exact ht'
  · rw [hload', space', space]
  · exact stack block (stack'.symm.trans hb)
  · dsimp only at hw hk
    rw [hcur] at hw hk
    rw [hdom] at hk
    exact h.keyed hpku hw k hk

theorem spaces_after (hv : Run backend.Step c.mmu.vspace burst v) :
    ∀ space ∈ c.sched.tasks.map Scheduler.Task.space, space ∈ v.spaces ∧ Rooted ⟨base, 0⟩ space :=
  fun space hs => (h.spaces space hs).imp_left (spaces_kept hv space)

/-- A change of one task that leaves its space, and its stack if it runs. -/
theorem modify (j : Nat) (hspace : ∀ t, (f t).space = t.space)
    (hstack : j = c.sched.current → ∀ t, (f t).stackPhys = t.stackPhys)
    (hv : Run backend.Step c.mmu.vspace burst v) (hp : ∀ ev ∈ burst, Permitted ⟨base, 0⟩ ev)
    (hload : backend.active v.machine.regs = loaded c.mmu) :
    Coherent pku hhdm base (tr ++ burst) wrote
      { c with sched := { c.sched with tasks := c.sched.tasks.modify j f }, mmu := { c.mmu with
        vspace := v } } := by
  refine h.stay { c.sched with tasks := c.sched.tasks.modify j f } rfl
    (sameSeat_modify hspace hstack) hv hp hload ?_ ?_ rfl
  · rw [Scheduler.map_modify _ _ hspace]
    exact h.spaces_after hv
  · rw [h.domains, List.length_modify]

/-- The same without a call of the backend. -/
theorem modify_current (hspace : ∀ t, (f t).space = t.space)
    (hstack : ∀ t, (f t).stackPhys = t.stackPhys) :
    Coherent pku hhdm base tr wrote
      { c with sched := { c.sched with tasks := c.sched.tasks.modify c.sched.current f } } := by
  have := h.modify c.sched.current hspace (fun _ => hstack) (.nil _) (fun ev hev =>
    (nomatch hev)) rfl
  rwa [List.append_nil] at this

theorem mono {wrote' : Nat → Prop} (hw : ∀ i, wrote i → wrote' i) :
    Coherent pku hhdm base tr wrote' c :=
  { h with keyed := fun hpku hno => h.keyed hpku fun hc => hno (hw _ hc) }

/-- A call that loads nothing. -/
theorem quiet (hv : Run backend.Step c.mmu.vspace burst v)
    (hp : ∀ ev ∈ burst, Permitted ⟨base, 0⟩ ev)
    (hn : ∀ ev ∈ burst, ∀ space, ev.call ≠ .activate space) :
    backend.active v.machine.regs = loaded c.mmu := by
  rw [traced_regs h.traced hv hp hn]
  rfl

/-- **One step.** -/
theorem step {ev : Event} {c' : Cpu} (hs : Step pku hhdm c (ev, burst) c')
    (hp : ∀ ev ∈ burst, Permitted ⟨base, 0⟩ ev) (hz : ev.Rooted ⟨base, 0⟩) :
    Coherent pku hhdm base (tr ++ burst) (fun i => wrote i ∨ ∃ value, ev = .wrpkru i value) c' := by
  have old : ∀ i, wrote i → wrote i ∨ ∃ value, ev = .wrpkru i value := fun _ hi => .inl hi
  cases hs with
  | @spawn v block budget procId domain space hc hspace hv =>
    have hrun : Run backend.Step c.mmu.vspace
      [⟨loaded c.mmu, .installGuardPage (guardPhys block + hhdm)⟩] v := .snoc (.nil _) hv
    have hlt : c.sched.current < c.sched.tasks.length := by
      obtain ⟨t, ht, _⟩ := h.running
      exact (List.getElem?_eq_some_iff.mp ht).1
    refine (h.stay (c.sched.spawnInner block budget procId space) rfl (fun t ht =>
      ⟨t, ?_, rfl, rfl⟩) hrun hp
      (h.quiet hrun hp fun ev hev space => ?_) (fun sp hsp => ?_) ?_ ?_).mono old
    · rw [Scheduler.spawnInner_tasks, if_neg (by omega)]
      exact ht
    · cases List.mem_singleton.mp hev
      exact fun hc => (nomatch hc)
    · rw [Scheduler.spawnInner, List.map_append] at hsp
      rcases List.mem_append.mp hsp with hold | hnew
      · exact h.spaces_after hrun sp hold
      · cases List.mem_singleton.mp hnew
        exact ⟨spaces_kept hrun _ hspace, hz⟩
    · show _ = (c.sched.tasks ++ [_]).length
      rw [List.length_append, List.length_append, h.domains]
      rfl
    · exact List.getElem?_append_left (by rw [h.domains]; exact hlt)
  | yield hc => exact h.schedule.mono old
  | tick =>
    have charged :=
      h.modify_current (f := fun t => { t with budget := t.budget.charge 1 }) (fun _ =>
      rfl) (fun _ => rfl)
    refine Coherent.mono ?_ old
    unfold Cpu.tick
    dsimp only
    split
    · exact charged.schedule
    · rw [List.append_nil]
      exact charged
  | exit hc =>
    have finished := h.modify_current (f := fun t => { t with state := .finished }) (fun _ =>
      rfl) (fun _ => rfl)
    exact finished.handOff.mono old
  | parked hc => exact h.handOff.mono old
  | @reap freed s v procId hc hr hv =>
    refine Coherent.mono ?_ old
    have hload := h.quiet hv hp (restored_quiet hhdm _ freed)
    rcases reap_modifies hc hr with rfl | ⟨j, hj, rfl⟩
    · exact h.stay _ rfl (fun t ht => ⟨t, ht, rfl, rfl⟩) hv hp hload (h.spaces_after hv)
        h.domains rfl
    · exact h.modify j (f := fun t => { t with stackPhys := none, state := .reaped }) (fun _ => rfl)
        (fun hcur => absurd hcur hj) hv hp hload
  | @call v call hn hv =>
    have hrun : Run backend.Step c.mmu.vspace [⟨loaded c.mmu, call⟩] v := .snoc (.nil _) hv
    refine (h.stay _ rfl (fun t ht => ⟨t, ht, rfl, rfl⟩) hrun hp
      (h.quiet hrun hp fun ev hev space => ?_) (h.spaces_after hrun) h.domains rfl).mono old
    cases List.mem_singleton.mp hev
    exact hn space
  | @masked v t space calls ht hk hv =>
    -- the caller's task is on the kernel's space, so that is what was loaded before
    refine (h.stay _ rfl (fun t ht => ⟨t, ht, rfl, rfl⟩) hv hp ?_
      (h.spaces_after hv) h.domains rfl).mono old
    obtain ⟨t', ht', hload, _⟩ := h.running
    rw [ht] at ht'
    cases ht'
    rw [loaded_masked hv, hload, hk]
  | @wrpkru t value hpku ht hproc =>
    rw [List.append_nil]
    exact { h.mono old with keyed := fun _ hno => absurd (.inr ⟨value, rfl⟩) hno }

end Coherent

/-! ## Runs from boot -/

theorem boot_coherent (pku : Bool) (hhdm : U64) {km : KernelMap} (hkm : Slots km)
    (hbytes : km.identityBytes = 0x100000000) {m : Machine Regs} (hm : backend.Supplied m)
    {s : backend.State} (hboot : backend.Boots km m s) (pkru : U32) (kernelRsp : U64) :
    ∃ base, kernelSpace s.machine = ⟨base, 0⟩ ∧
      Coherent pku hhdm base [] (fun _ => False) (boot s pkru kernelRsp) := by
  obtain ⟨space, m', hsetup, rfl⟩ := hboot
  obtain ⟨base, ty, rfl, booted, _⟩ := (setup_spec hm km hkm hbytes).ok hsetup
  have kernel : kernelSpace m' = ⟨base, 0⟩ := by
    show (⟨m'.regs.kernelPml4, 0⟩ : AddressSpace) = _
    rw [booted.isolated.kernel]
  have active : backend.active m'.regs = ⟨base, 0⟩ := by
    show (⟨m'.regs.cr3, 0⟩ : AddressSpace) = _
    rw [booted.active]
  refine ⟨base, kernel, ⟨booted.traced, fun t ht => ?_, .inl ⟨rfl, active⟩,
    ⟨_, rfl, active.trans kernel.symm, fun _ hb => (nomatch hb)⟩, rfl, fun _ _ _ hk =>
    (nomatch hk)⟩⟩
  cases List.mem_singleton.mp ht
  exact ⟨List.mem_singleton.mpr kernel, .inl kernel⟩

/-- The calls that a run makes of the paging backend. -/
def calls (tr : Trace) : List VSpace.Event := tr.flatMap Prod.snd

/-- Task `i` wrote PKRU. -/
def Wrote (tr : Trace) (i : Nat) : Prop := ∃ step ∈ tr, ∃ value, step.1 = .wrpkru i value

/-- **Every run.** -/
theorem run_coherent (h : Coherent pku hhdm base [] (fun _ => False) c0) {tr : Trace}
    (hr : Run (Step pku hhdm) c0 tr c) (hp : ∀ ev ∈ calls tr, Permitted ⟨base, 0⟩ ev)
    (hz : ∀ step ∈ tr, step.1.Rooted ⟨base, 0⟩) :
    Coherent pku hhdm base (calls tr) (Wrote tr) c := by
  induction hr with
  | nil => exact h.mono fun _ hc => hc.elim
  | @snoc c c' tr a _ hs ih =>
    obtain ⟨ev, burst⟩ := a
    have split : calls (tr ++ [(ev, burst)]) = calls tr ++ burst := by simp [calls]
    rw [split] at hp ⊢
    have last : (ev, burst) ∈ tr ++ [(ev, burst)] :=
      List.mem_append_right _ (List.mem_singleton.mpr rfl)
    refine ((ih (fun ev hev => hp ev (List.mem_append_left _ hev)) fun step hstep =>
      hz step (List.mem_append_left _ hstep)).step hs (fun ev hev =>
      hp ev (List.mem_append_right _ hev)) (hz _ last)).mono fun i hi => ?_
    rcases hi with ⟨step, hmem, value, hval⟩ | ⟨value, rfl⟩
    · exact ⟨step, List.mem_append_left _ hmem, value, hval⟩
    · exact ⟨_, last, value, rfl⟩

/-! ## What the scheduler sees -/

def Event.sched : Event → Option Scheduler.Event
  | .spawn block budget procId _ space => some (.spawn block budget procId space)
  | .yield => some .yield
  | .tick => some .tick
  | .exit => some .exit
  | .parked => some .parked
  | .reap procId freed => some (.reap procId freed)
  | _ => none

theorem switchTo_sched {next : Nat} (hnext : next < c.sched.tasks.length) :
    (c.switchTo pku hhdm next).2.sched = { c.sched with current := next } := by
  unfold Cpu.switchTo
  rw [List.getElem?_eq_getElem hnext]

theorem schedule_sched : (c.schedule pku hhdm).2.sched = c.sched.schedule := by
  unfold Cpu.schedule Scheduler.schedule
  cases hnext : c.sched.pickNext with
  | none => rfl
  | some next =>
    dsimp only
    split
    · exact switchTo_sched (Scheduler.eligible_lt (Scheduler.pickNext_some hnext))
    · rfl

theorem handOff_sched : (c.handOff pku hhdm).2.sched = c.sched.handOff := by
  unfold Cpu.handOff Scheduler.handOff
  cases hnext : c.sched.pickNext with
  | none => rfl
  | some next => exact switchTo_sched (Scheduler.eligible_lt (Scheduler.pickNext_some hnext))

/-- A step is a step of the scheduler, or none of its business. -/
theorem Step.sched {ev : Event} {c' : Cpu} (hs : Step pku hhdm c (ev, burst) c') :
    match ev.sched with
    | some e => Scheduler.Step c.sched e c'.sched
    | none => c'.sched = c.sched := by
  cases hs with
  | spawn block budget procId domain space hc => exact ⟨hc, rfl⟩
  | yield hc => exact ⟨hc, schedule_sched⟩
  | tick =>
    show (c.tick pku hhdm).2.sched = c.sched.tick
    unfold Cpu.tick Scheduler.tick
    dsimp only
    split
    · exact schedule_sched
    · rfl
  | exit hc => exact ⟨hc, handOff_sched⟩
  | parked hc => exact ⟨hc, handOff_sched⟩
  | reap procId hc hr => exact ⟨hc, hr⟩
  | call => rfl
  | masked => rfl
  | wrpkru => rfl

/-- **Refinement.**  Seen from the scheduler, a run is one of its own. -/
theorem run_sched {tr : Trace} (hr : Run (Step pku hhdm) c0 tr c) :
    Run Scheduler.Step c0.sched (tr.filterMap fun step => step.1.sched) c.sched := by
  induction hr with
  | nil => exact .nil _
  | @snoc c c' tr a _ hs ih =>
    obtain ⟨ev, burst⟩ := a
    have step := hs.sched
    rw [List.filterMap_append]
    cases hev : ev.sched with
    | none =>
      rw [hev] at step
      rw [show c'.sched = c.sched from step]
      simp only [List.filterMap_cons, hev, List.filterMap_nil, List.append_nil]
      exact ih
    | some e =>
      rw [hev] at step
      simp only [List.filterMap_cons, hev, List.filterMap_nil]
      exact .snoc ih step

/-! ## What the running process reaches -/

/-- What an edit leaves to a process with key `k`: the page, if its key is that one or the shared
one. -/
def grantedBy (k : U64) : VSpace.Call → Option U64
  | .mapUserPage _ phys prot domain =>
    if domain &&& 0xf = 0 ∨ domain &&& 0xf = k &&& 0xf then some (userLeaf phys prot domain)
      else none
  | _ => none

section

variable (hload : (ring3 c.mmu.vspace.machine (loaded c.mmu) v) =
    (lastEdit tr (loaded c.mmu) v).bind shownBy)

include hload

theorem reached_leaf {leaf : U64} (h : reached pku c v = some leaf) :
    ∃ vaddr phys prot domain, lastEdit tr (loaded c.mmu) v =
      some (.mapUserPage vaddr phys prot domain) ∧
      leaf = userLeaf phys prot domain := by
  unfold reached at h
  rw [hload] at h
  cases hlast : lastEdit tr (loaded c.mmu) v with
  | none =>
    rw [hlast] at h
    cases h
  | some call =>
    rw [hlast] at h
    cases call with
    | mapUserPage vaddr phys prot domain =>
      simp only [Option.bind_some, shownBy] at h
      split at h
      · cases h
      · cases h
        exact ⟨vaddr, phys, prot, domain, rfl, rfl⟩
    | _ => cases h

theorem reached_granted {k : U64} (hk : c.pkru = pkruAllowOnly k) :
    reached true c v = (lastEdit tr (loaded c.mmu) v).bind (grantedBy k) := by
  unfold reached
  rw [hload, hk]
  cases lastEdit tr (loaded c.mmu) v with
  | none => rfl
  | some call =>
    cases call with
    | mapUserPage vaddr phys prot domain =>
      simp only [Option.bind_some, shownBy, grantedBy, pkeyOf_userLeaf, Bool.true_and,
        accessDisabled_allowOnly k (and_fifteen_lt domain)]
      have zero : (domain &&& 0xf).toNat = 0 ↔ domain &&& 0xf = 0 := by rw [BitVec.toNat_eq]; rfl
      have same : (domain &&& 0xf).toNat = (k &&& 0xf).toNat ↔ domain &&& 0xf = k &&& 0xf :=
        BitVec.toNat_eq.symm
      simp only [ne_eq, zero, same]
      by_cases hg : domain &&& 0xf = 0 ∨ domain &&& 0xf = k &&& 0xf
      · rw [if_pos hg, if_neg fun hc => ?_]
        exact hg.elim (of_decide_eq_true hc).1 (of_decide_eq_true hc).2
      · rw [if_neg hg, if_pos (decide_eq_true (not_or.mp hg))]
    | _ => rfl

end

theorem plainFrames_zero : (0 : U64) ∉ plainMachine.supply := by
  show (0 : U64) ∉ plainFrames 600
  unfold plainFrames
  intro hc
  obtain ⟨k, hk, hzero⟩ := List.mem_map.mp hc
  have hnat := congrArg BitVec.toNat hzero
  rw [List.mem_range] at hk
  rw [BitVec.toNat_ofNat, show (0 : U64).toNat = 0 from rfl] at hnat
  omega

/-- A guard page in the kernel's space leaves a process and its window as they are. -/
theorem guard_kept {ty : U64 → Option (Place U64)} {m : Machine Regs} {root g : U64}
    {spaces : List AddressSpace} (h : Isolated base ty m spaces) (hs : ⟨root, 0⟩ ∈ spaces)
    (hne : root ≠ base) (active : m.regs.cr3 = base) (left : 2 ≤ m.supply.length)
    (mapped : ∀ w, window (path w) = true → entries.Mapped m.mem root w)
    (hg : entries.Mapped m.mem base (pageAlign g)) :
    ∃ ty' m', exec (.installGuardPage g) m = .ok none m' ∧ Isolated base ty' m' spaces ∧
      m'.regs = m.regs ∧ 1 ≤ m'.supply.length ∧
      ∀ w, window (path w) = true → entries.Mapped m'.mem root w := by
  obtain ⟨_, m', guard, rfl, edited⟩ := (ends_edit (installGuardPage_spec
      (h.active_frame.trans active) g)).returns fun _ _ he => by
    rcases he with ⟨_, hno⟩ | ⟨_, hnone⟩
    · exact hno hg
    · rw [hnone] at left
      exact absurd left (by decide)
  rw [← active] at edited
  obtain ⟨ty', owned, regs, h', _⟩ := h.edit_kernel (Flags.has_zero USER) edited
  have place := (h.roots _ hs).place
  have same : ∀ {t : U64} {p : List Nat}, ty t = some ⟨root, p⟩ → m'.mem t = m.mem t :=
    fun {t p} ht => funext fun i => by_contra fun hc => by
      rcases (owned t _ i ht hc).1 with howner | howner
      · exact hne (howner.trans active)
      · exact hne howner
  refine ⟨ty', m', guard, h', regs, ?_, fun w hw => ?_⟩
  · obtain ⟨_, pt, t, ensured, rfl⟩ := edited
    cases ensured with
    | found _ => exact Nat.le_of_succ_le left
    | split _ hs =>
      rw [hs] at left
      exact Nat.le_of_succ_le_succ left
  · obtain ⟨pdpt, pd⟩ := (mapped w hw).places lawful userKeeps h.heap (s := root) place
    obtain ⟨i3, i2⟩ := window_index hw
    rw [i3, place_window rfl] at pdpt
    rw [i3, i2, place_window rfl] at pd
    exact mapped_same (mapped w hw) (same place) (same pdpt) (same pd)

/-- The task of the process below. -/
def plainTask (root : U64) : Scheduler.Task :=
  ⟨some 0x400000, Budget.new 10 10, .runnable, some 0, ⟨root, 0⟩⟩

/-- A page for ring 3, under key 5. -/
def plainPage : VSpace.Call := .mapUserPage 0x40001000 0x300000 .rw 5

/-- The idle task of space `base` makes `root`, guards a stack, maps the page, and switches. -/
def plainCalls (base root : U64) : List VSpace.Event :=
  [⟨⟨base, 0⟩, .newProcessSpace⟩, ⟨⟨base, 0⟩, .installGuardPage 0xffff800000403000⟩,
    ⟨⟨base, 0⟩, .activate ⟨root, 0⟩⟩, ⟨⟨root, 0⟩, plainPage⟩,
    ⟨⟨root, 0⟩, .activate ⟨base, 0⟩⟩, ⟨⟨base, 0⟩, .activate ⟨root, 0⟩⟩]

/-- The idle task makes a process, gives it a page under its key, and yields to it. -/
theorem plain_switch :
    ∃ (s : backend.State) (c : Cpu) (tr : Trace) (base root : U64),
      backend.Boots plainMap plainMachine s ∧ kernelSpace s.machine = ⟨base, 0⟩ ∧ root ≠ base ∧
      root ≠ 0 ∧ Run (Step true plainMap.hhdmOffset) (boot s 0 0) tr c ∧
      tr.map Prod.fst = [.call .newProcessSpace,
        .spawn 0x400000 (Budget.new 10 10) (some 0) (some 5) ⟨root, 0⟩,
        .masked ⟨root, 0⟩ [plainPage], .yield] ∧
      calls tr = plainCalls base root ∧
      c.sched.current = 1 ∧ c.sched.tasks[1]? = some (plainTask root) ∧
      c.domains[1]? = some (some 5) := by
  have frames : plainMachine.supply.length = 600 := by simp [plainMachine, plainFrames]
  obtain ⟨m0, m1, base, root, ty, boots, kernel, hsup, hne, made, h1, active, left, mapped,
    direct⟩ := process_made (n := 2) plainMap_slots rfl plainMap_fits plainMachine_supplied
      (by rw [frames]; decide)
  have hzero : root ≠ 0 := fun hc => plainFrames_zero (hc ▸ hsup)
  obtain ⟨ty2, m2, guard, h2, regs, left2, mapped2⟩ := guard_kept (g := 0xffff800000403000) h1
    List.mem_cons_self hne active left mapped (direct _ (by decide) (by decide))
  obtain ⟨m3, given, regs3⟩ := h2.page List.mem_cons_self (v := 0x40001000) (by decide) mapped2
    left2 0x300000 .rw 5
  rw [regs, active] at given
  have kernel2 : kernelSpace m2 = ⟨base, 0⟩ := by rw [kernelSpace, h2.kernel]
  have back : backend.Step ⟨m3, [⟨root, 0⟩, ⟨base, 0⟩]⟩ ⟨⟨root, 0⟩, .activate ⟨base, 0⟩⟩
      ⟨inSpace m3 ⟨base, 0⟩, [⟨root, 0⟩, ⟨base, 0⟩]⟩ := by
    refine ⟨?_, fun _ hc => by cases hc; exact h1.own, none, _, rfl, rfl⟩
    show _ = (⟨m3.regs.cr3, 0⟩ : AddressSpace)
    rw [regs3]
    rfl
  -- the roots that are loaded
  have active0 : loaded ⟨⟨m0, [⟨base, 0⟩]⟩, ⟨0, 0⟩⟩ = ⟨base, 0⟩ := made.1.symm
  have active1 : loaded ⟨⟨m1, [⟨root, 0⟩, ⟨base, 0⟩]⟩, ⟨0, 0⟩⟩ = ⟨base, 0⟩ :=
    congrArg (AddressSpace.mk · 0) active
  have active2 : loaded ⟨⟨m2, [⟨root, 0⟩, ⟨base, 0⟩]⟩, ⟨0, 0⟩⟩ = ⟨base, 0⟩ := by
    show (⟨m2.regs.cr3, 0⟩ : AddressSpace) = _
    rw [regs, active]
  have masked : Run backend.Step ⟨m2, [⟨root, 0⟩, ⟨base, 0⟩]⟩
      (maskedCalls ⟨⟨m2, [⟨root, 0⟩, ⟨base, 0⟩]⟩, ⟨0, 0⟩⟩ ⟨root, 0⟩ [plainPage])
      ⟨inSpace m3 ⟨base, 0⟩, [⟨root, 0⟩, ⟨base, 0⟩]⟩ := by
    unfold maskedCalls
    rw [active2, kernel2]
    exact .snoc given back
  have switched : (activateSpace ⟨⟨inSpace m3 ⟨base, 0⟩, [⟨root, 0⟩, ⟨base, 0⟩]⟩, ⟨0, 0⟩⟩
      ⟨root, 0⟩).1 = [⟨⟨base, 0⟩, .activate ⟨root, 0⟩⟩] := by
    unfold activateSpace
    rw [if_pos (.inl hzero)]
    rfl
  have all : [⟨loaded ⟨⟨m0, [⟨base, 0⟩]⟩, ⟨0, 0⟩⟩, .newProcessSpace⟩] ++
      ([⟨loaded ⟨⟨m1, [⟨root, 0⟩, ⟨base, 0⟩]⟩, ⟨0, 0⟩⟩, .installGuardPage 0xffff800000403000⟩] ++
      (maskedCalls ⟨⟨m2, [⟨root, 0⟩, ⟨base, 0⟩]⟩, ⟨0, 0⟩⟩ ⟨root, 0⟩ [plainPage] ++
      ((activateSpace ⟨⟨inSpace m3 ⟨base, 0⟩, [⟨root, 0⟩, ⟨base, 0⟩]⟩, ⟨0, 0⟩⟩ ⟨root, 0⟩).1 ++
      []))) = plainCalls base root := by
    unfold maskedCalls
    rw [switched, active0, active1, active2, kernel2]
    rfl
  exact ⟨⟨m0, [⟨base, 0⟩]⟩, _, _, base, root, boots, kernel, hne, hzero,
    .cons (.call .newProcessSpace (by simp) ⟨rfl, made.2⟩) (.cons
      (.spawn 0x400000 (Budget.new 10 10) (some 0) (some 5) ⟨root, 0⟩ ⟨_, rfl, rfl⟩
        List.mem_cons_self ⟨rfl, fun _ hc => (by cases hc), none, m2, guard, rfl⟩) (.cons
      (.masked ⟨root, 0⟩ [plainPage] (t := ⟨none, _, .runnable, none, kernelSpace m0⟩) rfl
        (kernel.trans kernel2.symm) masked) (.cons (.yield ⟨_, rfl, rfl⟩) (.nil _)))),
    rfl, all, rfl, rfl, rfl⟩

end

/-- **What a context switch leaves.**  Whatever ran before, the process that runs has its own page
table and its own kernel stack loaded.  A load of ring 3 finds only pages last mapped for ring 3 in
that table; with protection keys, and unless the process wrote PKRU itself, it finds those under its
own key and the shared one, all of them and no others.  To the scheduler the run is one of its own.
-/
theorem running_process (pku : Bool) (hhdm : U64) (km : KernelMap) (hkm : Slots km)
    (hbytes : km.identityBytes = 0x100000000) (m : Machine Regs) (hm : backend.Supplied m)
    (s : backend.State) (hboot : backend.Boots km m s) (pkru : U32) (kernelRsp : U64) (tr : Trace)
    (c : Cpu) (hrun : Run (Step pku hhdm) (boot s pkru kernelRsp) tr c)
    (hper : ∀ ev ∈ calls tr, Permitted (kernelSpace s.machine) ev)
    (hroot : ∀ step ∈ tr, step.1.Rooted (kernelSpace s.machine)) :
    ∃ t, c.sched.tasks[c.sched.current]? = some t ∧ loaded c.mmu = t.space ∧
      (∀ block, t.stackPhys = some block → c.kernelRsp = block + hhdm + BLOCK_BYTES) ∧
      (∀ v leaf, reached pku c v = some leaf → ∃ vaddr phys prot domain,
        lastEdit (calls tr) t.space v = some (.mapUserPage vaddr phys prot domain) ∧
          leaf = userLeaf phys prot domain) ∧
      (pku = true → ¬ Wrote tr c.sched.current → ∀ k, c.domains[c.sched.current]? = some (some k) →
        ∀ v, reached pku c v = (lastEdit (calls tr) t.space v).bind (grantedBy k)) ∧
      Run Scheduler.Step (.bootstrap (kernelSpace s.machine)) (tr.filterMap fun step =>
        step.1.sched) c.sched := by
  obtain ⟨base, hbase, start⟩ := boot_coherent pku hhdm hkm hbytes hm hboot pkru kernelRsp
  rw [hbase] at hper hroot
  have coherent := run_coherent start hrun hper hroot
  obtain ⟨t, ht, hload, stack⟩ := coherent.running
  obtain ⟨ty, isolated⟩ := coherent.traced.isolated
  have shown := coherent.traced.shown (loaded c.mmu) isolated.active
  refine ⟨t, ht, hload, stack, fun v leaf hv => ?_, fun hpku hno k hk v => ?_, run_sched hrun⟩
  · rw [← hload]
    exact reached_leaf (shown v) hv
  · rw [← hload, hpku]
    exact reached_granted (shown v) (coherent.keyed hpku hno k hk)

/-- A process that the idle task made, gave a page and yielded to: its table is not the kernel's,
its stack is loaded, and it reaches the page. -/
theorem running_process_switched :
    ∃ (s : backend.State) (c : Cpu) (tr : Trace),
      backend.Boots plainMap plainMachine s ∧
      Run (Step true plainMap.hhdmOffset) (boot s 0 0) tr c ∧
      loaded c.mmu ≠ kernelSpace s.machine ∧ c.kernelRsp = 0xffff800000408000 ∧
      reached true c 0x40001000 = some (userLeaf 0x300000 .rw 5) ∧
      reached true c 0x40002000 = none := by
  obtain ⟨s, c, tr, base, root, hboot, kernel, hne, hzero, hrun, events, hcalls, current, task,
    domain⟩ := plain_switch
  have other : (⟨root, 0⟩ : AddressSpace) ≠ ⟨base, 0⟩ := fun hc =>
    hne (congrArg AddressSpace.primary hc)
  have permitted : ∀ ev ∈ calls tr, Permitted (kernelSpace s.machine) ev := by
    rw [hcalls, kernel]
    simp only [plainCalls, List.mem_cons, List.not_mem_nil, or_false]
    rintro ev (rfl | rfl | rfl | rfl | rfl | rfl)
    case inr.inr.inr.inl =>
      exact ⟨fun _ hc => (by cases hc), fun _ _ _ _ hc => by cases hc; exact ⟨other, by decide⟩⟩
    all_goals exact ⟨fun _ hc => (by cases hc), fun _ _ _ _ hc => by cases hc⟩
  have rooted : ∀ step ∈ tr, step.1.Rooted (kernelSpace s.machine) := fun step hstep => by
    have mem := List.mem_map_of_mem (f := Prod.fst) hstep
    rw [events] at mem
    simp only [List.mem_cons, List.not_mem_nil, or_false] at mem
    rcases mem with h | h | h | h
    case inr.inl => rw [h]; exact .inr hzero
    all_goals rw [h]; trivial
  have silent : ¬ Wrote tr c.sched.current := by
    rintro ⟨step, hstep, value, hev⟩
    have mem := List.mem_map_of_mem (f := Prod.fst) hstep
    rw [events, hev] at mem
    simp at mem
  obtain ⟨t, ht, hload, stack, _, granted, _⟩ := running_process true plainMap.hhdmOffset plainMap
    plainMap_slots rfl plainMachine plainMachine_supplied s hboot 0 0 tr c hrun permitted rooted
  rw [current, task] at ht
  cases ht
  have shown := granted rfl silent 5 (by rw [current]; exact domain)
  have last : ∀ v, lastEdit (calls tr) (plainTask root).space v =
      if pageNumber 0x40001000 == pageNumber v then some plainPage else none := fun v => by
    simp only [hcalls, plainCalls, lastEdit, List.filter_cons, List.filter_nil, VSpace.Event.edits,
      decide_eq_false other.symm, Bool.false_and, plainPage, plainTask, VSpace.Call.target,
      decide_true,
      Bool.true_and, Option.any_none, Bool.and_false, Option.any_some, Bool.false_eq_true, if_false]
    split
    · rfl
    · rfl
  refine ⟨s, c, tr, hboot, hrun, ?_, ?_, ?_, ?_⟩
  · rw [hload, kernel]
    exact other
  · rw [stack 0x400000 rfl]
    decide
  · rw [shown, last, if_pos (by decide)]
    rfl
  · rw [shown, last, if_neg (by decide)]
    rfl

end Cpu

end X86

end Praesidium
