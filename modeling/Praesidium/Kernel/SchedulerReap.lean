import Praesidium.Kernel.Scheduler

/-!
The life of a task and of its stack block (`kernel/src/sched/scheduler.rs`).

A `World` is the scheduler with the stack blocks that `alloc_frames` has handed out and
`free_frames` has not had back.  What a step may do to a task is said once (`Move`): a task
appears runnable, the current one finishes, a finished one is reaped.  So the dead stay dead,
and a block changes hands in two places only, with the invariant

    Run World.Step (World.init k) tr w → Owned w     (run_owned)

from which `tasks_die_once` is read off.
-/

namespace Praesidium

namespace Scheduler

structure World where
  sched : Scheduler
  allocated : List U64
  deriving DecidableEq, Repr

namespace World

def init (kernelSpace : AddressSpace) : World where
  sched := bootstrap kernelSpace
  allocated := []

/-- `free_frames` takes the block that `reap_finished` found, if any. -/
def giveBack (allocated : List U64) : Option (Option U64 × AddressSpace) → List U64
  | some (some block, _) => allocated.erase block
  | _ => allocated

/-- One call.  `alloc_frames` returns a block that is not allocated, and a finished task
reaps nobody; nothing else is asked of the caller. -/
def Step (w : World) : Event → World → Prop
  | .spawn block budget procId space, v =>
    block ∉ w.allocated ∧ v = ⟨w.sched.spawnInner block budget procId space, block :: w.allocated⟩
  | .yield, v => v = { w with sched := w.sched.schedule }
  | .tick, v => v = { w with sched := w.sched.tick }
  | .exit, v => v = { w with sched := w.sched.taskExit }
  | .parked, v => v = { w with sched := w.sched.handOff }
  | .reap procId freed, v =>
    ¬ w.sched.isCurrent .finished ∧ w.sched.reapFinished procId = (freed, v.sched) ∧
      v.allocated = giveBack w.allocated freed

end World

/-- The processes and address spaces of the tasks spawned in `tr`, in order. -/
def spawnedProcs (tr : List Event) : List (Option Nat × AddressSpace) :=
  tr.filterMap fun
    | .spawn _ _ procId space => some (procId, space)
    | _ => none

/-! ## Who is reaped -/

/-- Task `i` is the last of the finished tasks of the process. -/
structure LastFinished (s : Scheduler) (procId i : Nat) (t : Task) : Prop where
  found : s.tasks[i]? = some t
  proc : t.procId = some procId
  finished : t.state = .finished
  last : ∀ j t', i < j → s.tasks[j]? = some t' → t'.procId = some procId → t'.state ≠ .finished

/-- Task `t` after it was reaped. -/
def Task.reap (t : Task) : Task := { t with stackPhys := none, state := .reaped }

variable {α : Type} {p : α → Bool} {l : List α}

theorem rposition_last {i j : Nat} {a : α} (h : rposition p l = some i) (hij : i < j)
    (hj : l[j]? = some a) : p a = false := by
  obtain ⟨k, hk, rfl⟩ := Option.map_eq_some_iff.mp h
  obtain ⟨hlt, _, before⟩ := List.findIdx?_eq_some_iff_getElem.mp hk
  obtain ⟨hjl, rfl⟩ := List.getElem?_eq_some_iff.mp hj
  rw [List.length_reverse] at hlt
  -- `j` is looked at before `i`
  have := before (l.length - 1 - j) (by omega)
  rw [List.getElem_reverse] at this
  simp only [show l.length - 1 - (l.length - 1 - j) = j by omega] at this
  exact eq_false_of_ne_true this

theorem rposition_none (h : rposition p l = none) : ∀ a ∈ l, p a = false := by
  intro a ha
  exact List.findIdx?_eq_none_iff.mp (Option.map_eq_none_iff.mp h) a (List.mem_reverse.mpr ha)

/-- **The last finished task of the process is reaped**, or there is none. -/
theorem reapFinished_cases (s : Scheduler) (procId : Nat) :
    (s.reapFinished procId = (none, s) ∧
      ∀ (i : Nat) (t : Task), s.tasks[i]? = some t → t.procId = some procId → t.state ≠ .finished) ∨
    ∃ i t, LastFinished s procId i t ∧
      s.reapFinished procId = (some (t.stackPhys, t.space),
        { s with tasks := s.tasks.modify i Task.reap }) := by
  unfold reapFinished
  split
  · next h =>
    refine .inl ⟨rfl, fun i t ht hproc hst => ?_⟩
    have := rposition_none h t (List.mem_of_getElem? ht)
    rw [hproc, hst] at this
    simp at this
  · next i h =>
    obtain ⟨t, ht, hp⟩ := rposition_some h
    obtain ⟨hproc, hst⟩ := Bool.and_eq_true_iff.mp hp
    refine .inr ⟨i, t, ⟨ht, eq_of_beq hproc, eq_of_beq hst, fun j t' hij hj hproc' hst' => ?_⟩, ?_⟩
    · have := rposition_last h hij hj
      rw [hproc', hst'] at this
      simp at this
    · rw [ht]
      rfl

/-! ## What one step does to a task -/

def stateOf (s : Scheduler) (i : Nat) : Option State := s.tasks[i]?.map Task.state

def blockOf (s : Scheduler) (i : Nat) : Option U64 := s.tasks[i]?.bind Task.stackPhys

/-- The processes and address spaces of the tasks. -/
def procs (s : Scheduler) : List (Option Nat × AddressSpace) :=
  s.tasks.map fun t => (t.procId, t.space)

/-- How a task's state changes. -/
inductive Move : Option State → Option State → Prop
  | stay (st : Option State) : Move st st
  | spawn : Move none (some .runnable)
  | finish : Move (some .runnable) (some .finished)
  | reap : Move (some .finished) (some .reaped)

/-- A task that is finished or reaped. -/
def Dead (st : Option State) : Prop := st = some .finished ∨ st = some .reaped

theorem Move.dead {a b : Option State} (h : Move a b) (ha : Dead a) : Dead b := by
  cases h with
  | stay => exact ha
  | spawn => rcases ha with ha | ha <;> cases ha
  | finish => exact .inl rfl
  | reap => exact .inr rfl

section

variable {s : Scheduler} {i k : Nat} {f : Task → Task}

theorem stateOf_some {st : State} :
    s.stateOf i = some st ↔ ∃ t, s.tasks[i]? = some t ∧ t.state = st :=
  Option.map_eq_some_iff

theorem blockOf_some {b : U64} :
    s.blockOf i = some b ↔ ∃ t, s.tasks[i]? = some t ∧ t.stackPhys = some b :=
  Option.bind_eq_some_iff

variable {u : Scheduler} {c : Nat}

theorem stateOf_congr (h : u.tasks = s.tasks) : u.stateOf = s.stateOf := by
  unfold stateOf
  rw [h]

theorem blockOf_congr (h : u.tasks = s.tasks) : u.blockOf = s.blockOf := by
  unfold blockOf
  rw [h]

theorem stateOf_spawn (block : U64) (budget : Budget) (procId : Option Nat) (space : AddressSpace) :
    (s.spawnInner block budget procId space).stateOf i =
      if i = s.tasks.length then some .runnable else s.stateOf i := by
  unfold stateOf
  rw [spawnInner_tasks]
  split
  · rfl
  · rfl

theorem blockOf_spawn (block : U64) (budget : Budget) (procId : Option Nat) (space : AddressSpace) :
    (s.spawnInner block budget procId space).blockOf i =
      if i = s.tasks.length then some block else s.blockOf i := by
  unfold blockOf
  rw [spawnInner_tasks]
  split
  · rfl
  · rfl

theorem getElem?_modify_self {l : List Task} {t : Task} (h : l[k]? = some t) :
    (l.modify k f)[k]? = some (f t) := by
  rw [List.getElem?_modify, h]
  exact congrArg some (if_pos rfl)

/-- Changing one task leaves the state of the others. -/
theorem stateOf_modify_ne (h : k ≠ i) : stateOf ⟨s.tasks.modify k f, c⟩ i = s.stateOf i := by
  unfold stateOf
  rw [List.getElem?_modify_ne _ _ h]

theorem blockOf_modify_ne (h : k ≠ i) : blockOf ⟨s.tasks.modify k f, c⟩ i = s.blockOf i := by
  unfold blockOf
  rw [List.getElem?_modify_ne _ _ h]

/-- A change of one task that leaves its state leaves every state. -/
theorem stateOf_modify (hf : ∀ t, (f t).state = t.state) :
    stateOf ⟨s.tasks.modify k f, c⟩ = s.stateOf := by
  funext i
  unfold stateOf
  rw [← List.getElem?_map, map_modify _ _ hf, List.getElem?_map]

theorem blockOf_eq : s.blockOf i = (s.tasks.map Task.stackPhys)[i]?.getD none := by
  unfold blockOf
  rw [List.getElem?_map]
  cases s.tasks[i]? with
  | none => rfl
  | some t => rfl

theorem blockOf_modify (hf : ∀ t, (f t).stackPhys = t.stackPhys) :
    blockOf ⟨s.tasks.modify k f, c⟩ = s.blockOf := by
  funext i
  rw [blockOf_eq, blockOf_eq, map_modify _ _ hf]

/-- A task keeps its process and its address space. -/
theorem procs_modify (hf : ∀ t, (f t).procId = t.procId ∧ (f t).space = t.space) :
    procs ⟨s.tasks.modify k f, c⟩ = s.procs :=
  map_modify _ _ fun t => Prod.ext (hf t).1 (hf t).2

/-- A task that may be picked is runnable. -/
theorem stateOf_of_eligible (h : s.eligible i = true) : s.stateOf i = some .runnable := by
  obtain ⟨t, ht, hst, _⟩ := eligible_iff.mp h
  exact stateOf_some.mpr ⟨t, ht, hst⟩

/-- A switch goes to a runnable task. -/
theorem schedule_current (s : Scheduler) :
    s.schedule.current = s.current ∨ s.stateOf s.schedule.current = some .runnable := by
  unfold schedule
  split
  · next next h =>
    split
    · exact .inr (stateOf_of_eligible (pickNext_some h))
    · exact .inl rfl
  · exact .inl rfl

theorem handOff_current (s : Scheduler) :
    s.handOff.current = s.current ∨ s.stateOf s.handOff.current = some .runnable := by
  unfold handOff
  split
  · next next h => exact .inr (stateOf_of_eligible (pickNext_some h))
  · exact .inl rfl

theorem charge_stateOf (s : Scheduler) : s.charge.stateOf = s.stateOf :=
  stateOf_modify fun _ => rfl

theorem tick_current (s : Scheduler) :
    s.tick.current = s.current ∨ s.stateOf s.tick.current = some .runnable := by
  unfold tick
  split
  · rw [← charge_stateOf]
    exact schedule_current s.charge
  · exact .inl rfl

end

/-! ## The invariant -/

/-- The current task exists and is not reaped; every task but the idle one has a stack block until
it is reaped; the blocks of two tasks are different, and they are among the allocated ones; the
tasks stand in the order they were spawned in. -/
structure Owned (kernelSpace : AddressSpace) (tr : List Event) (w : World) : Prop where
  current : ∃ st, w.sched.stateOf w.sched.current = some st ∧ st ≠ .reaped
  block : ∀ i st, i ≠ 0 → w.sched.stateOf i = some st → st ≠ .reaped →
    ∃ b, w.sched.blockOf i = some b
  apart : ∀ i j b, w.sched.blockOf i = some b → w.sched.blockOf j = some b → i = j
  held : ∀ i b, w.sched.blockOf i = some b → b ∈ w.allocated
  nodup : w.allocated.Nodup
  procs : w.sched.procs = (none, kernelSpace) :: spawnedProcs tr

/-- A step as the tasks see it. -/
structure Seen (w v : World) : Prop where
  move : ∀ i, Move (w.sched.stateOf i) (v.sched.stateOf i)
  current : v.sched.current = w.sched.current ∨ v.sched.stateOf v.sched.current = some .runnable

/-- A step that spawns and reaps nobody and leaves the blocks where they are: at most a task
finishes. -/
structure Quiet (w v : World) : Prop where
  states : ∀ i, v.sched.stateOf i = w.sched.stateOf i ∨
    w.sched.stateOf i = some .runnable ∧ v.sched.stateOf i = some .finished
  current : v.sched.current = w.sched.current ∨ v.sched.stateOf v.sched.current = some .runnable
  blocks : v.sched.blockOf = w.sched.blockOf
  allocated : v.allocated = w.allocated
  procs : v.sched.procs = w.sched.procs

section

variable {kernelSpace : AddressSpace} {tr : List Event} {ev : Event} {w v : World}

namespace Quiet

theorem seen (h : Quiet w v) : Seen w v := by
  refine ⟨fun i => ?_, h.current⟩
  rcases h.states i with hi | ⟨hw, hv⟩
  · rw [hi]
    exact .stay _
  · rw [hw, hv]
    exact .finish

/-- The same tasks with another one running. -/
theorem of_switch {u : Scheduler} (htasks : u.tasks = w.sched.tasks)
    (hcur : u.current = w.sched.current ∨ w.sched.stateOf u.current = some .runnable) :
    Quiet w ⟨u, w.allocated⟩ where
  states i := .inl (congrFun (stateOf_congr htasks) i)
  current := by
    show _ ∨ u.stateOf u.current = _
    rw [stateOf_congr htasks]
    exact hcur
  blocks := blockOf_congr htasks
  allocated := rfl
  procs := congrArg (List.map _) htasks

theorem tick (w : World) : Quiet w { w with sched := w.sched.tick } := by
  have states : w.sched.tick.stateOf = w.sched.stateOf :=
    (stateOf_congr (tick_tasks _)).trans (charge_stateOf _)
  constructor
  case states => exact fun i => .inl (congrFun states i)
  case current =>
    show _ ∨ w.sched.tick.stateOf _ = _
    rw [states]
    exact tick_current w.sched
  case blocks =>
    refine (blockOf_congr (tick_tasks w.sched)).trans ?_
    exact blockOf_modify fun _ => rfl
  case allocated => rfl
  case procs =>
    refine (congrArg (List.map _) (tick_tasks w.sched)).trans ?_
    exact procs_modify fun _ => ⟨rfl, rfl⟩

/-- The current task finishes, or has finished before. -/
theorem exit (h : Owned kernelSpace tr w) : Quiet w { w with sched := w.sched.taskExit } := by
  have tasks : w.sched.taskExit.tasks = w.sched.finish.tasks := handOff_tasks _
  have states : w.sched.taskExit.stateOf = w.sched.finish.stateOf := stateOf_congr tasks
  constructor
  case states =>
    intro i
    show w.sched.taskExit.stateOf i = _ ∨ _ ∧ w.sched.taskExit.stateOf i = _
    rw [states]
    by_cases hi : w.sched.current = i
    · obtain ⟨st, hst, hne⟩ := h.current
      obtain ⟨t, ht, rfl⟩ := stateOf_some.mp hst
      have finished : w.sched.finish.stateOf i = some .finished := by
        rw [← hi]
        exact stateOf_some.mpr ⟨_, getElem?_modify_self ht, rfl⟩
      rw [← hi, hst, hi, finished]
      cases hs : t.state with
      | runnable => exact .inr ⟨rfl, rfl⟩
      | finished => exact .inl rfl
      | reaped => exact absurd hs hne
    · exact .inl (stateOf_modify_ne hi)
  case current =>
    show _ ∨ w.sched.taskExit.stateOf _ = _
    rw [states]
    exact handOff_current w.sched.finish
  case blocks =>
    refine (blockOf_congr tasks).trans ?_
    exact blockOf_modify fun _ => rfl
  case allocated => rfl
  case procs =>
    refine (congrArg (List.map _) tasks).trans ?_
    exact procs_modify fun _ => ⟨rfl, rfl⟩

theorem owned (h : Quiet w v) (hw : Owned kernelSpace tr w)
    (hev : spawnedProcs (tr ++ [ev]) = spawnedProcs tr) : Owned kernelSpace (tr ++ [ev]) v := by
  constructor
  case current =>
    rcases h.current with hc | hc
    · rw [hc]
      rcases h.states w.sched.current with hi | ⟨_, hv⟩
      · rw [hi]
        exact hw.current
      · exact ⟨.finished, hv, State.noConfusion⟩
    · exact ⟨.runnable, hc, State.noConfusion⟩
  case block =>
    intro i st hi hst hne
    rw [h.blocks]
    rcases h.states i with hsame | ⟨hrun, _⟩
    · rw [hsame] at hst
      exact hw.block i st hi hst hne
    · exact hw.block i .runnable hi hrun State.noConfusion
  case apart => rw [h.blocks]; exact hw.apart
  case held => rw [h.blocks, h.allocated]; exact hw.held
  case nodup => rw [h.allocated]; exact hw.nodup
  case procs => rw [h.procs, hev]; exact hw.procs

end Quiet

namespace Owned

theorem init (kernelSpace : AddressSpace) : Owned kernelSpace [] (World.init kernelSpace) := by
  have empty : ∀ i, (World.init kernelSpace).sched.blockOf i = none := by
    intro i
    cases i with
    | zero => rfl
    | succ i => rfl
  constructor
  case current => exact ⟨.runnable, rfl, State.noConfusion⟩
  case block =>
    intro i st hi hst
    cases i with
    | zero => exact absurd rfl hi
    | succ i => cases hst
  case apart =>
    intro i j b hb
    rw [empty] at hb
    cases hb
  case held =>
    intro i b hb
    rw [empty] at hb
    cases hb
  case nodup => exact List.nodup_nil
  case procs => rfl

theorem current_lt (h : Owned kernelSpace tr w) : w.sched.current < w.sched.tasks.length := by
  obtain ⟨st, hst, _⟩ := h.current
  obtain ⟨t, ht, _⟩ := stateOf_some.mp hst
  exact (List.getElem?_eq_some_iff.mp ht).1

/-- The idle task is bound to no process. -/
theorem idle (h : Owned kernelSpace tr w) {t : Task} (ht : w.sched.tasks[0]? = some t) :
    t.procId = none := by
  have hp : w.sched.procs[0]? = some (none, kernelSpace) := by
    rw [h.procs]
    rfl
  unfold Scheduler.procs at hp
  rw [List.getElem?_map, ht] at hp
  exact congrArg Prod.fst (Option.some.inj hp)

/-! ### Spawning -/

section

variable {block : U64} {budget : Budget} {procId : Option Nat} {space : AddressSpace}

theorem spawn (h : Owned kernelSpace tr w) (hfree : block ∉ w.allocated) :
    Owned kernelSpace (tr ++ [.spawn block budget procId space])
      ⟨w.sched.spawnInner block budget procId space, block :: w.allocated⟩ := by
  have states := @stateOf_spawn w.sched
  have blocks := @blockOf_spawn w.sched
  constructor
  case current =>
    show ∃ st, (w.sched.spawnInner ..).stateOf w.sched.current = some st ∧ _
    rw [states, if_neg (Nat.ne_of_lt h.current_lt)]
    exact h.current
  case block =>
    intro i st hi hst hne
    show ∃ b, (w.sched.spawnInner ..).blockOf i = some b
    rw [states] at hst
    rw [blocks]
    split at hst
    · next heq => exact ⟨block, if_pos heq⟩
    · next hlt =>
      rw [if_neg hlt]
      exact h.block i st hi hst hne
  case apart =>
    intro i j b hbi hbj
    rw [blocks] at hbi hbj
    -- the new block is nobody else's, because every block in use is allocated
    split at hbi
    · next hi =>
      cases hbi
      split at hbj
      · next hj => rw [hi, hj]
      · exact absurd (h.held j _ hbj) hfree
    · split at hbj
      · cases hbj
        exact absurd (h.held i _ hbi) hfree
      · exact h.apart i j b hbi hbj
  case held =>
    intro i b hb
    rw [blocks] at hb
    split at hb
    · cases hb
      exact List.mem_cons_self
    · exact List.mem_cons_of_mem _ (h.held i b hb)
  case nodup => exact List.nodup_cons.mpr ⟨hfree, h.nodup⟩
  case procs =>
    unfold Scheduler.procs spawnInner spawnedProcs
    rw [List.map_append, List.filterMap_append]
    exact congrArg (· ++ _) h.procs

end

end Owned

variable {space : AddressSpace} {tr' : List Event} {b : U64}

theorem spawn_seen {block : U64} {budget : Budget} {procId : Option Nat} :
    Seen w ⟨w.sched.spawnInner block budget procId space, block :: w.allocated⟩ := by
  refine ⟨fun i => ?_, .inl rfl⟩
  show Move _ ((w.sched.spawnInner ..).stateOf i)
  rw [stateOf_spawn]
  split
  · next hi =>
    have fresh : w.sched.stateOf i = none := by
      unfold stateOf
      rw [List.getElem?_eq_none (Nat.le_of_eq hi.symm)]
      rfl
    rw [fresh]
    exact .spawn
  · exact .stay _

/-! ### Reaping -/

/-- Task `i`, which is finished and not running, is reaped and its block freed. -/
structure Reaped (w : World) (i : Nat) (b : U64) (v : World) : Prop where
  finished : w.sched.stateOf i = some .finished
  other : i ≠ w.sched.current
  block : w.sched.blockOf i = some b
  allocated : b ∈ w.allocated
  sched : v.sched = { w.sched with tasks := w.sched.tasks.modify i Task.reap }
  freed : v.allocated = w.allocated.erase b

/-- The block that is freed belongs to the last finished task of the process. -/
theorem Owned.reap_cases (h : Owned kernelSpace tr w) {procId : Nat}
    {freed : Option (Option U64 × AddressSpace)} (hs : World.Step w (.reap procId freed) v) :
    (v = w ∧ freed = none ∧
      ∀ (i : Nat) (t : Task), w.sched.tasks[i]? = some t → t.procId = some procId →
        t.state ≠ .finished) ∨
    ∃ i t b, LastFinished w.sched procId i t ∧ Reaped w i b v ∧ freed = some (some b, t.space) := by
  obtain ⟨hrun, hreap, halloc⟩ := hs
  rcases reapFinished_cases w.sched procId with ⟨hnone, nobody⟩ | ⟨i, t, found, hsome⟩
  · rw [hnone] at hreap
    obtain ⟨hfreed, hsched⟩ := Prod.mk.inj hreap
    rw [← hfreed] at halloc
    exact .inl ⟨(congr (congrArg World.mk hsched) halloc.symm).symm, hfreed.symm, nobody⟩
  · rw [hsome] at hreap
    obtain ⟨hfreed, hsched⟩ := Prod.mk.inj hreap
    have finished : w.sched.stateOf i = some .finished :=
      stateOf_some.mpr ⟨t, found.found, found.finished⟩
    have notIdle : i ≠ 0 := by
      intro hi
      have := h.idle (hi ▸ found.found)
      rw [found.proc] at this
      cases this
    obtain ⟨b, hb⟩ := h.block i .finished notIdle finished State.noConfusion
    have phys : t.stackPhys = some b := by
      obtain ⟨t', ht', hphys⟩ := blockOf_some.mp hb
      rw [found.found] at ht'
      cases ht'
      exact hphys
    rw [phys] at hfreed
    refine .inr ⟨i, t, b, found, ⟨finished, ?_, hb, h.held i b hb, hsched.symm, ?_⟩, hfreed.symm⟩
    · exact fun hc => hrun (stateOf_some.mp (hc ▸ finished))
    · rw [halloc, ← hfreed]
      rfl

namespace Reaped

variable {i : Nat} {b : U64}

theorem stateOf_self (h : Reaped w i b v) : v.sched.stateOf i = some .reaped := by
  obtain ⟨t, ht, _⟩ := stateOf_some.mp h.finished
  rw [h.sched]
  exact stateOf_some.mpr ⟨_, getElem?_modify_self ht, rfl⟩

theorem blockOf_self (h : Reaped w i b v) : v.sched.blockOf i = none := by
  obtain ⟨t, ht, _⟩ := stateOf_some.mp h.finished
  rw [h.sched]
  unfold blockOf
  rw [getElem?_modify_self ht]
  rfl

variable {j : Nat}

theorem stateOf_other (h : Reaped w i b v) (hj : i ≠ j) :
    v.sched.stateOf j = w.sched.stateOf j := by
  rw [h.sched]
  exact stateOf_modify_ne hj

theorem blockOf_other (h : Reaped w i b v) (hj : i ≠ j) :
    v.sched.blockOf j = w.sched.blockOf j := by
  rw [h.sched]
  exact blockOf_modify_ne hj

theorem current_same (h : Reaped w i b v) : v.sched.current = w.sched.current := by
  rw [h.sched]

theorem seen (h : Reaped w i b v) : Seen w v := by
  refine ⟨fun j => ?_, .inl h.current_same⟩
  by_cases hj : i = j
  · rw [← hj, h.finished, h.stateOf_self]
    exact .reap
  · rw [h.stateOf_other hj]
    exact .stay _

theorem owned (h : Reaped w i b v) (hw : Owned kernelSpace tr w)
    (hev : spawnedProcs (tr ++ [ev]) = spawnedProcs tr) : Owned kernelSpace (tr ++ [ev]) v := by
  have old : ∀ {j c}, v.sched.blockOf j = some c → i ≠ j ∧ w.sched.blockOf j = some c := by
    intro j c hc
    have hj : i ≠ j := by
      rintro rfl
      rw [h.blockOf_self] at hc
      cases hc
    exact ⟨hj, h.blockOf_other hj ▸ hc⟩
  constructor
  case current =>
    rw [h.current_same, h.stateOf_other h.other]
    exact hw.current
  case block =>
    intro j st hj hst hne
    have hij : i ≠ j := by
      rintro rfl
      rw [h.stateOf_self] at hst
      exact hne (Option.some.inj hst).symm
    rw [h.stateOf_other hij] at hst
    rw [h.blockOf_other hij]
    exact hw.block j st hj hst hne
  case apart => exact fun j k c hj hk => hw.apart j k c (old hj).2 (old hk).2
  case held =>
    intro j c hc
    obtain ⟨hij, hc⟩ := old hc
    -- another task's block is another block
    have hne : c ≠ b := by
      rintro rfl
      exact hij (hw.apart i j c h.block hc)
    rw [h.freed]
    exact (List.mem_erase_of_ne hne).mpr (hw.held j c hc)
  case nodup =>
    rw [h.freed]
    exact hw.nodup.erase b
  case procs =>
    rw [hev, ← hw.procs, h.sched]
    exact procs_modify fun _ => ⟨rfl, rfl⟩

end Reaped

/-! ## Steps and runs -/

theorem Owned.step (h : Owned kernelSpace tr w) (hs : World.Step w ev v) :
    Owned kernelSpace (tr ++ [ev]) v ∧ Seen w v := by
  have quiet : Quiet w v → spawnedProcs (tr ++ [ev]) = spawnedProcs tr →
    Owned kernelSpace (tr ++ [ev]) v ∧ Seen w v := fun hq hev => ⟨hq.owned h hev, hq.seen⟩
  cases ev with
  | spawn block budget procId space =>
    obtain ⟨hfree, rfl⟩ := hs
    exact ⟨h.spawn hfree, spawn_seen⟩
  | yield =>
    cases hs
    exact quiet (.of_switch (schedule_tasks _) (schedule_current _)) (filterMap_snoc_none rfl)
  | tick =>
    cases hs
    exact quiet (.tick w) (filterMap_snoc_none rfl)
  | exit =>
    cases hs
    exact quiet (.exit h) (filterMap_snoc_none rfl)
  | parked =>
    cases hs
    exact quiet (.of_switch (handOff_tasks _) (handOff_current _)) (filterMap_snoc_none rfl)
  | reap procId freed =>
    have hev : spawnedProcs (tr ++ [.reap procId freed]) = spawnedProcs tr :=
      filterMap_snoc_none rfl
    rcases h.reap_cases hs with ⟨rfl, _⟩ | ⟨i, t, b, _, hr, _⟩
    · exact quiet (.of_switch rfl (.inl rfl)) hev
    · exact ⟨hr.owned h hev, hr.seen⟩

theorem run_owned (h : Run World.Step (World.init kernelSpace) tr w) : Owned kernelSpace tr w :=
  h.inv_trace (Owned kernelSpace) (.init kernelSpace) fun _ _ _ _ hk hs => (hk.step hs).1

/-- **The dead stay dead**, and once another task runs they do not run again. -/
theorem Owned.dead_run (h : Owned kernelSpace tr w) (hrun : Run World.Step w tr' v) {i : Nat}
    (hdead : Dead (w.sched.stateOf i)) :
    Dead (v.sched.stateOf i) ∧ (w.sched.current ≠ i → v.sched.current ≠ i) := by
  have inv := hrun.inv (fun u => (∃ tr, Owned kernelSpace tr u) ∧ Dead (u.sched.stateOf i) ∧
    (w.sched.current ≠ i → u.sched.current ≠ i)) ⟨⟨tr, h⟩, hdead, id⟩ ?_
  · exact inv.2
  · rintro u ev u' ⟨⟨tr, hu⟩, hd, hcur⟩ hs
    obtain ⟨hu', seen⟩ := hu.step hs
    have hd' := (seen.move i).dead hd
    refine ⟨⟨_, hu'⟩, hd', fun hne hc => ?_⟩
    rcases seen.current with hsame | hrunnable
    · exact hcur hne (hsame ▸ hc)
    · rw [hc] at hrunnable
      rcases hd' with hd' | hd'
      · rw [hrunnable] at hd'
        cases hd'
      · rw [hrunnable] at hd'
        cases hd'

/-- A block that is not allocated stays so until it is handed out again. -/
theorem not_allocated_run (hrun : Run World.Step w tr' v) (hb : b ∉ w.allocated)
    (hno : ∀ budget procId space, .spawn b budget procId space ∉ tr') : b ∉ v.allocated := by
  induction hrun with
  | nil => exact hb
  | @snoc u v tr' ev _ hs ih =>
    have hu := ih fun budget procId space hmem =>
      hno budget procId space (List.mem_append_left _ hmem)
    cases ev with
    | spawn block budget procId space =>
      obtain ⟨_, rfl⟩ := hs
      refine List.not_mem_cons_of_ne_of_not_mem ?_ hu
      rintro rfl
      exact hno budget procId space (List.mem_append_right _ List.mem_cons_self)
    | yield | tick | exit | parked => cases hs; exact hu
    | reap procId freed =>
      rw [hs.2.2]
      unfold World.giveBack
      split
      · exact fun hmem => hu (List.mem_of_mem_erase hmem)
      · exact hu

/-- Two frees of one block have a spawn that was given the block again between them. -/
theorem freed_again {tr₁ tr₂ tr₃ : List Event} {p p' : Nat} {space' : AddressSpace}
    (h : Run World.Step (World.init kernelSpace)
      (tr₁ ++ .reap p (some (some b, space)) :: (tr₂ ++ .reap p' (some (some b, space')) :: tr₃))
      w) : ∃ budget procId space, .spawn b budget procId space ∈ tr₂ := by
  obtain ⟨w₁, w₁', h₁, hreap, hrest⟩ := h.split_at
  obtain ⟨w₂, w₂', h₂, hreap', _⟩ := hrest.split_at
  have owned := run_owned h₁
  have notAllocated : b ∉ w₁'.allocated := by
    rw [hreap.2.2]
    exact owned.nodup.not_mem_erase
  -- the second free finds the block allocated
  have allocated : b ∈ w₂.allocated := by
    have owned₂ := run_owned ((h₁.snoc hreap).append h₂)
    rcases owned₂.reap_cases hreap' with ⟨_, hnone, _⟩ | ⟨i, t, c, _, hr, hsome⟩
    · cases hnone
    · cases hsome
      exact hr.allocated
  by_contra hno
  refine not_allocated_run h₂ notAllocated (fun budget procId space hmem =>
    hno ⟨budget, procId, space, hmem⟩) allocated

end

/-- **Dead tasks stay dead and their stacks are freed once.**  In every state of a run the current
index is one of a task.  A finished or reaped task never becomes runnable and, once it is not
current, never becomes current.  A runnable task other than the idle one has a stack block that is
allocated and no other task's.  The tasks stand in spawn order, and `reap_finished` reaps the last
finished one of the process: it is not current, its block is the allocated one that is freed, and
its address space is returned.  A block that is freed twice was handed out again in between. -/
theorem tasks_die_once {kernelSpace : AddressSpace} {tr : List Event} {w : World}
    (h : Run World.Step (World.init kernelSpace) tr w) :
    w.sched.current < w.sched.tasks.length ∧
    (∀ tr' v i t, Run World.Step w tr' v → w.sched.tasks[i]? = some t → t.state ≠ .runnable →
      (∃ t', v.sched.tasks[i]? = some t' ∧ t'.state ≠ .runnable) ∧
        (w.sched.current ≠ i → v.sched.current ≠ i)) ∧
    (∀ (i : Nat) (t : Task), i ≠ 0 → w.sched.tasks[i]? = some t → t.state = .runnable →
      ∃ b, t.stackPhys = some b ∧ b ∈ w.allocated ∧
        ∀ (j : Nat) (t' : Task), j ≠ i → w.sched.tasks[j]? = some t' → t'.stackPhys ≠ some b) ∧
    w.sched.tasks.map (fun t => (t.procId, t.space)) = (none, kernelSpace) :: spawnedProcs tr ∧
    (∀ procId freed v, World.Step w (.reap procId freed) v →
      (freed = none ∧ v = w ∧
        ∀ (i : Nat) (t : Task), w.sched.tasks[i]? = some t → t.procId = some procId →
          t.state ≠ .finished) ∨
      ∃ i t b, LastFinished w.sched procId i t ∧ i ≠ w.sched.current ∧ t.stackPhys = some b ∧
        freed = some (some b, t.space) ∧ b ∈ w.allocated ∧ b ∉ v.allocated ∧
        v.sched = { w.sched with tasks := w.sched.tasks.modify i Task.reap }) ∧
    ∀ tr₁ tr₂ tr₃ p p' b space space',
      tr = tr₁ ++ .reap p (some (some b, space)) :: (tr₂ ++ .reap p'
        (some (some b, space')) :: tr₃) →
      ∃ budget procId space, .spawn b budget procId space ∈ tr₂ := by
  have owned := run_owned h
  refine ⟨owned.current_lt, ?_, ?_, owned.procs, ?_, ?_⟩
  · intro tr' v i t hrun ht hst
    have hdead : Dead (w.sched.stateOf i) := by
      unfold Dead stateOf
      rw [ht]
      cases hs : t.state with
      | runnable => exact absurd hs hst
      | finished => exact .inl (congrArg some hs)
      | reaped => exact .inr (congrArg some hs)
    obtain ⟨dead, notCurrent⟩ := owned.dead_run hrun hdead
    refine ⟨?_, notCurrent⟩
    rcases dead with hd | hd
    all_goals
      obtain ⟨t', ht', hst'⟩ := stateOf_some.mp hd
      exact ⟨t', ht', by rw [hst']; exact State.noConfusion⟩
  · intro i t hi ht hst
    obtain ⟨b, hb⟩ := owned.block i .runnable hi (stateOf_some.mpr ⟨t, ht, hst⟩) State.noConfusion
    refine ⟨b, ?_, owned.held i b hb, fun j t' hj ht' hphys => ?_⟩
    · unfold blockOf at hb
      rw [ht] at hb
      exact hb
    · exact hj (owned.apart j i b (blockOf_some.mpr ⟨t', ht', hphys⟩) hb)
  · intro procId freed v hs
    rcases owned.reap_cases hs with ⟨hv, hnone, nobody⟩ | ⟨i, t, b, last, hr, hsome⟩
    · exact .inl ⟨hnone, hv, nobody⟩
    · refine .inr ⟨i, t, b, last, hr.other, ?_, hsome, hr.allocated, ?_, hr.sched⟩
      · have hb := hr.block
        unfold blockOf at hb
        rw [last.found] at hb
        exact hb
      · rw [hr.freed]
        exact owned.nodup.not_mem_erase
  · rintro tr₁ tr₂ tr₃ p p' b space space' rfl
    exact freed_again h

/-- Two tasks of process 7, on blocks `0x8000` and `0x10000`, have exited. -/
def exitedTwice : World where
  sched := (((bootstrap ⟨0, 0⟩).spawnInner 0x8000 (Budget.new 5 10) (some 7) ⟨1, 0⟩).spawnInner
    0x10000 (Budget.new 5 10) (some 7) ⟨2, 0⟩).schedule.taskExit.taskExit
  allocated := [0x10000, 0x8000]

/-- The one spawned last is reaped first. -/
theorem tasks_die_once_twoExits :
    Run World.Step (World.init ⟨0, 0⟩)
      [.spawn 0x8000 (Budget.new 5 10) (some 7) ⟨1, 0⟩, .spawn 0x10000 (Budget.new 5 10)
        (some 7) ⟨2, 0⟩,
        .yield, .exit, .exit] exitedTwice ∧
    ∃ v, World.Step exitedTwice (.reap 7 (some (some 0x10000, ⟨2, 0⟩))) v ∧ v.allocated = [0x8000] ∧
      exitedTwice.sched.current < exitedTwice.sched.tasks.length ∧
      ∃ t, v.sched.tasks[2]? = some t ∧ t.state ≠ .runnable := by
  have run : Run World.Step (World.init ⟨0, 0⟩)
      [.spawn 0x8000 (Budget.new 5 10) (some 7) ⟨1, 0⟩,
      .spawn 0x10000 (Budget.new 5 10) (some 7) ⟨2, 0⟩, .yield, .exit, .exit] exitedTwice :=
    .cons ⟨by decide, rfl⟩ (.cons ⟨by decide, rfl⟩ (.cons rfl (.cons rfl (.cons rfl (.nil _)))))
  have reap : World.Step exitedTwice (.reap 7 (some (some 0x10000, ⟨2, 0⟩)))
      ⟨(exitedTwice.sched.reapFinished 7).2, [0x8000]⟩ := by
    refine ⟨?_, rfl, rfl⟩
    rintro ⟨t, ⟨⟩, ⟨⟩⟩
  have once := tasks_die_once run
  exact ⟨run, _, reap, rfl, once.1,
    (once.2.1 _ _ 2 _ (.snoc (.nil _) reap) rfl State.noConfusion).1⟩

end Scheduler

end Praesidium
