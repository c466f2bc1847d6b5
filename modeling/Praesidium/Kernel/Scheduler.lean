import Praesidium.Kernel.Arch
import Praesidium.Lib.Run

/-!
The preemptive task scheduler (`kernel/src/sched/scheduler.rs`).

One CPU: preemption is masked around every critical section, so each of `spawn_inner`,
`schedule`, the timer interrupt (`on_tick`, then `preempt`), `task_exit` and
`reap_finished` is one step.  A stack block comes from the frame allocator with the call
that takes it.  What a switch loads into the CPU (context, page table, kernel stack,
domain) is no part of the state here.

`Admitted` runs are those in which the idle task neither exits nor runs out of budget:

    Run Admitted (bootstrap k) tr s →
      s's current task is runnable within its budget, and no other task is past its own   (budget_kept)
-/

namespace Praesidium

namespace Scheduler

inductive State where
  | runnable
  | finished
  | reaped
  deriving DecidableEq, Repr

structure Task where
  stackPhys : Option U64
  budget : Budget
  state : State
  procId : Option Nat
  space : AddressSpace
  deriving DecidableEq, Repr

def Task.eligible (t : Task) : Bool := t.state == .runnable && !t.budget.isDepleted

end Scheduler

structure Scheduler where
  tasks : List Scheduler.Task
  current : Nat
  deriving DecidableEq, Repr

namespace Scheduler

/-! ## The scheduler -/

/-- Task `i` may be picked. -/
def eligible (s : Scheduler) (i : Nat) : Bool := s.tasks[i]?.any Task.eligible

/-- The next task that may run, round robin from the current one, which comes last. -/
def pickNext (s : Scheduler) : Option Nat :=
  let n := s.tasks.length
  ((List.range' 1 n).map fun step => (s.current + step) % n).find? s.eligible

def runnableBesides (s : Scheduler) (who : Nat) : Nat :=
  s.tasks.zipIdx.countP fun (t, i) => i != who && t.eligible

/-- The boot context is task 0, the idle task. -/
def bootstrap (kernelSpace : AddressSpace) : Scheduler where
  tasks :=
    [{ stackPhys := none, budget := Budget.new 0xffffffff 0xffffffff, state := .runnable, procId := none,
              space := kernelSpace }]
  current := 0

/-- `block` is the stack block that `alloc_frames` returned. -/
def spawnInner (s : Scheduler) (block : U64) (budget : Budget) (procId : Option Nat)
    (space : AddressSpace) : Scheduler :=
  { s with tasks := s.tasks ++ [{ stackPhys := some block, budget, state := .runnable, procId, space }] }

def schedule (s : Scheduler) : Scheduler :=
  match s.pickNext with
  | some next => if next ≠ s.current then { s with current := next } else s
  | none => s

/-- One round of the loop of `task_exit`; without a task to run the CPU waits for the next round. -/
def handOff (s : Scheduler) : Scheduler :=
  match s.pickNext with
  | some next => { s with current := next }
  | none => s

def finish (s : Scheduler) : Scheduler :=
  { s with tasks := s.tasks.modify s.current fun t => { t with state := .finished } }

/-- `task_exit` up to the end of its first round -/
def taskExit (s : Scheduler) : Scheduler := s.finish.handOff

/-- The index of the last member that satisfies `p`. -/
def rposition {α : Type} (p : α → Bool) (l : List α) : Option Nat :=
  (l.reverse.findIdx? p).map fun i => l.length - 1 - i

/-- The address space of the reaped task and the stack block that is freed. -/
def reapFinished (s : Scheduler) (procId : Nat) : Option (Option U64 × AddressSpace) × Scheduler :=
  match rposition (fun t : Task => t.procId == some procId && t.state == .finished) s.tasks with
  | none => (none, s)
  | some i =>
    (s.tasks[i]?.map fun t => (t.stackPhys, t.space),
      { s with tasks := s.tasks.modify i fun t => { t with stackPhys := none, state := .reaped } })

def charge (s : Scheduler) : Scheduler :=
  { s with tasks := s.tasks.modify s.current fun t => { t with budget := t.budget.charge 1 } }

/-- Whether the running task is to be preempted. -/
def onTick (s : Scheduler) : Bool × Scheduler := (0 < s.charge.runnableBesides s.current, s.charge)

/-- The timer interrupt. -/
def tick (s : Scheduler) : Scheduler := if s.onTick.1 then s.onTick.2.schedule else s.onTick.2

/-! ## Runs -/

inductive Event where
  | spawn (block : U64) (budget : Budget) (procId : Option Nat) (space : AddressSpace)
  | yield
  | tick
  | exit
  | parked
  | reap (procId : Nat) (freed : Option (Option U64 × AddressSpace))
  deriving DecidableEq, Repr

def isCurrent (s : Scheduler) (st : State) : Prop :=
  ∃ t, s.tasks[s.current]? = some t ∧ t.state = st

/-- What the running task, the timer or an exiting task does next.  A task that has exited and found
no other to run (`parked`) goes round its loop again. -/
def Step (s : Scheduler) : Event → Scheduler → Prop
  | .spawn block budget procId space, u =>
    s.isCurrent .runnable ∧ u = s.spawnInner block budget procId space
  | .yield, u => s.isCurrent .runnable ∧ u = s.schedule
  | .tick, u => u = s.tick
  | .exit, u => s.isCurrent .runnable ∧ u = s.taskExit
  | .parked, u => s.isCurrent .finished ∧ u = s.handOff
  | .reap procId freed, u => s.isCurrent .runnable ∧ s.reapFinished procId = (freed, u)

/-! ## Picking -/

variable {s : Scheduler} {i : Nat}

theorem eligible_iff :
    s.eligible i = true ↔ ∃ t, s.tasks[i]? = some t ∧ t.state = .runnable ∧
      t.budget.isDepleted = false := by
  unfold eligible Task.eligible
  cases s.tasks[i]? with
  | none => simp
  | some t => simp

theorem eligible_lt (h : s.eligible i = true) : i < s.tasks.length := by
  obtain ⟨t, ht, _⟩ := eligible_iff.mp h
  exact (List.getElem?_eq_some_iff.mp ht).1

theorem pickNext_some (h : s.pickNext = some i) : s.eligible i = true :=
  List.find?_some h

/-- Every index is looked at. -/
theorem exists_step {n c : Nat} (hi : i < n) : ∃ step ∈ List.range' 1 n, (c + step) % n = i := by
  have hc : c % n < n := Nat.mod_lt _ (by omega)
  have split : (c + (if c % n < i then i - c % n else n + i - c % n)) % n = i := by
    rw [Nat.add_mod]
    split
    · rw [Nat.mod_eq_of_lt (a := i - c % n) (by omega), show c % n + (i - c % n) = i by omega]
      exact Nat.mod_eq_of_lt hi
    · by_cases h : i = c % n
      · rw [h, show n + c % n - c % n = n by omega, Nat.mod_self, Nat.add_zero]
        exact Nat.mod_eq_of_lt hc
      · rw [Nat.mod_eq_of_lt (a := n + i - c % n) (by omega), show c % n + (n + i - c % n) =
          i + n by omega, Nat.add_mod_right]
        exact Nat.mod_eq_of_lt hi
  refine ⟨_, List.mem_range'_1.mpr ?_, split⟩
  split
  · omega
  · omega

/-- A task that may run is found. -/
theorem pickNext_isSome (h : s.eligible i = true) : ∃ next, s.pickNext = some next := by
  refine Option.isSome_iff_exists.mp (List.find?_isSome.mpr ⟨i, ?_, h⟩)
  obtain ⟨step, hstep, hi⟩ := exists_step (c := s.current) (eligible_lt h)
  exact List.mem_map.mpr ⟨step, hstep, hi⟩

theorem runnableBesides_pos {who : Nat} :
    0 < s.runnableBesides who ↔ ∃ i, i ≠ who ∧ s.eligible i = true := by
  unfold runnableBesides
  rw [List.countP_pos_iff]
  constructor
  · rintro ⟨⟨t, i⟩, hmem, hp⟩
    rw [Bool.and_eq_true, bne_iff_ne] at hp
    refine ⟨i, hp.1, ?_⟩
    unfold eligible
    rw [List.mem_zipIdx_iff_getElem?.mp hmem]
    exact hp.2
  · rintro ⟨i, hne, he⟩
    obtain ⟨t, ht, hany⟩ := (Option.any_eq_true ..).mp he
    refine ⟨(t, i), List.mem_zipIdx_iff_getElem?.mpr ht, ?_⟩
    rw [Bool.and_eq_true, bne_iff_ne]
    exact ⟨hne, hany⟩

/-- The task that runs after `schedule`. -/
theorem schedule_eligible (h : s.eligible i = true) :
    s.schedule.eligible s.schedule.current = true := by
  obtain ⟨next, hnext⟩ := pickNext_isSome h
  have picked := pickNext_some hnext
  unfold schedule
  rw [hnext]
  dsimp only
  split
  · exact picked
  · next hcur =>
    rw [Decidable.not_not.mp hcur] at picked
    exact picked

theorem schedule_tasks (s : Scheduler) : s.schedule.tasks = s.tasks := by
  unfold schedule
  split
  · split
    · rfl
    · rfl
  · rfl

theorem tick_tasks (s : Scheduler) : s.tick.tasks = s.charge.tasks := by
  unfold tick
  split
  · exact schedule_tasks _
  · rfl

/-- A new task stands after all others. -/
theorem spawnInner_tasks (s : Scheduler) (block : U64) (budget : Budget) (procId : Option Nat)
    (space : AddressSpace) (i : Nat) :
    (s.spawnInner block budget procId space).tasks[i]? =
      if i = s.tasks.length then some
        { stackPhys := some block, budget, state := .runnable, procId, space }
      else s.tasks[i]? := by
  unfold spawnInner
  split
  · next hi => rw [hi, List.getElem?_concat_length]
  · next hi =>
    by_cases hlt : i < s.tasks.length
    · exact List.getElem?_append_left hlt
    · rw [List.getElem?_eq_none (Nat.le_of_not_lt hlt)]
      refine List.getElem?_eq_none ?_
      rw [List.length_append, List.length_singleton]
      omega

theorem handOff_tasks (s : Scheduler) : s.handOff.tasks = s.tasks := by
  unfold handOff
  split
  · rfl
  · rfl

theorem handOff_eligible (h : s.eligible i = true) :
    s.handOff.eligible s.handOff.current = true := by
  obtain ⟨next, hnext⟩ := pickNext_isSome h
  have handed : s.handOff = { s with current := next } := by
    unfold handOff
    rw [hnext]
  rw [handed]
  exact pickNext_some (s := s) hnext

theorem rposition_some {α : Type} {p : α → Bool} {l : List α} (h : rposition p l = some i) :
    ∃ a, l[i]? = some a ∧ p a = true := by
  obtain ⟨j, hj, rfl⟩ := Option.map_eq_some_iff.mp h
  obtain ⟨hlt, hp, _⟩ := List.findIdx?_eq_some_iff_getElem.mp hj
  rw [List.length_reverse] at hlt
  rw [List.getElem_reverse] at hp
  exact ⟨_, List.getElem?_eq_getElem (by omega), hp⟩

/-! ## Budgets over a run -/

/-- The step is taken in a run the budget bound is about. -/
structure Admitted (s : Scheduler) (ev : Event) (u : Scheduler) : Prop where
  step : Step s ev u
  fresh : ∀ block budget procId space, ev = .spawn block budget procId space → budget.consumed = 0
  stays : ev = .exit → s.current ≠ 0
  funded : ∀ t, u.tasks[0]? = some t → t.budget.isDepleted = false

/-- The budgets of the tasks spawned in `tr`. -/
def spawned (tr : List Event) : List Budget :=
  tr.filterMap fun
    | .spawn _ budget _ _ => some budget
    | _ => none

structure Kept (tr : List Event) (s : Scheduler) : Prop where
  idle : s.eligible 0 = true
  running : s.eligible s.current = true
  within : ∀ i t, i ≠ 0 → s.tasks[i]? = some t → t.budget.consumed.toNat ≤ t.budget.capacity.toNat
  capacities : s.tasks.map (fun t => t.budget.capacity) = 0xffffffff :: (spawned tr).map
    Budget.capacity

section

variable {s u : Scheduler} {tr : List Event} {ev : Event}

variable {α : Type} {t : Task} {f : Task → Task} {tasks : List Task} {k : Nat}

/-- An event that `g` does not read adds nothing to what `g` reads of a run. -/
theorem filterMap_snoc_none {g : Event → Option α} (h : g ev = none) :
    (tr ++ [ev]).filterMap g = tr.filterMap g := by
  rw [List.filterMap_append, List.filterMap_cons_none h, List.filterMap_nil, List.append_nil]

/-- The idle task stays eligible while it is runnable. -/
theorem Admitted.idle (h : Admitted s ev u) (ht : u.tasks[0]? = some t)
    (hst : t.state = .runnable) : u.eligible 0 = true :=
  eligible_iff.mpr ⟨t, ht, hst, h.funded t ht⟩

/-- A change of one task that keeps what `g` reads of it. -/
theorem map_modify {g : Task → α} (tasks : List Task) (i : Nat) (hf : ∀ t, g (f t) = g t) :
    (tasks.modify i f).map g = tasks.map g := by
  refine List.ext_getElem? fun k => ?_
  rw [List.getElem?_map, List.getElem?_map, List.getElem?_modify]
  cases tasks[k]? with
  | none => rfl
  | some t =>
    show some _ = some _
    split
    · exact congrArg some (hf t)
    · rfl

theorem modify_cases {i : Nat} (h : (tasks.modify k f)[i]? = some t) :
    ∃ t0, tasks[i]? = some t0 ∧ t = if k = i then f t0 else t0 := by
  rw [List.getElem?_modify] at h
  obtain ⟨t0, h0, heq⟩ := Option.map_eq_some_iff.mp h
  exact ⟨t0, h0, heq.symm⟩

/-- A change of one task that spends no budget keeps every budget within its capacity. -/
theorem within_modify (hf : ∀ t, (f t).budget = t.budget)
    (h : ∀ i t, i ≠ 0 → tasks[i]? = some t → t.budget.consumed.toNat ≤ t.budget.capacity.toNat)
    (i : Nat) (t : Task) (hi : i ≠ 0) (ht : (tasks.modify k f)[i]? = some t) :
    t.budget.consumed.toNat ≤ t.budget.capacity.toNat := by
  obtain ⟨t0, h0, rfl⟩ := modify_cases ht
  have := h i t0 hi h0
  split
  · rw [hf]
    exact this
  · exact this

/-- A charged unit was still to be had. -/
theorem charge_within {b : Budget} (h : b.isDepleted = false) :
    (b.charge 1).consumed.toNat ≤ (b.charge 1).capacity.toNat := by
  have hlt : b.consumed.toNat < b.capacity.toNat := by
    unfold Budget.isDepleted at h
    rw [decide_eq_false_iff_not] at h
    omega
  have := Word.saturatingAdd_toNat b.consumed 1
  show (Word.saturatingAdd b.consumed 1).toNat ≤ b.capacity.toNat
  have one : (1 : U32).toNat = 1 := rfl
  omega

namespace Kept

section

variable (h : Kept tr s)

include h

theorem spawn {block : U64} {budget : Budget} {procId : Option Nat} {space : AddressSpace}
    (hb : budget.consumed = 0) :
    Kept (tr ++ [.spawn block budget procId space]) (s.spawnInner block budget procId space) := by
  have old : ∀ {i}, s.eligible i = true → (s.spawnInner block budget procId space).eligible i =
    true := by
    intro i hi
    unfold eligible spawnInner
    rw [List.getElem?_append_left (eligible_lt hi)]
    exact hi
  constructor
  case idle => exact old h.idle
  case running => exact old h.running
  case within =>
    intro i t hi ht
    rw [spawnInner_tasks] at ht
    split at ht
    · cases ht
      show budget.consumed.toNat ≤ _
      rw [hb]
      exact Nat.zero_le _
    · exact h.within i t hi ht
  case capacities =>
    unfold spawnInner spawned
    rw [List.map_append, List.filterMap_append, List.map_append, h.capacities]
    rfl

theorem yield (hev : spawned (tr ++ [ev]) = spawned tr) :
    Kept (tr ++ [ev]) s.schedule := by
  constructor
  case idle => unfold eligible; rw [schedule_tasks]; exact h.idle
  case running => exact schedule_eligible h.running
  case within => rw [schedule_tasks]; exact h.within
  case capacities => rw [schedule_tasks, hev]; exact h.capacities

/-- Charging spends a unit the running task had. -/
theorem charged (i : Nat) (t : Task) (hi : i ≠ 0) (ht : s.charge.tasks[i]? = some t) :
    t.budget.consumed.toNat ≤ t.budget.capacity.toNat := by
  obtain ⟨t0, h0, rfl⟩ := modify_cases ht
  split
  · next hcur =>
    obtain ⟨r, hr, _, hb⟩ := eligible_iff.mp h.running
    rw [hcur, h0] at hr
    cases hr
    exact charge_within hb
  · exact h.within i t0 hi h0

theorem tick (hadm : Admitted s .tick s.tick) : Kept (tr ++ [.tick]) s.tick := by
  have tasks : s.tick.tasks = s.charge.tasks := tick_tasks s
  have idle : s.tick.eligible 0 = true := by
    obtain ⟨t, ht, hst, _⟩ := eligible_iff.mp h.idle
    have charged : s.tick.tasks[0]? =
      some (if s.current = 0 then { t with budget := t.budget.charge 1 } else t) := by
      rw [tasks]
      unfold charge
      rw [List.getElem?_modify, ht]
      rfl
    refine hadm.idle charged ?_
    split
    · exact hst
    · exact hst
  have idle' : s.charge.eligible 0 = true := by
    unfold eligible
    rw [← tasks]
    exact idle
  constructor
  case idle => exact idle
  case running =>
    unfold Scheduler.tick onTick
    split
    · exact schedule_eligible idle'
    · next hnone =>
      -- nobody else may run, so the running task is the idle one
      have alone : ¬ ∃ i, i ≠ s.current ∧ s.charge.eligible i = true := fun hc =>
        hnone (decide_eq_true (runnableBesides_pos.mpr hc))
      have zero : s.current = 0 := Decidable.byContradiction fun hne =>
        alone ⟨0, Ne.symm hne, idle'⟩
      show s.charge.eligible s.current = true
      rw [zero]
      exact idle'
  case within => rw [tasks]; exact h.charged
  case capacities =>
    rw [tasks, show spawned (tr ++ [.tick]) = spawned tr from filterMap_snoc_none rfl,
      ← h.capacities]
    exact map_modify _ _ fun _ => rfl

theorem exit (hcur : s.current ≠ 0) : Kept (tr ++ [.exit]) s.taskExit := by
  have tasks : s.taskExit.tasks = s.finish.tasks := handOff_tasks _
  have idle : s.finish.eligible 0 = true := by
    have same : s.finish.tasks[0]? = s.tasks[0]? := List.getElem?_modify_ne _ _ hcur
    unfold eligible
    rw [same]
    exact h.idle
  constructor
  case idle => unfold eligible; rw [tasks]; exact idle
  case running => exact handOff_eligible idle
  case within => rw [tasks]; exact within_modify (fun _ => rfl) h.within
  case capacities =>
    rw [tasks, show spawned (tr ++ [.exit]) = spawned tr from filterMap_snoc_none rfl,
      ← h.capacities]
    exact map_modify _ _ fun _ => rfl

/-- The idle task and the running one are not the one that is reaped. -/
theorem reap (procId : Nat) (freed : Option (Option U64 × AddressSpace)) :
    Kept (tr ++ [.reap procId freed]) (s.reapFinished procId).2 := by
  have hev : spawned (tr ++ [.reap procId freed]) = spawned tr := filterMap_snoc_none rfl
  unfold reapFinished
  split
  · exact ⟨h.idle, h.running, h.within, by rw [hev]; exact h.capacities⟩
  · next k hk =>
    obtain ⟨t, ht, hp⟩ := rposition_some hk
    have done : t.state = .finished := eq_of_beq (Bool.and_eq_true_iff.mp hp).2
    have old : ∀ {i}, s.eligible i = true → Scheduler.eligible { s with
        tasks := s.tasks.modify k fun t => { t with stackPhys := none, state := .reaped } } i =
          true := by
      intro i hi
      obtain ⟨t', ht', hst, _⟩ := eligible_iff.mp hi
      have hne : k ≠ i := fun hc => by
        rw [hc, ht'] at ht
        cases ht
        rw [hst] at done
        cases done
      unfold eligible
      show Option.any _ (List.modify ..)[i]? = true
      rw [List.getElem?_modify_ne _ _ hne]
      exact hi
    constructor
    case idle => exact old h.idle
    case running => exact old h.running
    case within => exact within_modify (fun _ => rfl) h.within
    case capacities =>
      rw [hev, ← h.capacities]
      exact map_modify _ _ fun _ => rfl

theorem step (hadm : Admitted s ev u) : Kept (tr ++ [ev]) u := by
  have hstep := hadm.step
  cases ev with
  | spawn block budget procId space =>
    obtain ⟨_, rfl⟩ := hstep
    exact h.spawn (hadm.fresh _ _ _ _ rfl)
  | yield =>
    obtain ⟨_, rfl⟩ := hstep
    exact h.yield (filterMap_snoc_none rfl)
  | tick =>
    cases hstep
    exact h.tick hadm
  | exit =>
    obtain ⟨_, rfl⟩ := hstep
    exact h.exit (hadm.stays rfl)
  | parked =>
    -- the running task is runnable, so no task is parked
    obtain ⟨⟨t, ht, hst⟩, _⟩ := hstep
    obtain ⟨t', ht', hst', _⟩ := eligible_iff.mp h.running
    rw [ht'] at ht
    cases ht
    rw [hst'] at hst
    cases hst
  | reap procId freed =>
    have kept := h.reap procId freed
    rw [hstep.2] at kept
    exact kept

end

theorem init (kernelSpace : AddressSpace) : Kept [] (bootstrap kernelSpace) := by
  have idle : (bootstrap kernelSpace).eligible 0 = true := rfl
  refine ⟨idle, idle, fun i t hi ht => ?_, rfl⟩
  obtain ⟨hlt, _⟩ := List.getElem?_eq_some_iff.mp ht
  exact absurd (Nat.lt_one_iff.mp hlt) hi

end Kept

end

/-- **No task runs past its budget.**  In every state of an admitted run the current task is
runnable
and has budget left, no task but the idle one has consumed more than its capacity, and the current
task was not spawned with capacity 0. -/
theorem budget_kept {kernelSpace : AddressSpace} {tr : List Event} {s : Scheduler}
    (h : Run Admitted (bootstrap kernelSpace) tr s) :
    (∀ i t, i ≠ 0 → s.tasks[i]? = some t → t.budget.consumed.toNat ≤ t.budget.capacity.toNat) ∧
    (∃ t, s.tasks[s.current]? = some t ∧ t.state = .runnable ∧ t.budget.isDepleted = false) ∧
    ∀ i budget, (spawned tr)[i]? = some budget → budget.capacity = 0 → s.current ≠ i + 1 := by
  have kept : Kept tr s := h.inv_trace Kept (Kept.init kernelSpace) fun _ _ _ _ hk hadm =>
    hk.step hadm
  have running := eligible_iff.mp kept.running
  refine ⟨kept.within, running, fun i budget hi hcap hcur => ?_⟩
  obtain ⟨t, ht, _, hb⟩ := running
  have capacity : t.budget.capacity = budget.capacity := by
    have same : (s.tasks.map fun t => t.budget.capacity)[i + 1]? = _ :=
      congrArg (fun l => l[i + 1]?) kept.capacities
    rw [List.getElem?_map, ← hcur, ht, hcur, List.getElem?_cons_succ, List.getElem?_map, hi] at same
    exact Option.some.inj same
  unfold Budget.isDepleted at hb
  rw [capacity, hcap] at hb
  simp at hb

/-- A task of capacity 1 runs for one tick; the next one hands the CPU back. -/
theorem budget_kept_oneTick :
    ∃ s, Run Admitted (bootstrap ⟨0, 0⟩) [.spawn 0x8000 (Budget.new 1 10) none ⟨0, 0⟩, .tick, .tick]
      s ∧ s.current = 0 ∧
    (∃ t, s.tasks[1]? = some t ∧ t.budget.consumed = 1 ∧
      t.budget.consumed.toNat ≤ t.budget.capacity.toNat) ∧
    ∃ t, s.tasks[s.current]? = some t ∧ t.state = .runnable ∧ t.budget.isDepleted = false := by
  have spawn : Admitted (bootstrap ⟨0, 0⟩) (.spawn 0x8000 (Budget.new 1 10) none ⟨0, 0⟩)
      ((bootstrap ⟨0, 0⟩).spawnInner 0x8000 (Budget.new 1 10) none ⟨0, 0⟩) := by
    refine ⟨⟨⟨_, rfl, rfl⟩, rfl⟩, ?_, Event.noConfusion, ?_⟩
    · rintro _ _ _ _ ⟨⟩
      rfl
    · rintro _ ⟨⟩
      rfl
  have tick : ∀ s : Scheduler, (s.tick.tasks[0]?.all fun t => !t.budget.isDepleted) = true →
    Admitted s .tick s.tick := by
    intro s h
    refine ⟨rfl, fun _ _ _ _ => Event.noConfusion, Event.noConfusion, fun t ht => ?_⟩
    rw [ht] at h
    exact (Bool.not_eq_true' _).mp h
  have run :=
    Run.cons spawn (Run.cons (tick _ (by decide)) (Run.cons (tick _ (by decide)) (.nil _)))
  have kept := budget_kept run
  exact ⟨_, run, by decide, ⟨_, rfl, by decide, kept.1 1 _ (by decide) rfl⟩, kept.2.1⟩

end Scheduler

end Praesidium
