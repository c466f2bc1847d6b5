import Mathlib.Data.List.DropRight
import Praesidium.CapCore.Cap
import Praesidium.Lib.Run

/-!
The cooperative executor (`sched/src/executor.rs`, `waker.rs`, `task.rs`).

A future is code the executor knows nothing about: at each poll it may return `Ready` or `Pending`
and wake any tasks, any number of times.  So a poll is a step whose result and wakes are free, and
what is proved holds for every future.  Inside `run_until_idle` each iteration of its loop is a
step; wakes from outside may come at any time.

`TaskId::allocate` counts, so the tasks that `Task::new` makes have ids of their own until the
counter wraps (`distinctIds_of_made`).  With a run and `DistinctIds` of its trace,

    no task is polled more in a period than its capacity            (polls_within_budget)
    a task with a wake it has not seen is queued or parked          (wakes_kept)
-/

namespace Praesidium

namespace Executor

abbrev TaskId := U64

structure Task where
  id : TaskId
  budget : Budget
  deriving DecidableEq, Repr

/-- `NEXT.fetch_add(1)`, with the counter after it. -/
def TaskId.allocate (next : U64) : TaskId × U64 := (next, next + 1)

/-- `Task::new`, with the counter after it. -/
def Task.new (budget : Budget) (next : U64) : Task × U64 :=
  (⟨(TaskId.allocate next).1, budget⟩, (TaskId.allocate next).2)

/-- The tasks of a run of calls of `Task::new`. -/
def Task.made : List Budget → U64 → List Task
  | [], _ => []
  | budget :: budgets, next => (Task.new budget next).1 :: made budgets (Task.new budget next).2

/-- The live tasks, one for each id. -/
structure Tasks where
  list : List Task
  distinct : (list.map Task.id).Nodup
  deriving DecidableEq, Repr

namespace Tasks

def empty : Tasks := ⟨[], List.nodup_nil⟩

def get (m : Tasks) (id : TaskId) : Option Task := m.list.find? fun t => t.id == id

def remove (m : Tasks) (id : TaskId) : Tasks where
  list := m.list.filter fun t => t.id != id
  distinct := (List.filter_sublist.map _).nodup m.distinct

/-- A task of the same id is replaced. -/
def insert (m : Tasks) (task : Task) : Tasks where
  list := (m.remove task.id).list ++ [task]
  distinct := by
    rw [List.map_append]
    refine List.nodup_append.mpr ⟨(m.remove task.id).distinct, List.pairwise_singleton .., ?_⟩
    intro a ha b hb
    obtain ⟨t, ht, rfl⟩ := List.mem_map.mp ha
    rw [List.map_singleton, List.mem_singleton] at hb
    rw [hb]
    exact bne_iff_ne.mp (List.mem_filter.mp ht).2

/-- The budget of every task, changed by `f`. -/
def mapBudget (m : Tasks) (f : TaskId → Budget → Budget) : Tasks where
  list := m.list.map fun t => { t with budget := f t.id t.budget }
  distinct := by
    rw [List.map_map]
    exact m.distinct

end Tasks

end Executor

structure Executor where
  tasks : Executor.Tasks
  ready : List Executor.TaskId
  parked : List Executor.TaskId
  deriving DecidableEq, Repr

namespace Executor

/-! ## The executor -/

def new : Executor := ⟨.empty, [], []⟩

/-- The ready queue is shared with every waker. -/
def wake (e : Executor) (id : TaskId) : Executor := { e with ready := e.ready ++ [id] }

def spawn (e : Executor) (task : Task) : Executor :=
  { e with tasks := e.tasks.insert task, ready := e.ready ++ [task.id] }

def park (e : Executor) (id : TaskId) : Executor :=
  if e.parked.contains id then e else { e with parked := e.parked ++ [id] }

def charge (e : Executor) (id : TaskId) : Executor :=
  { e with tasks := e.tasks.mapBudget fun i b => if i = id then b.charge 1 else b }

def replenish (e : Executor) : Executor where
  tasks := e.tasks.mapBudget fun _ b => b.replenish
  ready := e.ready ++ e.parked.filter fun id => (e.tasks.get id).isSome
  parked := []

inductive Poll where
  | ready
  | pending
  deriving DecidableEq, Repr

inductive Event where
  | spawn (task : Task)
  | wake (id : TaskId)
  | replenish
  | run
  | stale (id : TaskId)
  | park (id : TaskId)
  | poll (id : TaskId) (result : Poll) (wakes : List TaskId)
  | idle
  deriving DecidableEq, Repr

/-- One iteration of the loop of `run_until_idle`; `future` is what a task does when polled. -/
def iteration (e : Executor) (future : TaskId → Poll × List TaskId) : Option (Event × Executor) :=
  match e.ready with
  | [] => none
  | id :: rest =>
    let e := { e with ready := rest }
    match e.tasks.get id with
    | none => some (.stale id, e)
    | some task =>
      if task.budget.isDepleted then some (.park id, e.park id)
      else
        let (result, wakes) := future id
        let e := { e with ready := rest ++ wakes }
        match result with
        | .ready => some (.poll id result wakes, { e with tasks := e.tasks.remove id })
        | .pending => some (.poll id result wakes, e.charge id)

/-- `running`: inside `run_until_idle`. -/
structure Machine where
  exec : Executor
  running : Bool
  deriving DecidableEq, Repr

def Machine.new : Machine := ⟨Executor.new, false⟩

inductive Step : Machine → Event → Machine → Prop
  | spawn {e : Executor} (task : Task) : Step ⟨e, false⟩ (.spawn task) ⟨e.spawn task, false⟩
  | wake {e : Executor} {running : Bool} (id : TaskId) : Step ⟨e, running⟩ (.wake id) ⟨e.wake id,
      running⟩
  | replenish {e : Executor} : Step ⟨e, false⟩ .replenish ⟨e.replenish, false⟩
  | run {e : Executor} : Step ⟨e, false⟩ .run ⟨e, true⟩
  | iteration {e e' : Executor} {ev : Event} (future : TaskId →
      Poll × List TaskId) (h : e.iteration future = some (ev, e')) : Step ⟨e, true⟩ ev ⟨e', true⟩
  | idle {e : Executor} (h : e.ready = []) : Step ⟨e, true⟩ .idle ⟨e, false⟩

/-! ## Live tasks -/

namespace Tasks

variable {id i : TaskId}

theorem get_id {m : Tasks} {t : Task} (h : m.get id = some t) : t.id = id := by
  have := List.find?_some h
  exact eq_of_beq this

theorem get_remove_self (m : Tasks) (id : TaskId) : (m.remove id).get id = none := by
  refine List.find?_eq_none.mpr fun t ht => ?_
  have := (List.mem_filter.mp ht).2
  simpa using this

theorem get_remove_ne (m : Tasks) (h : i ≠ id) : (m.remove id).get i = m.get i := by
  show (m.list.filter _).find? _ = m.list.find? _
  rw [List.find?_filter]
  congr 1
  funext t
  by_cases ht : t.id = i
  · simp [ht, h]
  · simp [ht]

theorem get_insert_self (m : Tasks) (t : Task) : (m.insert t).get t.id = some t := by
  have away := m.get_remove_self t.id
  unfold get at away ⊢
  show List.find? _ ((m.remove t.id).list ++ [t]) = some t
  rw [List.find?_append, away]
  simp

theorem get_insert_ne (m : Tasks) (t : Task) (h : i ≠ t.id) : (m.insert t).get i = m.get i := by
  have same := m.get_remove_ne h
  unfold get at same ⊢
  show List.find? _ ((m.remove t.id).list ++ [t]) = _
  rw [List.find?_append, same]
  simp [Ne.symm h]

theorem get_mapBudget (m : Tasks) (f : TaskId → Budget → Budget) (i : TaskId) :
    (m.mapBudget f).get i = (m.get i).map fun t => { t with budget := f t.id t.budget } := by
  show List.find? _ (m.list.map _) = _
  rw [List.find?_map]
  rfl

end Tasks

/-- What a step does, with the reasons for it. -/
inductive Does (e : Executor) : Event → Executor → Prop
  | spawn (task : Task) : Does e (.spawn task) (e.spawn task)
  | wake (id : TaskId) : Does e (.wake id) (e.wake id)
  | replenish : Does e .replenish e.replenish
  | run : Does e .run e
  | stale {id : TaskId} {rest : List TaskId} (hready : e.ready = id :: rest)
      (hgone : e.tasks.get id = none) : Does e (.stale id) { e with ready := rest }
  | park {id : TaskId} {rest : List TaskId} {t : Task} (hready : e.ready = id :: rest)
      (ht : e.tasks.get id = some t)
      (hb : t.budget.isDepleted = true) : Does e (.park id) (park { e with ready := rest } id)
  | complete {id : TaskId} {rest wakes : List TaskId} {t : Task} (hready : e.ready = id :: rest)
      (ht : e.tasks.get id = some t) (hb : t.budget.isDepleted = false) :
      Does e (.poll id .ready wakes) { e with tasks := e.tasks.remove id, ready := rest ++ wakes }
  | suspend {id : TaskId} {rest wakes : List TaskId} {t : Task} (hready : e.ready = id :: rest)
      (ht : e.tasks.get id = some t) (hb : t.budget.isDepleted = false) :
      Does e (.poll id .pending wakes) (charge { e with ready := rest ++ wakes } id)
  | idle (h : e.ready = []) : Does e .idle e

variable {ev : Event}

theorem iteration_does {e e' : Executor} {future : TaskId → Poll × List TaskId}
    (h : e.iteration future = some (ev, e')) : Does e ev e' := by
  unfold iteration at h
  split at h
  · cases h
  · next id rest hready =>
    dsimp only at h
    split at h
    · next hgone =>
      cases h
      exact .stale hready hgone
    · next t ht =>
      split at h
      · next hb =>
        cases h
        exact .park hready ht hb
      · next hb =>
        split at h
        · next hresult =>
          cases h
          rw [hresult]
          exact .complete hready ht (eq_false_of_ne_true hb)
        · next hresult =>
          cases h
          rw [hresult]
          exact .suspend hready ht (eq_false_of_ne_true hb)

theorem Step.does {m m' : Machine} (h : Step m ev m') : Does m.exec ev m'.exec := by
  cases h with
  | spawn task => exact .spawn task
  | wake id => exact .wake id
  | replenish => exact .replenish
  | run => exact .run
  | iteration future h => exact iteration_does h
  | idle h => exact .idle h

/-! ## Histories -/

def Event.isSpawn (id : TaskId) : Event → Bool
  | .spawn task => task.id == id
  | _ => false

def Event.isPoll (id : TaskId) : Event → Bool
  | .poll i _ _ => i == id
  | _ => false

def spawnedIds (tr : List Event) : List TaskId :=
  tr.filterMap fun
    | .spawn task => some task.id
    | _ => none

/-- No two tasks have one id. -/
def DistinctIds (tr : List Event) : Prop := (spawnedIds tr).Nodup

instance (tr : List Event) : Decidable (DistinctIds tr) :=
  inferInstanceAs (Decidable (List.Nodup _))

theorem made_ids (budgets : List Budget) (next : U64) : (Task.made budgets next).map Task.id =
    (List.range budgets.length).map fun i => next + BitVec.ofNat 64 i := by
  induction budgets generalizing next with
  | nil => rfl
  | cons budget budgets ih =>
    show next :: (Task.made budgets (next + 1)).map Task.id = _
    rw [ih, List.length_cons, List.range_succ_eq_map, List.map_cons, List.map_map]
    refine congrArg₂ _ (BitVec.add_zero next).symm (List.map_congr_left fun i _ => ?_)
    rw [Function.comp_apply, Nat.succ_eq_add_one, BitVec.ofNat_add, BitVec.add_assoc,
      BitVec.add_comm 1]
    rfl

/-- **Ids differ** among the tasks made since boot: `spawn` takes a task, so each is spawned
once at most, in any order. -/
theorem distinctIds_of_made {tr : List Event} (budgets : List Budget)
    (hlen : budgets.length ≤ 2 ^ 64)
    (h : (spawnedIds tr).Subperm ((Task.made budgets 1).map Task.id)) : DistinctIds tr := by
  obtain ⟨ids, perm, sub⟩ := h
  refine perm.nodup_iff.mp (sub.nodup ?_)
  rw [made_ids]
  refine List.pairwise_map.mpr (List.nodup_range.imp_of_mem fun hi hj ne same => ne ?_)
  have same := congrArg BitVec.toNat ((BitVec.add_right_inj 1).mp same)
  rw [List.mem_range] at hi hj
  rwa [BitVec.toNat_ofNat, BitVec.toNat_ofNat, Nat.mod_eq_of_lt (by omega),
    Nat.mod_eq_of_lt (by omega)] at same

def polls (id : TaskId) (tr : List Event) : Nat := tr.countP (Event.isPoll id)

/-- The events after the last `replenish`. -/
def period (tr : List Event) : List Event := tr.rtakeWhile fun ev => ev != .replenish

section

variable {tr : List Event} {ev : Event} {m m' : Machine} {e e' : Executor} {id : TaskId}

theorem mem_spawnedIds {id : TaskId} :
    id ∈ spawnedIds tr ↔ ∃ task, .spawn task ∈ tr ∧ task.id = id := by
  unfold spawnedIds
  rw [List.mem_filterMap]
  constructor
  · rintro ⟨ev, hev, h⟩
    cases ev with
    | spawn task => exact ⟨task, hev, Option.some.inj h⟩
    | _ => cases h
  · rintro ⟨task, hmem, rfl⟩
    exact ⟨_, hmem, rfl⟩

variable {tr' : List Event} {result : Poll} {wakes : List TaskId} {t : Task}

theorem DistinctIds.left {tr : List Event} (h : DistinctIds (tr ++ tr')) : DistinctIds tr := by
  unfold DistinctIds spawnedIds at h ⊢
  rw [List.filterMap_append] at h
  exact (List.nodup_append.mp h).1

/-- An id that was given is not given again. -/
theorem DistinctIds.apart {tr : List Event} (h : DistinctIds (tr ++ tr'))
    (hid : id ∈ spawnedIds tr) : id ∉ spawnedIds tr' := by
  unfold DistinctIds spawnedIds at h
  rw [List.filterMap_append] at h
  exact fun hc => (List.nodup_append.mp h).2.2 id hid id hc rfl

theorem polls_append (id : TaskId) (tr tr' : List Event) :
    polls id (tr ++ tr') = polls id tr + polls id tr' :=
  List.countP_append

theorem period_snoc (tr : List Event) (hev : ev ≠ .replenish) :
    period (tr ++ [ev]) = period tr ++ [ev] := by
  unfold period
  rw [List.rtakeWhile_concat, if_pos (bne_iff_ne.mpr hev)]

theorem period_replenish (tr : List Event) : period (tr ++ [.replenish]) = [] := by
  unfold period
  rw [List.rtakeWhile_concat, if_neg (by simp)]

/-- A stretch without `replenish` is in the last period. -/
theorem period_append (tr seg : List Event) (h : .replenish ∉ seg) :
    period (tr ++ seg) = period tr ++ seg := by
  induction seg using List.reverseRecOn with
  | nil => rw [List.append_nil, List.append_nil]
  | append_singleton seg ev ih =>
    have hev : ev ≠ .replenish :=
      fun hc => h (by rw [hc]; exact List.mem_append_right _ (List.mem_singleton.mpr rfl))
    rw [← List.append_assoc, period_snoc _ hev, ih fun hc => h (List.mem_append_left _ hc),
      List.append_assoc]

/-! ## Who is polled -/

/-- A polled task is live and has budget left. -/
theorem Does.polled (h : Does e (.poll id result wakes) e') :
    ∃ t, e.tasks.get id = some t ∧ t.budget.isDepleted = false := by
  cases h with
  | complete _ ht hb => exact ⟨_, ht, hb⟩
  | suspend _ ht hb => exact ⟨_, ht, hb⟩

theorem Does.completed (h : Does e (.poll id .ready wakes) e') : e'.tasks.get id = none := by
  cases h with
  | complete _ _ _ => exact Tasks.get_remove_self _ _

theorem get_park (e : Executor) (id i : TaskId) : (e.park id).tasks.get i = e.tasks.get i := by
  unfold park
  split
  · rfl
  · rfl

theorem get_charge_ne (e : Executor) {id i : TaskId} (h : i ≠ id) :
    (e.charge id).tasks.get i = e.tasks.get i := by
  unfold charge
  rw [Tasks.get_mapBudget]
  cases ht : e.tasks.get i with
  | none => rfl
  | some t =>
    have away : t.id ≠ id := by
      rw [Tasks.get_id ht]
      exact h
    rw [Option.map_some, if_neg away]

theorem get_charge_self (e : Executor) {id : TaskId} (ht : e.tasks.get id = some t) :
    (e.charge id).tasks.get id = some { t with budget := t.budget.charge 1 } := by
  unfold charge
  rw [Tasks.get_mapBudget, ht, Option.map_some, if_pos (Tasks.get_id ht)]

/-- Only `spawn` makes a task live. -/
theorem Does.gone (h : Does e ev e') (hid : e.tasks.get id = none) (hsp : ev.isSpawn id = false) :
    e'.tasks.get id = none := by
  cases h with
  | spawn task =>
    refine (Tasks.get_insert_ne _ _ ?_).trans hid
    exact fun hc => by rw [hc] at hsp; simp [Event.isSpawn] at hsp
  | wake i => exact hid
  | replenish =>
    show (Tasks.mapBudget ..).get id = none
    rw [Tasks.get_mapBudget, hid]
    rfl
  | run => exact hid
  | stale _ _ => exact hid
  | park _ _ _ => rw [get_park]; exact hid
  | @complete i _ _ _ _ ht _ =>
    refine (Tasks.get_remove_ne _ fun hc => ?_).trans hid
    rw [← hc, hid] at ht
    cases ht
  | @suspend i _ _ _ _ ht _ =>
    refine (get_charge_ne _ fun hc => ?_).trans hid
    rw [← hc, hid] at ht
    cases ht
  | idle _ => exact hid

/-- A task that is not live is not polled until it is spawned. -/
theorem not_polled (h : Run Step m tr m') (hid : m.exec.tasks.get id = none)
    (hsp : id ∉ spawnedIds tr) : m'.exec.tasks.get id = none ∧ polls id tr = 0 := by
  induction h with
  | nil => exact ⟨hid, rfl⟩
  | @snoc _ _ _ ev _ hstep ih =>
    have away : id ∉ spawnedIds _ := fun hc =>
      hsp (by unfold spawnedIds; rw [List.filterMap_append]; exact List.mem_append_left _ hc)
    obtain ⟨gone, none⟩ := ih away
    have hev : ev.isSpawn id = false := by
      cases ev with
      | spawn task =>
        refine eq_false_of_ne_true fun hc => hsp (mem_spawnedIds.mpr ⟨task, ?_, eq_of_beq hc⟩)
        exact List.mem_append_right _ (List.mem_singleton.mpr rfl)
      | _ => rfl
    refine ⟨hstep.does.gone gone hev, ?_⟩
    rw [polls_append, none, Nat.zero_add]
    refine List.countP_eq_zero.mpr fun ev' hev' hp => ?_
    rw [List.mem_singleton.mp hev'] at hp
    cases ev with
    | poll i result wakes =>
      obtain ⟨t, ht, _⟩ := hstep.does.polled
      rw [eq_of_beq hp, gone] at ht
      cases ht
    | _ => cases hp

theorem live_spawned (h : Run Step .new tr m) (ht : m.exec.tasks.get id = some t) :
    id ∈ spawnedIds tr :=
  Decidable.byContradiction fun hc => by
    rw [(not_polled h rfl hc).1] at ht
    cases ht

/-! ## Budgets -/

/-- What was consumed is what was polled since the budgets were last replenished. -/
structure Spent (tr : List Event) (e : Executor) : Prop where
  consumed : ∀ id t, e.tasks.get id = some t → t.budget.consumed.toNat = polls id (period tr)
  capacity : ∀ id t, e.tasks.get id = some t → ∀ task, .spawn task ∈ tr → task.id = id →
    t.budget.capacity = task.budget.capacity
  bound : ∀ task, .spawn task ∈ tr → polls task.id (period tr) ≤ task.budget.capacity.toNat

theorem polls_period_snoc (id : TaskId) (tr : List Event) (hev : ev ≠ .replenish) :
    polls id (period (tr ++ [ev])) = polls id (period tr) + if ev.isPoll id then 1 else 0 := by
  rw [period_snoc tr hev, polls_append]
  unfold polls
  rw [List.countP_singleton]

theorem mem_spawn_snoc {task : Task} (hev : ∀ task, ev ≠ .spawn task)
    (h : .spawn task ∈ tr ++ [ev]) : .spawn task ∈ tr := by
  rcases List.mem_append.mp h with h | h
  · exact h
  · exact absurd (List.mem_singleton.mp h).symm (hev task)

/-- An event that is neither a spawn, a poll nor a replenishment, and leaves the tasks. -/
theorem Spent.frame (h : Spent tr e) (hspawn : ∀ task, ev ≠ .spawn task) (hrep : ev ≠ .replenish)
    (hpoll : ∀ id, ev.isPoll id = false) (hget : ∀ id, e'.tasks.get id = e.tasks.get id) :
    Spent (tr ++ [ev]) e' := by
  have same : ∀ id, polls id (period (tr ++ [ev])) = polls id (period tr) := fun id => by
    rw [polls_period_snoc id tr hrep, hpoll]
    rfl
  constructor
  case consumed =>
    intro id t ht
    rw [hget] at ht
    rw [same]
    exact h.consumed id t ht
  case capacity =>
    intro id t ht task hmem hid
    rw [hget] at ht
    exact h.capacity id t ht task (mem_spawn_snoc hspawn hmem) hid
  case bound =>
    intro task hmem
    rw [same]
    exact h.bound task (mem_spawn_snoc hspawn hmem)

theorem Spent.spawn (h : Spent tr e) (task : Task) (hnew : task.budget.consumed = 0)
    (hids : DistinctIds (tr ++ [.spawn task])) (hnone : ∀ id, id ∉ spawnedIds tr →
    polls id tr = 0) : Spent (tr ++ [.spawn task]) (e.spawn task) := by
  have unused : task.id ∉ spawnedIds tr :=
    fun hc => hids.apart hc (mem_spawnedIds.mpr ⟨task, List.mem_singleton.mpr rfl, rfl⟩)
  have same : ∀ id, polls id (period (tr ++ [.spawn task])) = polls id (period tr) := fun id =>
    polls_period_snoc id tr Event.noConfusion
  have zero : polls task.id (period tr) = 0 := by
    have le : polls task.id (period tr) ≤ polls task.id tr :=
      (List.rtakeWhile_suffix _ _).sublist.countP_le
    have := hnone _ unused
    omega
  have other : ∀ {t : Task}, .spawn t ∈ tr ++ [.spawn task] → t.id ≠ task.id → .spawn t ∈ tr :=
    fun hmem hne => by
    rcases List.mem_append.mp hmem with hmem | hmem
    · exact hmem
    · cases List.mem_singleton.mp hmem
      exact absurd rfl hne
  have self : ∀ {t : Task}, .spawn t ∈ tr ++ [.spawn task] → t.id = task.id → t = task :=
    fun hmem heq => by
    rcases List.mem_append.mp hmem with hmem | hmem
    · exact absurd (mem_spawnedIds.mpr ⟨_, hmem, heq⟩) unused
    · exact Event.spawn.inj (List.mem_singleton.mp hmem)
  constructor
  case consumed =>
    intro id t ht
    rw [same]
    by_cases hid : id = task.id
    · subst hid
      cases (Tasks.get_insert_self e.tasks task).symm.trans ht
      rw [zero, hnew]
      rfl
    · exact h.consumed id t ((Tasks.get_insert_ne e.tasks task hid).symm.trans ht)
  case capacity =>
    intro id t ht task' hmem hid'
    by_cases hid : id = task.id
    · subst hid
      cases (Tasks.get_insert_self e.tasks task).symm.trans ht
      rw [self hmem hid']
    · exact h.capacity id t ((Tasks.get_insert_ne e.tasks task hid).symm.trans ht) task'
        (other hmem (by rw [hid']; exact hid)) hid'
  case bound =>
    intro task' hmem
    rw [same]
    by_cases hid : task'.id = task.id
    · rw [hid, zero]
      exact Nat.zero_le _
    · exact h.bound task' (other hmem hid)

/-- A poll of a task with budget left: the task is gone, or is charged. -/
theorem Spent.poll (h : Spent tr e) (ht : e.tasks.get id = some t)
    (hb : t.budget.isDepleted = false) (hother : ∀ i, i ≠ id → e'.tasks.get i = e.tasks.get i)
    (hself : ∀ t', e'.tasks.get id = some t' → t' = { t with budget := t.budget.charge 1 }) :
    Spent (tr ++ [.poll id result wakes]) e' := by
  have hlt : t.budget.consumed.toNat < t.budget.capacity.toNat := by
    unfold Budget.isDepleted at hb
    rw [decide_eq_false_iff_not] at hb
    omega
  have count : ∀ i, polls i (period (tr ++ [.poll id result wakes])) = polls i (period tr) + if id =
    i then 1 else 0 := by
    intro i
    rw [polls_period_snoc i tr Event.noConfusion]
    simp [Event.isPoll]
  constructor
  case consumed =>
    intro i t' ht'
    rw [count]
    by_cases hi : i = id
    · subst hi
      rw [if_pos rfl, hself t' ht', ← h.consumed i t ht]
      have := Word.saturatingAdd_toNat t.budget.consumed 1
      show (Word.saturatingAdd t.budget.consumed 1).toNat = _
      have one : (1 : U32).toNat = 1 := rfl
      omega
    · rw [if_neg (Ne.symm hi)]
      rw [hother i hi] at ht'
      exact h.consumed i t' ht'
  case capacity =>
    intro i t' ht' task hspawned hid
    have hmem : .spawn task ∈ tr := mem_spawn_snoc (fun _ => Event.noConfusion) hspawned
    by_cases hi : i = id
    · subst hi
      rw [hself t' ht']
      exact h.capacity i t ht task hmem hid
    · rw [hother i hi] at ht'
      exact h.capacity i t' ht' task hmem hid
  case bound =>
    intro task hspawned
    have hmem : .spawn task ∈ tr := mem_spawn_snoc (fun _ => Event.noConfusion) hspawned
    rw [count]
    by_cases hi : id = task.id
    · have cap := h.capacity id t ht task hmem hi.symm
      have used := h.consumed id t ht
      rw [if_pos hi, ← cap, ← hi, ← used]
      exact hlt
    · rw [if_neg hi]
      exact h.bound task hmem

theorem Spent.replenish (h : Spent tr e) : Spent (tr ++ [.replenish]) e.replenish := by
  have get : ∀ {id t}, e.replenish.tasks.get id = some t →
      ∃ t0, e.tasks.get id = some t0 ∧ t = { t0 with budget := t0.budget.replenish } :=
      fun {id t} ht => by
    have ht : (e.tasks.mapBudget fun _ b => b.replenish).get id = some t := ht
    rw [Tasks.get_mapBudget] at ht
    obtain ⟨t0, h0, heq⟩ := Option.map_eq_some_iff.mp ht
    exact ⟨t0, h0, heq.symm⟩
  constructor
  case consumed =>
    intro id t ht
    obtain ⟨t0, _, rfl⟩ := get ht
    rw [period_replenish]
    rfl
  case capacity =>
    intro id t ht task hmem hid
    obtain ⟨t0, h0, rfl⟩ := get ht
    exact h.capacity id t0 h0 task (mem_spawn_snoc (fun _ => Event.noConfusion) hmem) hid
  case bound =>
    intro task _
    rw [period_replenish]
    exact Nat.zero_le _

theorem Spent.step (h : Spent tr e) (hdoes : Does e ev e')
    (hnew : ∀ task, ev = .spawn task → task.budget.consumed = 0) (hids : DistinctIds (tr ++ [ev]))
    (hnone : ∀ id, id ∉ spawnedIds tr → polls id tr = 0) : Spent (tr ++ [ev]) e' := by
  have kept : ∀ {ev e'}, (∀ task, ev ≠ .spawn task) → ev ≠ .replenish →
    (∀ id, ev.isPoll id = false) →
      (∀ id, e'.tasks.get id = e.tasks.get id) → Spent (tr ++ [ev]) e' := h.frame
  cases hdoes with
  | spawn task => exact h.spawn task (hnew task rfl) hids hnone
  | wake i | run | idle _ | stale _ _ =>
    exact kept (fun _ => Event.noConfusion) Event.noConfusion (fun _ => rfl) fun _ => rfl
  | replenish => exact h.replenish
  | park _ _ _ =>
    exact kept (fun _ => Event.noConfusion) Event.noConfusion (fun _ => rfl) (get_park _ _)
  | @complete i _ _ _ _ ht hb =>
    refine h.poll ht hb (fun j hj => Tasks.get_remove_ne _ hj) fun t' ht' => ?_
    cases (Tasks.get_remove_self e.tasks i).symm.trans ht'
  | @suspend i rest wakes _ _ ht hb =>
    refine h.poll ht hb (fun j hj => get_charge_ne _ hj) fun t' ht' => ?_
    exact (Option.some.inj ((get_charge_self { e with ready := rest ++ wakes } ht).symm.trans
      ht')).symm

theorem spent (h : Run Step .new tr m) (hids : DistinctIds tr)
    (hnew : ∀ task, .spawn task ∈ tr → task.budget.consumed = 0) : Spent tr m.exec := by
  induction h with
  | nil =>
    constructor
    case consumed => intro _ _ ht; cases ht
    case capacity => intro _ _ ht; cases ht
    case bound => intro _ hm; cases hm
  | snoc hrun hstep ih =>
    refine (ih hids.left fun task hm => hnew task (List.mem_append_left _ hm)).step hstep.does ?_
      hids fun id hid => (not_polled hrun rfl hid).2
    rintro task rfl
    exact hnew task (List.mem_append_right _ (List.mem_singleton.mpr rfl))

end

/-- **Budgets are kept.**  Between two replenishments a task is polled at most `capacity` times; a
task
is polled only while it is live with budget left, never after it completed, and never if its
capacity
is 0. -/
theorem polls_within_budget {tr : List Event} {m : Machine} (h : Run Step .new tr m)
    (hids : DistinctIds tr) (hnew : ∀ task, .spawn task ∈ tr → task.budget.consumed = 0) :
    (∀ task pre seg post, .spawn task ∈ tr → tr = pre ++ seg ++ post → .replenish ∉ seg →
      polls task.id seg ≤ task.budget.capacity.toNat) ∧
    (∀ pre id result wakes post, tr = pre ++ .poll id result wakes :: post →
      ∃ m' t, Run Step .new pre m' ∧ m'.exec.tasks.get id = some t ∧ t.budget.isDepleted = false) ∧
    (∀ pre id wakes post, tr = pre ++ .poll id .ready wakes :: post → polls id post = 0) ∧
    ∀ task, .spawn task ∈ tr → task.budget.capacity = 0 → polls task.id tr = 0 := by
  have period : ∀ task pre seg post, .spawn task ∈ tr → tr = pre ++ seg ++ post → .replenish ∉ seg →
      polls task.id seg ≤ task.budget.capacity.toNat := by
    rintro task pre seg post hmem rfl hseg
    obtain ⟨m', hrun, _⟩ := h.split
    by_cases hsp : task.id ∈ spawnedIds (pre ++ seg)
    · obtain ⟨task', hmem', hid⟩ := mem_spawnedIds.mp hsp
      have early : .spawn task ∈ pre ++ seg := by
        rcases List.mem_append.mp hmem with hm | hm
        · exact hm
        · exact absurd (mem_spawnedIds.mpr ⟨task, hm, rfl⟩) (hids.apart hsp)
      have bound := (spent hrun hids.left fun t ht => hnew t (List.mem_append_left _ ht)).bound
        task early
      rw [period_append _ _ hseg, polls_append] at bound
      omega
    · -- a task that is still to be spawned was not polled
      have none := (not_polled hrun rfl hsp).2
      rw [polls_append] at none
      omega
  refine ⟨period, ?_, ?_, ?_⟩
  · rintro pre id result wakes post rfl
    obtain ⟨m', _, hrun, hstep, _⟩ := h.split_at
    obtain ⟨t, ht, hb⟩ := hstep.does.polled
    exact ⟨m', t, hrun, ht, hb⟩
  · rintro pre id wakes post rfl
    obtain ⟨m1, m2, hrun, hstep, hrest⟩ := h.split_at
    obtain ⟨t, ht, _⟩ := hstep.does.polled
    have given : id ∈ spawnedIds pre := live_spawned hrun ht
    refine (not_polled hrest hstep.does.completed fun hc => hids.apart given ?_).2
    obtain ⟨task, hmem, hid⟩ := mem_spawnedIds.mp hc
    exact mem_spawnedIds.mpr ⟨task, List.mem_cons_of_mem _ hmem, hid⟩
  · intro task hmem hcap
    refine List.countP_eq_zero.mpr fun ev hev hp => ?_
    obtain ⟨pre, post, rfl⟩ := List.append_of_mem hev
    have one : polls task.id [ev] = 1 := by
      unfold polls
      rw [List.countP_singleton, if_pos hp]
    have le := period task pre [ev] post hmem (List.append_cons ..) fun hc => by
      rw [← List.mem_singleton.mp hc] at hp
      cases hp
    rw [one, hcap] at le
    exact absurd le (by decide)

/-- A task that always wakes itself, under a budget of one poll. -/
def greedy : Task := (Task.new (Budget.new 1 10) 1).1

/-- It has been polled once and is parked. -/
def greedyParked : Machine := ⟨⟨⟨[⟨1, ⟨1, 1, 10⟩⟩], by decide⟩, [], [1]⟩, false⟩

theorem greedy_run :
    Run Step .new [.spawn greedy, .run, .poll 1 .pending [1], .park 1, .idle] greedyParked := by
  refine .cons (.spawn greedy) ?_
  refine .cons .run ?_
  refine .cons (.iteration (fun _ => (.pending, [1])) rfl) ?_
  refine .cons (.iteration (fun _ => (.pending, [1])) rfl) ?_
  exact .cons (.idle rfl) (.nil _)

theorem greedy_ids : DistinctIds [.spawn greedy, .run, .poll 1 .pending [1], .park 1, .idle] :=
  distinctIds_of_made [Budget.new 1 10] (by decide) ⟨_, .refl _, .refl _⟩

theorem polls_within_budget_greedy : polls 1 [.poll 1 .pending [1], .park 1, .idle] ≤ 1 :=
  (polls_within_budget greedy_run greedy_ids (by intro t ht; simp at ht; rw [ht]; rfl)).1 greedy
  [.spawn greedy, .run] _ [] (by decide) rfl (by decide)

/-! ## Wakes -/

/-- Whether task `id` has been spawned or woken since its last poll began, after one more event. -/
def note (id : TaskId) (due : Bool) : Event → Bool
  | .spawn task => due || task.id == id
  | .wake i => due || i == id
  | .poll i _ wakes => (due && i != id) || wakes.contains id
  | _ => due

/-- Task `id` was spawned or woken after its last poll began. -/
def outstanding (tr : List Event) (id : TaskId) : Bool := tr.foldl (note id) false

structure Queued (tr : List Event) (e : Executor) : Prop where
  found : ∀ id t, e.tasks.get id = some t → outstanding tr id = true → id ∈ e.ready ∨ id ∈ e.parked
  nodup : e.parked.Nodup
  depleted : ∀ id ∈ e.parked, ∃ t, e.tasks.get id = some t ∧ t.budget.isDepleted = true

section

variable {tr : List Event} {ev : Event} {m m' : Machine} {e e' : Executor} {id : TaskId}

theorem outstanding_snoc (tr : List Event) (ev : Event) (id : TaskId) :
    outstanding (tr ++ [ev]) id = note id (outstanding tr id) ev := by
  unfold outstanding
  rw [List.foldl_append]
  rfl

theorem parked_park (e : Executor) (id : TaskId) :
    id ∈ (e.park id).parked ∧ (∀ i ∈ e.parked, i ∈ (e.park id).parked) ∧ ∀ i ∈ (e.park id).parked,
      i ∈ e.parked ∨ i = id := by
  unfold park
  split
  · next hc => exact ⟨List.contains_iff_mem.mp hc, fun _ hi => hi, fun _ hi => .inl hi⟩
  · refine ⟨List.mem_append_right _ (List.mem_singleton.mpr rfl), fun _ hi =>
      List.mem_append_left _ hi, fun i hi => ?_⟩
    exact (List.mem_append.mp hi).imp_right List.mem_singleton.mp

theorem ready_park (e : Executor) (id : TaskId) : (e.park id).ready = e.ready := by
  unfold park
  split
  · rfl
  · rfl

theorem nodup_park (e : Executor) (id : TaskId) (h : e.parked.Nodup) :
    (e.park id).parked.Nodup := by
  unfold park
  split
  · exact h
  · next hc =>
    have away : id ∉ e.parked := fun hm => hc (List.contains_iff_mem.mpr hm)
    refine List.nodup_append.mpr ⟨h, List.pairwise_singleton .., fun a ha b hb => ?_⟩
    rw [List.mem_singleton.mp hb]
    exact fun hc => away (hc ▸ ha)

namespace Queued

theorem spawn (h : Queued tr e) (task : Task) (hnew : e.tasks.get task.id = none) :
    Queued (tr ++ [.spawn task]) (e.spawn task) := by
  constructor
  case found =>
    intro id t ht hdue
    by_cases hid : id = task.id
    · exact .inl (List.mem_append_right _ (List.mem_singleton.mpr hid))
    · have old : outstanding tr id = true := by
        rw [outstanding_snoc] at hdue
        simpa [note, Ne.symm hid] using hdue
      rcases h.found id t ((Tasks.get_insert_ne _ _ hid).symm.trans ht) old with hr | hp
      · exact .inl (List.mem_append_left _ hr)
      · exact .inr hp
  case nodup => exact h.nodup
  case depleted =>
    intro id hid
    obtain ⟨t, ht, hb⟩ := h.depleted id hid
    refine ⟨t, (Tasks.get_insert_ne _ _ fun hc => ?_).trans ht, hb⟩
    rw [hc, hnew] at ht
    cases ht

theorem wake (h : Queued tr e) (i : TaskId) : Queued (tr ++ [.wake i]) (e.wake i) := by
  refine ⟨fun id t ht hdue => ?_, h.nodup, h.depleted⟩
  rw [outstanding_snoc] at hdue
  rcases Bool.or_eq_true_iff.mp hdue with old | hi
  · exact (h.found id t ht old).imp_left (List.mem_append_left _)
  · rw [eq_of_beq hi]
    exact .inl (List.mem_append_right _ (List.mem_singleton.mpr rfl))

/-- Every parked task is live, so all are queued again. -/
theorem requeued (h : Queued tr e) (hid : id ∈ e.parked) : id ∈ e.replenish.ready := by
  obtain ⟨t, ht, _⟩ := h.depleted id hid
  refine List.mem_append_right _ (List.mem_filter.mpr ⟨hid, ?_⟩)
  rw [ht]
  rfl

theorem replenish (h : Queued tr e) : Queued (tr ++ [.replenish]) e.replenish := by
  refine ⟨fun id t ht hdue => .inl ?_, List.nodup_nil, fun _ hc => by cases hc⟩
  rw [outstanding_snoc] at hdue
  have ht : (e.tasks.mapBudget fun _ b => b.replenish).get id = some t := ht
  rw [Tasks.get_mapBudget] at ht
  obtain ⟨t0, h0, _⟩ := Option.map_eq_some_iff.mp ht
  rcases h.found id t0 h0 hdue with hr | hp
  · exact List.mem_append_left _ hr
  · exact h.requeued hp

variable {i : TaskId} {rest : List TaskId}

/-- The id at the front leaves the queue; its task is not live, or it is parked. -/
theorem pop (h : Queued tr e) (hready : e.ready = i :: rest)
    (hnote : outstanding (tr ++ [ev]) = outstanding tr)
    (hget : ∀ id, e'.tasks.get id = e.tasks.get id) (hrest : e'.ready = rest)
    (hsub : ∀ id ∈ e.parked, id ∈ e'.parked) (hfront : e.tasks.get i = none ∨ i ∈ e'.parked)
    (hnodup : e'.parked.Nodup)
    (hdepleted : ∀ id ∈ e'.parked, ∃ t, e.tasks.get id = some t ∧ t.budget.isDepleted = true) :
    Queued (tr ++ [ev]) e' := by
  refine ⟨fun id t ht hdue => ?_, hnodup, fun id hid => by rw [hget]; exact hdepleted id hid⟩
  rw [hnote] at hdue
  rw [hget] at ht
  rcases h.found id t ht hdue with hr | hp
  · rw [hready] at hr
    rcases List.mem_cons.mp hr with rfl | hr
    · rcases hfront with hgone | hp
      · rw [hgone] at ht
        cases ht
      · exact .inr hp
    · exact .inl (by rw [hrest]; exact hr)
  · exact .inr (hsub id hp)

/-- A poll takes the wake of its task from the queue; the wakes it issues are queued. -/
theorem poll (h : Queued tr e) {wakes : List TaskId} {t : Task} {result : Poll}
    (hready : e.ready = i :: rest) (ht : e.tasks.get i = some t) (hb : t.budget.isDepleted = false)
    (hother : ∀ id, id ≠ i → e'.tasks.get id = e.tasks.get id) (hready' : e'.ready = rest ++ wakes)
    (hparked : e'.parked = e.parked) : Queued (tr ++ [.poll i result wakes]) e' := by
  constructor
  case found =>
    intro id t' ht' hdue
    rw [outstanding_snoc] at hdue
    rw [hready', hparked]
    rcases Bool.or_eq_true_iff.mp hdue with old | hw
    · obtain ⟨hdue, hne⟩ := Bool.and_eq_true_iff.mp old
      have hne : id ≠ i := Ne.symm (bne_iff_ne.mp hne)
      rw [hother id hne] at ht'
      rcases h.found id t' ht' hdue with hr | hp
      · rw [hready] at hr
        exact .inl (List.mem_append_left _ ((List.mem_cons.mp hr).resolve_left hne))
      · exact .inr hp
    · exact .inl (List.mem_append_right _ (List.contains_iff_mem.mp hw))
  case nodup => rw [hparked]; exact h.nodup
  case depleted =>
    intro id hid
    rw [hparked] at hid
    obtain ⟨t', ht', hb'⟩ := h.depleted id hid
    have hne : id ≠ i := fun hc => by
      rw [hc, ht] at ht'
      cases ht'
      rw [hb] at hb'
      cases hb'
    exact ⟨t', by rw [hother id hne]; exact ht', hb'⟩

theorem step (h : Queued tr e) (hdoes : Does e ev e') (hids : DistinctIds (tr ++ [ev]))
    (hlive : ∀ id t, e.tasks.get id = some t → id ∈ spawnedIds tr) : Queued (tr ++ [ev]) e' := by
  have quiet : ∀ {ev}, (∀ id due, note id due ev = due) →
    outstanding (tr ++ [ev]) = outstanding tr := fun hev => by
    funext id
    rw [outstanding_snoc, hev]
  cases hdoes with
  | spawn task =>
    refine h.spawn task (Option.eq_none_iff_forall_ne_some.mpr fun t ht => ?_)
    exact hids.apart (hlive _ _ ht) (mem_spawnedIds.mpr ⟨task, List.mem_singleton.mpr rfl, rfl⟩)
  | wake i => exact h.wake i
  | replenish => exact h.replenish
  | run | idle _ =>
    refine ⟨fun id t ht hdue => h.found id t ht ?_, h.nodup, h.depleted⟩
    rw [quiet fun _ _ => rfl] at hdue
    exact hdue
  | stale hready hgone =>
    exact h.pop hready (quiet fun _ _ => rfl) (fun _ => rfl) rfl (fun _ hid => hid) (.inl hgone)
      h.nodup h.depleted
  | @park i rest t hready ht hb =>
    obtain ⟨hself, hsub, honly⟩ := parked_park { e with ready := rest } i
    refine h.pop hready (quiet fun _ _ => rfl) (get_park _ _) (ready_park _ _) hsub (.inr hself)
      (nodup_park _ _ h.nodup) ?_
    intro id hid
    rcases honly id hid with hid | rfl
    · exact h.depleted id hid
    · exact ⟨t, ht, hb⟩
  | complete hready ht hb =>
    exact h.poll hready ht hb (fun _ hne => Tasks.get_remove_ne _ hne) rfl rfl
  | suspend hready ht hb => exact h.poll hready ht hb (fun _ hne => get_charge_ne _ hne) rfl rfl

end Queued

theorem queued (h : Run Step .new tr m) (hids : DistinctIds tr) : Queued tr m.exec := by
  induction h with
  | nil =>
    constructor
    case found => intro _ _ ht; cases ht
    case nodup => exact List.nodup_nil
    case depleted => intro _ hid; cases hid
  | snoc hrun hstep ih =>
    exact (ih hids.left).step hstep.does hids fun _ _ ht => live_spawned hrun ht

end

/-- **No wake is lost.**  A live task with an outstanding wake is in the ready queue or parked; when
`run_until_idle` returns the queue is empty and the parked tasks are live, depleted and all
different;
`replenish` queues every parked task. -/
theorem wakes_kept {tr : List Event} {m : Machine} (h : Run Step .new tr m)
    (hids : DistinctIds tr) :
    (∀ id t, m.exec.tasks.get id = some t → outstanding tr id = true → id ∈ m.exec.ready ∨
      id ∈ m.exec.parked) ∧
    (∀ tr', tr = tr' ++ [.idle] → m.exec.ready = [] ∧ m.exec.parked.Nodup ∧
      (∀ id ∈ m.exec.parked, ∃ t, m.exec.tasks.get id = some t ∧ t.budget.isDepleted = true) ∧
      ∀ id t, m.exec.tasks.get id = some t → outstanding tr id = true → id ∈ m.exec.parked) ∧
    ∀ m', Step m .replenish m' → m'.exec.parked = [] ∧ ∀ id ∈ m.exec.parked,
      id ∈ m'.exec.ready := by
  have kept := queued h hids
  refine ⟨kept.found, ?_, ?_⟩
  · rintro tr' rfl
    obtain ⟨m0, _, hstep⟩ := h.snoc_inv
    have nil : m.exec.ready = [] := by
      cases hstep with
      | iteration _ hi =>
        cases iteration_does hi with
        | idle hnil => exact hnil
      | idle hnil => exact hnil
    refine ⟨nil, kept.nodup, kept.depleted, fun id t ht hdue => ?_⟩
    have := kept.found id t ht hdue
    rw [nil] at this
    exact this.resolve_left List.not_mem_nil
  · intro m' hstep
    cases hstep with
    | replenish => exact ⟨rfl, fun _ hid => kept.requeued hid⟩
    | iteration _ hi =>
      cases iteration_does hi with
      | replenish => exact ⟨rfl, fun _ hid => kept.requeued hid⟩

theorem wakes_kept_greedy : greedyParked.exec.ready = [] ∧ 1 ∈ greedyParked.exec.parked := by
  obtain ⟨hready, _, _, hparked⟩ :=
    (wakes_kept greedy_run greedy_ids).2.1 [.spawn greedy, .run, .poll 1 .pending [1], .park 1] rfl
  exact ⟨hready, hparked 1 ⟨1, ⟨1, 1, 10⟩⟩ rfl (by decide)⟩

end Executor

end Praesidium
