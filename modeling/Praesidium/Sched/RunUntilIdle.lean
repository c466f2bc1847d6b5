import Mathlib.Algebra.GroupWithZero.Nat
import Praesidium.Sched.Executor

/-!
The loop of `run_until_idle` ends (`sched/src/executor.rs`).

A poll costs its task a unit of budget, or the task itself, and puts finitely many ids in the
queue; every other iteration takes one id out of the queue and costs nothing.  So the budget left
and then the length of the queue go down (`iteration_spends`), whatever the futures do:

    ∃ n, ∀ fuel ≥ n, runUntilIdle future fuel [] e = some (tr, e')
      with e'.ready = [] and at most e.unspent polls in tr          (runUntilIdle_returns)
-/

namespace Praesidium

namespace Executor

/-- What the live tasks may still use in this period. -/
def unspent (e : Executor) : Nat :=
  (e.tasks.list.map fun t => t.budget.capacity.toNat - t.budget.consumed.toNat).sum

/-- The loop, with the iterations so far.  What a future does when polled may depend on all of
them. -/
def runUntilIdle (future : List Event → TaskId → Poll × List TaskId) : Nat → List Event → Executor →
    Option (List Event × Executor)
  | 0, _, _ => none
  | fuel + 1, past, e =>
    match e.iteration (future past) with
    | none => some (past, e)
    | some (ev, e') => runUntilIdle future fuel (past ++ [ev]) e'

def Event.polls : Event → Bool
  | .poll _ _ _ => true
  | _ => false

/-! ## What an iteration costs -/

/-- A live task in the list of all. -/
theorem Tasks.exists_split {m : Tasks} {id : TaskId} {t : Task} (h : m.get id = some t) :
    ∃ l₁ l₂, m.list = l₁ ++ t :: l₂ ∧ (∀ a ∈ l₁, a.id ≠ id) ∧ ∀ a ∈ l₂, a.id ≠ id := by
  have hid := Tasks.get_id h
  obtain ⟨l₁, l₂, hl⟩ := List.append_of_mem (List.mem_of_find?_eq_some h)
  refine ⟨l₁, l₂, hl, ?_⟩
  have hd := m.distinct
  rw [hl, List.map_append, List.map_cons, hid] at hd
  obtain ⟨_, hcons, hapart⟩ := List.nodup_append.mp hd
  refine ⟨fun a ha heq => ?_, fun a ha heq => ?_⟩
  · exact hapart a.id (List.mem_map_of_mem ha) id List.mem_cons_self heq
  · exact (List.nodup_cons.mp hcons).1 (heq ▸ List.mem_map_of_mem ha)

section

variable {e e' : Executor} {id : TaskId} {t : Task}

/-- A completed task takes its budget with it. -/
theorem unspent_remove (ready parked : List TaskId) (h : e.tasks.get id = some t) :
    unspent ⟨e.tasks.remove id, ready,
      parked⟩ + (t.budget.capacity.toNat - t.budget.consumed.toNat) = e.unspent := by
  obtain ⟨l₁, l₂, hl, h₁, h₂⟩ := Tasks.exists_split h
  have kept : ∀ l : List Task, (∀ a ∈ l, a.id ≠ id) → l.filter (fun a => a.id != id) = l :=
    fun l hne => List.filter_eq_self.mpr fun a ha => bne_iff_ne.mpr (hne a ha)
  have removed : (e.tasks.remove id).list = l₁ ++ l₂ := by
    show e.tasks.list.filter _ = _
    rw [hl, List.filter_append, List.filter_cons_of_neg (by simp [Tasks.get_id h]), kept l₁ h₁,
      kept l₂ h₂]
  unfold unspent
  dsimp only
  rw [removed, hl, List.map_append, List.map_append, List.map_cons, List.sum_append,
    List.sum_append, List.sum_cons]
  omega

/-- A suspended task has a unit less. -/
theorem unspent_charge (h : e.tasks.get id = some t) (hb : t.budget.isDepleted = false) :
    (e.charge id).unspent + 1 = e.unspent := by
  obtain ⟨l₁, l₂, hl, h₁, h₂⟩ := Tasks.exists_split h
  have kept : ∀ l : List Task, (∀ a ∈ l, a.id ≠ id) →
      l.map (fun a => { a with budget := if a.id = id then a.budget.charge 1 else a.budget }) =
      l := by
    intro l hne
    refine (List.map_congr_left fun a ha => ?_).trans (List.map_id l)
    rw [if_neg (hne a ha)]
    rfl
  have charged : (e.charge id).tasks.list = l₁ ++ { t with budget := t.budget.charge 1 } :: l₂ := by
    show e.tasks.list.map _ = _
    rw [hl, List.map_append, List.map_cons, kept l₁ h₁, kept l₂ h₂]
    dsimp only
    rw [if_pos (Tasks.get_id h)]
  have unit : (t.budget.charge 1).capacity.toNat - (t.budget.charge 1).consumed.toNat + 1 =
      t.budget.capacity.toNat - t.budget.consumed.toNat := by
    have hlt : t.budget.consumed.toNat < t.budget.capacity.toNat := by
      unfold Budget.isDepleted at hb
      rw [decide_eq_false_iff_not] at hb
      omega
    have add := Word.saturatingAdd_toNat t.budget.consumed 1
    have one : (1 : U32).toNat = 1 := rfl
    have hcap := t.budget.capacity.isLt
    show t.budget.capacity.toNat - (Word.saturatingAdd t.budget.consumed 1).toNat + 1 = _
    omega
  unfold unspent
  rw [charged, hl, List.map_append, List.map_append, List.map_cons, List.map_cons, List.sum_append,
    List.sum_append, List.sum_cons, List.sum_cons]
  dsimp only
  omega

theorem unspent_park (e : Executor) (id : TaskId) :
    (e.park id).unspent = e.unspent ∧ (e.park id).ready = e.ready := by
  unfold park
  split
  · exact ⟨rfl, rfl⟩
  · exact ⟨rfl, rfl⟩

variable {future : TaskId → Poll × List TaskId} {ev : Event}

/-- An iteration looks at the first id of the queue. -/
theorem iteration_event (h : e.iteration future = some (ev, e')) :
    (∃ id, ev = .stale id) ∨ (∃ id, ev = .park id) ∨ ∃ id result wakes, ev = .poll id result
      wakes := by
  unfold iteration at h
  split at h
  · cases h
  · next id rest _ =>
    dsimp only at h
    split at h
    · cases h
      exact .inl ⟨id, rfl⟩
    · split at h
      · cases h
        exact .inr (.inl ⟨id, rfl⟩)
      · split at h
        · cases h
          exact .inr (.inr ⟨_, _, _, rfl⟩)
        · cases h
          exact .inr (.inr ⟨_, _, _, rfl⟩)

/-- **A poll spends**; any other iteration shortens the queue. -/
theorem iteration_spends (h : e.iteration future = some (ev, e')) :
    ev.polls = true ∧ e'.unspent + 1 ≤ e.unspent ∨
    ev.polls = false ∧ e'.unspent = e.unspent ∧ e'.ready.length < e.ready.length := by
  have does := iteration_does h
  rcases iteration_event h with ⟨id, rfl⟩ | ⟨id, rfl⟩ | ⟨id, result, wakes, rfl⟩
  · cases does with
    | stale hready _ =>
      refine .inr ⟨rfl, rfl, ?_⟩
      rw [hready]
      exact Nat.lt_succ_self _
  · cases does with
    | @park _ rest _ hready _ _ =>
      obtain ⟨same, queue⟩ := unspent_park { e with ready := rest } id
      refine .inr ⟨rfl, same, ?_⟩
      rw [queue, hready]
      exact Nat.lt_succ_self _
  · refine .inl ⟨rfl, ?_⟩
    cases does with
    | @complete _ rest _ t _ ht hb =>
      have := unspent_remove (rest ++ wakes) e.parked ht
      unfold Budget.isDepleted at hb
      rw [decide_eq_false_iff_not] at hb
      omega
    | @suspend _ rest _ t _ ht hb =>
      have := unspent_charge (e := { e with ready := rest ++ wakes }) ht hb
      exact Nat.le_of_eq this

/-- The loop is left with an empty queue. -/
theorem iteration_none (h : e.iteration future = none) : e.ready = [] := by
  unfold iteration at h
  split at h
  · assumption
  · dsimp only at h
    split at h
    · cases h
    · split at h
      · cases h
      · split at h
        · cases h
        · cases h

end

/-! ## The loop -/

section

variable (future : List Event → TaskId → Poll × List TaskId)

/-- `runUntilIdle` returns after the iterations `tr`, with enough fuel. -/
def Returns (past : List Event) (e : Executor) (tr : List Event) (e' : Executor) : Prop :=
  ∃ n, ∀ fuel ≥ n, runUntilIdle future fuel past e = some (past ++ tr, e')

variable {future} {past tr : List Event} {e e' e'' : Executor} {ev : Event}

theorem Returns.stop (h : e.iteration (future past) = none) : Returns future past e [] e := by
  refine ⟨1, fun fuel hfuel => ?_⟩
  obtain ⟨f, rfl⟩ : ∃ f, fuel = f + 1 := ⟨fuel - 1, by omega⟩
  rw [runUntilIdle, h, List.append_nil]

theorem Returns.next (h : e.iteration (future past) = some (ev, e''))
    (hr : Returns future (past ++ [ev]) e'' tr e') : Returns future past e (ev :: tr) e' := by
  obtain ⟨n, hn⟩ := hr
  refine ⟨n + 1, fun fuel hfuel => ?_⟩
  obtain ⟨f, rfl⟩ : ∃ f, fuel = f + 1 := ⟨fuel - 1, by omega⟩
  rw [runUntilIdle, h]
  dsimp only
  rw [hn f (by omega), List.append_assoc]
  rfl

/-- By recursion on the budget left and then the length of the queue. -/
theorem exists_returns (future : List Event → TaskId → Poll × List TaskId) (past : List Event)
    (e : Executor) :
    ∃ tr e', Returns future past e tr e' ∧ e'.ready = [] ∧ tr.countP Event.polls ≤ e.unspent := by
  cases h : e.iteration (future past) with
  | none => exact ⟨[], e, .stop h, iteration_none h, Nat.zero_le _⟩
  | some r =>
    obtain ⟨ev, e''⟩ := r
    have spends := iteration_spends h
    obtain ⟨tr, e', returns, idle, polls⟩ := exists_returns future (past ++ [ev]) e''
    refine ⟨ev :: tr, e', returns.next h, idle, ?_⟩
    rw [List.countP_cons]
    rcases spends with ⟨hev, hlt⟩ | ⟨hev, hsame, _⟩
    · rw [if_pos hev]
      omega
    · rw [if_neg (by rw [hev]; exact Bool.noConfusion)]
      omega
termination_by (e.unspent, e.ready.length)
decreasing_by
  rcases spends with ⟨_, hlt⟩ | ⟨_, hsame, hlt⟩
  · exact Prod.Lex.left _ _ (by omega)
  · rw [hsame]
    exact Prod.Lex.right _ hlt

end

/-- **`run_until_idle` terminates.**  From every state of the executor, whatever each future returns
at each poll and whichever tasks it wakes there, the loop ends with an empty queue, after no more
polls than the live tasks have units of budget left. -/
theorem runUntilIdle_returns (future : List Event → TaskId → Poll × List TaskId) (e : Executor) :
    ∃ n tr e', (∀ fuel ≥ n, runUntilIdle future fuel [] e = some (tr, e')) ∧ e'.ready = [] ∧
      tr.countP Event.polls ≤ e.unspent := by
  obtain ⟨tr, e', ⟨n, hn⟩, idle, polls⟩ := exists_returns future [] e
  exact ⟨n, tr, e', hn, idle, polls⟩

/-- Two tasks that never complete and wake each other and themselves at every poll. -/
example : ∃ r, runUntilIdle (fun _ _ => (.pending, [1, 2])) 20 []
    ((Executor.new.spawn ⟨1, Budget.new 2 9⟩).spawn ⟨2, Budget.new 1 9⟩) = some r ∧
    r.1.countP Event.polls = 3 ∧ r.1.length = 8 :=
  ⟨_, rfl, by decide, by decide⟩

end Executor

end Praesidium
