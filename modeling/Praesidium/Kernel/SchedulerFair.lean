import Praesidium.Kernel.Scheduler

/-!
Bounded waiting of the round robin (`kernel/src/sched/scheduler.rs`).

`gap s j` is how far `pick_next` has to go from the current task to reach task `j`.  While `j` may
run and does not, nothing takes that away from it, every pick brings the current task closer to
`j`, and a spawned task can stand between the two only once:

    picks + gap at the end ≤ gap at the start + spawns      (Waited)

so `j` has run by the time as many picks were made as there are other tasks (`bounded_waiting`).
-/

namespace Praesidium

namespace Scheduler

/-- The steps in which the kernel picks the next task. -/
def Event.picks : Event → Bool
  | .yield | .tick | .exit | .parked => true
  | _ => false

def Event.spawns : Event → Bool
  | .spawn .. => true
  | _ => false

/-- The number of tasks `pick_next` looks at until it comes to task `j`. -/
def gap (s : Scheduler) (j : Nat) : Nat :=
  if s.current < j then j - s.current else j + s.tasks.length - s.current

section

variable {s u : Scheduler} {tr : List Event} {ev : Event} {j : Nat}

variable {next : Nat}

/-- The first task that may run, counted from the current one. -/
theorem pickNext_first (h : s.pickNext = some next) :
    ∃ step, 0 < step ∧ next = (s.current + step) % s.tasks.length ∧
      ∀ k, 0 < k → k < step → s.eligible ((s.current + k) % s.tasks.length) = false := by
  obtain ⟨_, i, hi, hnext, before⟩ := List.find?_eq_some_iff_getElem.mp h
  rw [List.getElem_map, List.getElem_range'] at hnext
  refine ⟨i + 1, Nat.succ_pos i, ?_, fun k hk hlt => ?_⟩
  · rw [← hnext]
    congr 1
    omega
  · have earlier := before (k - 1) (by omega)
    rw [List.getElem_map, List.getElem_range', show 1 + 1 * (k - 1) = k by omega] at earlier
    simpa using earlier

/-- **A pick comes closer** to every task that may run. -/
theorem pickNext_gap (hcur : s.current < s.tasks.length) (hj : s.eligible j = true)
    (hne : s.current ≠ j) (h : s.pickNext = some next) (hother : next ≠ j) :
    next < s.tasks.length ∧ gap { s with current := next } j + 1 ≤ gap s j := by
  have hlt := eligible_lt hj
  obtain ⟨step, hpos, hnext, skipped⟩ := pickNext_first h
  have reach : (s.current + gap s j) % s.tasks.length = j := by
    unfold gap
    split
    · rw [show s.current + (j - s.current) = j by omega]
      exact Nat.mod_eq_of_lt hlt
    · rw [show s.current + (j + s.tasks.length - s.current) =
        j + s.tasks.length by omega, Nat.add_mod_right]
      exact Nat.mod_eq_of_lt hlt
  have bound : 0 < gap s j ∧ gap s j < s.tasks.length := by
    unfold gap
    split
    · omega
    · omega
  -- task `j` would have been taken where it is looked at
  have within : step ≤ gap s j := by
    by_contra hc
    have := skipped (gap s j) bound.1 (by omega)
    rw [reach, hj] at this
    cases this
  have next_lt : next < s.tasks.length := by
    rw [hnext]
    exact Nat.mod_lt _ (by omega)
  refine ⟨next_lt, ?_⟩
  have wrap : next = if s.current + step < s.tasks.length then s.current + step else s.current +
    step - s.tasks.length := by
    rw [hnext]
    split
    · next hin => exact Nat.mod_eq_of_lt hin
    · next hout =>
      rw [Nat.mod_eq_sub_mod (by omega)]
      exact Nat.mod_eq_of_lt (by omega)
  unfold gap at within ⊢
  dsimp only
  split at wrap <;> split at within <;> split <;> omega

/-- A task that is not the current one keeps what makes it eligible. -/
theorem eligible_modify {k : Nat} {f : Task → Task} (hk : k ≠ j) :
    Scheduler.eligible { s with tasks := s.tasks.modify k f } j = s.eligible j := by
  unfold eligible
  show Option.any _ (List.modify ..)[j]? = _
  rw [List.getElem?_modify_ne _ _ hk]

theorem gap_congr (htasks : u.tasks.length = s.tasks.length) (hcur : u.current = s.current) :
    gap u j = gap s j := by
  unfold gap
  rw [htasks, hcur]

/-! ## A task that waits -/

/-- Task `j` may run, another one runs. -/
structure Waits (s : Scheduler) (j : Nat) : Prop where
  current : s.current < s.tasks.length
  eligible : s.eligible j = true
  other : s.current ≠ j

/-- What a step does to a task that goes on waiting. -/
structure Passed (s : Scheduler) (ev : Event) (u : Scheduler) (j : Nat) : Prop where
  waits : Waits u j
  tasks : u.tasks.length = s.tasks.length + if ev.spawns = true then 1 else 0
  gap : gap u j + (if ev.picks = true then 1 else 0) ≤ gap s j + if ev.spawns = true then 1 else 0

namespace Waits

/-- `schedule` leaves the current task, since `j` comes before it. -/
theorem schedule_eq (h : Waits s j) :
    ∃ next, s.pickNext = some next ∧ s.schedule = { s with current := next } := by
  obtain ⟨next, hn⟩ := pickNext_isSome h.eligible
  refine ⟨next, hn, ?_⟩
  unfold Scheduler.schedule
  rw [hn]
  dsimp only
  split
  · rfl
  · next heq => rw [Decidable.not_not.mp heq]

theorem handOff_eq (h : Waits s j) :
    ∃ next, s.pickNext = some next ∧ s.handOff = { s with current := next } := by
  obtain ⟨next, hn⟩ := pickNext_isSome h.eligible
  refine ⟨next, hn, ?_⟩
  unfold Scheduler.handOff
  rw [hn]

/-- The current task is changed, and then another one is picked. -/
theorem modified (h : Waits s j) {f : Task → Task} :
    Waits { s with tasks := s.tasks.modify s.current f } j where
  current := by simpa using h.current
  eligible := (eligible_modify h.other).trans h.eligible
  other := h.other

theorem passed_pick {v : Scheduler} (h : Waits v j) (hlen : v.tasks.length = s.tasks.length)
    (hcur : v.current = s.current) {next : Nat} (hn : v.pickNext = some next)
    (hu : u = { v with current := next }) (hother : u.current ≠ j) (hp : ev.picks = true)
    (hs : ev.spawns = false) : Passed s ev u j := by
  subst hu
  obtain ⟨hlt, closer⟩ := pickNext_gap h.current h.eligible h.other hn hother
  refine ⟨⟨hlt, h.eligible, hother⟩, ?_, ?_⟩
  · rw [hs]
    exact hlen
  · rw [hs, hp, ← gap_congr hlen hcur]
    exact closer

theorem spawned (h : Waits s j) (block : U64) (budget : Budget) (procId : Option Nat)
    (space : AddressSpace) :
    Passed s (.spawn block budget procId space) (s.spawnInner block budget procId space) j := by
  have len : (s.spawnInner block budget procId space).tasks.length = s.tasks.length + 1 := by
    unfold spawnInner
    rw [List.length_append, List.length_singleton]
  have hcur := h.current
  refine ⟨⟨?_, ?_, h.other⟩, len, ?_⟩
  · rw [len]
    exact Nat.lt_succ_of_lt hcur
  · have := h.eligible
    unfold Scheduler.eligible spawnInner at *
    rw [List.getElem?_append_left (eligible_lt h.eligible)]
    exact this
  · show Scheduler.gap _ j + 0 ≤ Scheduler.gap s j + 1
    have same : (s.spawnInner block budget procId space).current = s.current := rfl
    unfold Scheduler.gap
    rw [len, same]
    split <;> omega

theorem reaped (h : Waits s j) (procId : Nat) (freed : Option (Option U64 × AddressSpace)) :
    Passed s (.reap procId freed) (s.reapFinished procId).2 j := by
  unfold reapFinished
  split
  · exact ⟨h, rfl, Nat.le_refl _⟩
  · next k hk =>
    obtain ⟨t, ht, hp⟩ := rposition_some hk
    have dead : k ≠ j := by
      rintro rfl
      obtain ⟨t', ht', hst, _⟩ := eligible_iff.mp h.eligible
      rw [ht'] at ht
      cases ht
      rw [hst] at hp
      simp at hp
    refine ⟨⟨?_, (eligible_modify dead).trans h.eligible, h.other⟩, List.length_modify .., ?_⟩
    · simpa using h.current
    · exact Nat.le_of_eq (gap_congr (List.length_modify ..) rfl)

/-- **One step** of a task that goes on waiting. -/
theorem step (h : Waits s j) (hstep : Step s ev u) (hother : u.current ≠ j) : Passed s ev u j := by
  cases ev with
  | spawn block budget procId space =>
    obtain ⟨_, rfl⟩ := hstep
    exact h.spawned block budget procId space
  | yield =>
    obtain ⟨_, rfl⟩ := hstep
    obtain ⟨next, hn, hu⟩ := h.schedule_eq
    exact h.passed_pick rfl rfl hn hu hother rfl rfl
  | tick =>
    cases hstep
    have charged : Waits s.charge j := h.modified
    -- `j` itself is another task that may run, so the tick preempts
    have preempts : s.tick = s.charge.schedule := by
      unfold tick onTick
      exact if_pos (decide_eq_true (runnableBesides_pos.mpr ⟨j, Ne.symm h.other, charged.eligible⟩))
    obtain ⟨next, hn, hu⟩ := charged.schedule_eq
    exact charged.passed_pick (List.length_modify ..) rfl hn (preempts.trans hu) hother rfl rfl
  | exit =>
    obtain ⟨_, rfl⟩ := hstep
    have finished : Waits s.finish j := h.modified
    obtain ⟨next, hn, hu⟩ := finished.handOff_eq
    exact finished.passed_pick (List.length_modify ..) rfl hn hu hother rfl rfl
  | parked =>
    obtain ⟨_, rfl⟩ := hstep
    obtain ⟨next, hn, hu⟩ := h.handOff_eq
    exact h.passed_pick rfl rfl hn hu hother rfl rfl
  | reap procId freed =>
    have passed := h.reaped procId freed
    rw [hstep.2] at passed
    exact passed

end Waits

/-! ## Over a run -/

/-- What has happened since `s` while task `j` waited. -/
structure Waited (s : Scheduler) (j : Nat) (tr : List Event) (t : Scheduler) : Prop where
  waits : Waits t j
  tasks : t.tasks.length = s.tasks.length + tr.countP Event.spawns
  gap : gap t j + tr.countP Event.picks ≤ gap s j + tr.countP Event.spawns

theorem Waited.step {v : Scheduler} (h : Waited s j tr u) (hstep : Step u ev v)
    (hother : v.current ≠ j) : Waited s j (tr ++ [ev]) v := by
  have passed := h.waits.step hstep hother
  have tasks := h.tasks
  have gap := h.gap
  have tasks' := passed.tasks
  have gap' := passed.gap
  refine ⟨passed.waits, ?_, ?_⟩
  · rw [List.countP_append, List.countP_singleton]
    omega
  · rw [List.countP_append, List.countP_append, List.countP_singleton, List.countP_singleton]
    omega

/-- A task that never got the CPU was passed over fewer times than there are other tasks. -/
theorem Waited.bound (h : Waited s j tr u) (hs : Waits s j) :
    tr.countP Event.picks + 2 ≤ u.tasks.length := by
  have start : Scheduler.gap s j + 1 ≤ s.tasks.length := by
    have := hs.current
    have := hs.other
    have := eligible_lt hs.eligible
    unfold Scheduler.gap
    split <;> omega
  have left : 1 ≤ Scheduler.gap u j := by
    have := h.waits.current
    have := h.waits.other
    unfold Scheduler.gap
    split <;> omega
  have tasks := h.tasks
  have gap := h.gap
  omega

theorem current_lt_step (h : s.current < s.tasks.length) (hstep : Step s ev u) :
    u.current < u.tasks.length := by
  have handed : ∀ v : Scheduler, v.current < v.tasks.length →
    v.handOff.current < v.handOff.tasks.length := by
    intro v hv
    unfold handOff
    split
    · next next hn => exact eligible_lt (s := v) (pickNext_some hn)
    · exact hv
  have scheduled : ∀ v : Scheduler, v.current < v.tasks.length →
    v.schedule.current < v.schedule.tasks.length := by
    intro v hv
    unfold schedule
    split
    · next next hn =>
      split
      · exact eligible_lt (s := v) (pickNext_some hn)
      · exact hv
    · exact hv
  have modified : ∀ f : Task → Task, s.current < (s.tasks.modify s.current f).length := fun f => by
    simpa using h
  cases ev with
  | spawn =>
    obtain ⟨_, rfl⟩ := hstep
    unfold spawnInner
    rw [List.length_append]
    exact Nat.lt_add_right _ h
  | yield =>
    obtain ⟨_, rfl⟩ := hstep
    exact scheduled s h
  | tick =>
    cases hstep
    unfold tick
    split
    · exact scheduled _ (modified _)
    · exact modified _
  | exit =>
    obtain ⟨_, rfl⟩ := hstep
    exact handed _ (modified _)
  | parked =>
    obtain ⟨_, rfl⟩ := hstep
    exact handed s h
  | reap procId =>
    obtain ⟨_, hu⟩ := hstep
    rw [← show (s.reapFinished procId).2 = u from congrArg Prod.snd hu]
    unfold reapFinished
    split
    · exact h
    · simpa using h

/-- **The CPU comes round.**  A task that may run has had the CPU in every run in which the kernel
has picked a task (in a tick, a yield or an exit) at least as often as there are other tasks. -/
theorem bounded_waiting {kernelSpace : AddressSpace} {before tr : List Event} {s t : Scheduler}
    {j : Nat} (h0 : Run Step (bootstrap kernelSpace) before s) (hj : s.eligible j = true)
    (h : Run Step s tr t) (hpicks : t.tasks.length ≤ tr.countP Event.picks + 1) :
    ∃ tr₁ tr₂ u, tr = tr₁ ++ tr₂ ∧ Run Step s tr₁ u ∧ Run Step u tr₂ t ∧ u.current = j := by
  have hcur : s.current < s.tasks.length :=
    h0.inv (fun s => s.current < s.tasks.length) Nat.one_pos fun _ _ _ hs hstep =>
    current_lt_step hs hstep
  by_cases hsj : s.current = j
  · exact ⟨[], tr, s, rfl, .nil s, h, hsj⟩
  have waits : Waits s j := ⟨hcur, hj, hsj⟩
  -- either `j` came up, or it has waited throughout
  have main : (∃ tr₁ tr₂ u, tr = tr₁ ++ tr₂ ∧ Run Step s tr₁ u ∧ Run Step u tr₂ t ∧ u.current = j) ∨
    Waited s j tr t := by
    clear hpicks
    induction h with
    | nil => exact .inr ⟨waits, rfl, Nat.le_refl _⟩
    | @snoc u v tr a hrun hstep ih =>
      obtain ⟨tr₁, tr₂, w, rfl, h1, h2, hw⟩ | waited := ih
      · exact .inl ⟨tr₁, tr₂ ++ [a], w, List.append_assoc .., h1, .snoc h2 hstep, hw⟩
      · by_cases hv : v.current = j
        · exact .inl ⟨tr ++ [a], [], v, (List.append_nil _).symm, .snoc hrun hstep, .nil v, hv⟩
        · exact .inr (waited.step hstep hv)
  obtain found | waited := main
  · exact found
  · have := waited.bound waits
    omega

/-- Of three tasks the last one spawned runs at the second tick. -/
theorem bounded_waiting_three :
    ∃ s t, s.eligible 2 = true ∧ s.current = 0 ∧ Run Step s [.tick, .tick] t ∧ t.tasks.length = 3 ∧
      ∃ tr₁ tr₂ u, [.tick, .tick] = tr₁ ++ tr₂ ∧ Run Step s tr₁ u ∧ Run Step u tr₂ t ∧
        u.current = 2 := by
  have spawn : ∀ {s : Scheduler} (block : U64), s.isCurrent .runnable →
      Step s (.spawn block (Budget.new 5 10) none ⟨0, 0⟩) (s.spawnInner block (Budget.new 5 10) none
      ⟨0, 0⟩) := fun _ hs => ⟨hs, rfl⟩
  have tick : ∀ s : Scheduler, Step s .tick s.tick := fun _ => rfl
  have start := Run.cons (spawn (s := bootstrap ⟨0, 0⟩) 0x8000 ⟨_, rfl, rfl⟩)
    (Run.cons (spawn 0x10000 ⟨_, rfl, rfl⟩) (.nil _))
  have ticks : ∀ s : Scheduler, Run Step s [.tick, .tick] s.tick.tick :=
    fun s => .cons (tick s) (.cons (tick _) (.nil _))
  exact ⟨_,
    _, by decide, rfl, ticks _, by decide, bounded_waiting start (by decide) (ticks _) (by decide)⟩

end

end Scheduler

end Praesidium
