import Mathlib.Data.Fintype.Basic
import Praesidium.CapCore.Linear
import Praesidium.CapCore.Origin

/-!
Systems of capability spaces.

A finite family of spaces, of any sizes, acted on one call or one grant at a time.  A
grant borrows two different spaces mutably.  `SysEffect` says once what a step that
returned a value did; a step that refused did nothing (`sysStep_spec`).

Every live record after a step was there, came about by a call on its space, or was
granted from another one (`sysEffect_origin`).
-/

namespace Praesidium

open Fallible CSpace

variable {ι : Type} [DecidableEq ι] {size : ι → Nat}

abbrev System (size : ι → Nat) : Type := (i : ι) → CSpace (size i)

inductive SysAction (ι : Type) where
  | call (i : ι) (c : Call)
  | grant (i j : ι) (srcSlot dstSlot : Nat) (newRights : Rights) (badge : U64) (mode : GrantMode)
  deriving DecidableEq, Repr

structure SysEvent (ι : Type) where
  act : SysAction ι
  ret : Except CapError (Option U64)

def SysAction.exec (s : System size) : SysAction ι →
    Option (Except CapError (Option U64) × System size)
  | .call i c => (returned (c.exec (s i))).map fun r => (r.1, Function.update s i r.2)
  | .grant i j srcSlot dstSlot newRights badge mode =>
    if i = j then none
    else (returned (Praesidium.grant srcSlot dstSlot newRights badge mode (s i, s j))).map fun r =>
      (r.1.map fun _ => none, Function.update (Function.update s i r.2.1) j r.2.2)

def SysStep (s : System size) (ev : SysEvent ι) (s' : System size) : Prop :=
  ev.act.exec s = some (ev.ret, s')

/-- The step an action takes, unless it traps. -/
def sysNext (s : System size) (a : SysAction ι) : Option (SysEvent ι × System size) :=
  (a.exec s).map fun r => (⟨a, r.1⟩, r.2)

theorem step_of_sysNext (s : System size) (a : SysAction ι) (ev : SysEvent ι) (s' : System size)
    (h : sysNext s a = some (ev, s')) : SysStep s ev s' := by
  obtain ⟨r, hr, he⟩ := Option.map_eq_some_iff.mp h
  cases he
  exact hr

/-- The effect of an action that returned a value. -/
inductive SysEffect (s : System size) : SysAction ι → Option U64 → System size → Prop
  | call {i c v cs'} : c.exec (s i) = .ok v cs' → CallEffect (s i) c v cs' →
      SysEffect s (.call i c) v (Function.update s i cs')
  | grant {i j srcSlot dstSlot newRights badge mode a' b'} : i ≠ j →
      Granted (s i) srcSlot (s j) dstSlot newRights badge mode a' b' →
      SysEffect s (.grant i j srcSlot dstSlot newRights badge mode) none
      (Function.update (Function.update s i a') j b')

variable {s s' : System size} {i j : ι} {a : SysAction ι} {v : Option U64}

/-- **Steps, from any state.** -/
theorem sysStep_spec {ev : SysEvent ι} (h : SysStep s ev s') :
    (∃ v, ev.ret = .ok v ∧ SysEffect s ev.act v s') ∨ (∃ e, ev.ret = .error e ∧ s' = s) := by
  obtain ⟨act, ret⟩ := ev
  cases act with
  | call i c =>
    obtain ⟨⟨_, cs'⟩, hr, he⟩ := Option.map_eq_some_iff.mp h
    cases he
    cases ret with
    | ok v =>
      have hok := (returned_eq_ok _ v cs').mp hr
      exact Or.inl ⟨v, rfl, .call hok ((call_spec c (s i)).ok hok)⟩
    | error e =>
      rcases (call_spec c (s i)).error ((returned_eq_error _ e cs').mp hr) with hf | hf | hf
      · refine Or.inr ⟨e, rfl, ?_⟩
        show Function.update s i cs' = s
        rw [hf.2, Function.update_eq_self]
      · cases hf
      · cases hf.1
  | grant i j srcSlot dstSlot newRights badge mode =>
    by_cases hij : i = j
    · have hexec : (none : Option (Except CapError (Option U64) × System size)) =
        some (ret, s') := by
        rw [← h]
        exact (if_pos hij).symm
      cases hexec
    · have hexec : (returned (Praesidium.grant srcSlot dstSlot newRights badge mode (s i, s j))).map
        (fun r => (r.1.map fun _ => none, Function.update (Function.update s i r.2.1) j r.2.2)) =
          some (ret, s') := by
        rw [← h]
        exact (if_neg hij).symm
      rcases returned_map _ (fun p : CSpace (size i) × CSpace (size j) =>
        Function.update (Function.update s i p.1) j p.2) ret s' hexec with
        ⟨rfl, _, p, hr, rfl⟩ | ⟨e, p, rfl, hr, rfl⟩
      · exact Or.inl ⟨none, rfl, .grant hij ((grant_spec _ _ _ _ _ _ _).ok hr)⟩
      · refine Or.inr ⟨e, rfl, ?_⟩
        rw [((grant_spec _ _ _ _ _ _ _).error hr).2]
        show Function.update (Function.update s i (s i)) j (s j) = s
        rw [Function.update_eq_self, Function.update_eq_self]

/-! ## The spaces after a step -/

theorem update_two_left (s : System size) (hij : i ≠ j) (a : CSpace (size i))
    (b : CSpace (size j)) : Function.update (Function.update s i a) j b i = a := by
  rw [Function.update_of_ne hij, Function.update_self]

theorem update_two_right (s : System size) (a : CSpace (size i)) (b : CSpace (size j)) :
    Function.update (Function.update s i a) j b j = b :=
  Function.update_self _ _ _

theorem update_two_other (s : System size) {k : ι} (a : CSpace (size i)) (b : CSpace (size j))
    (hi : k ≠ i) (hj : k ≠ j) : Function.update (Function.update s i a) j b k = s k := by
  rw [Function.update_of_ne hj, Function.update_of_ne hi]

/-- The effect of a step on each of the spaces. -/
theorem SysEffect.local_effect (h : SysEffect s a v s') (i : ι) :
    s' i = s i ∨ ∃ act v', Effect (s i) act v' (s' i) := by
  cases h with
  | @call k c v cs' hexec he =>
    by_cases e : i = k
    · subst e
      rw [Function.update_self]
      exact Or.inr ⟨_, _, .call hexec he⟩
    · exact Or.inl (Function.update_of_ne e _ _)
  | @grant k j _ _ _ _ _ a' b' hkj hg =>
    by_cases hj : i = j
    · subst hj
      rw [update_two_right]
      exact Or.inr ⟨_, _, .grantIn hg⟩
    · by_cases hk : i = k
      · subst hk
        rw [update_two_left s hkj]
        exact Or.inr ⟨_, _, .grantOut hg⟩
      · exact Or.inl (update_two_other s a' b' hk hj)

/-! ## Where records come from -/

/-- The entry `e` of space `i`, live after action `a` on `s`, by where it came from. -/
inductive SysOrigin (s : System size) (i : ι) : SysAction ι → Cte → Prop
  | kept {a d} : (s i).Live d → SysOrigin s i a ((s i).slot d)
  | call {c e} : Origin (s i) c e → SysOrigin s i (.call i c) e
  | granted {j srcSlot dstSlot newRights badge mode} : (s j).Live srcSlot →
      ((s j).slot srcSlot).cap.rights.contains Rights.GRANT = true →
      newRights.subsetOf ((s j).slot srcSlot).cap.rights = true →
      SysOrigin s i (.grant j i srcSlot dstSlot newRights badge mode)
        ⟨{ ((s j).slot srcSlot).cap with rights := newRights, badge := badge }, NIL⟩

/-- **Every live record of a system has an origin.** -/
theorem sysEffect_origin (h : SysEffect s a v s') (i : ι) (d : Nat) (hd : (s' i).Live d) :
    SysOrigin s i a ((s' i).slot d) := by
  cases h with
  | @call k c v cs' hexec he =>
    by_cases e : i = k
    · subst e
      rw [Function.update_self] at hd ⊢
      exact .call (call_origin he d hd)
    · rw [Function.update_of_ne e] at hd ⊢
      exact .kept hd
  | @grant k j srcSlot dstSlot newRights badge mode a' b' hkj hg =>
    by_cases hj : i = j
    · subst hj
      rw [update_two_right, hg.dst] at hd ⊢
      unfold CSpace.Live at hd
      rw [slot_put _ dstSlot d _ hg.inRange] at hd ⊢
      by_cases e : d = dstSlot
      · rw [if_pos e]
        exact .granted hg.live hg.grantable hg.narrowed
      · rw [if_neg e] at hd ⊢
        exact .kept hd
    · by_cases hk : i = k
      · subst hk
        rw [update_two_left s hkj, hg.src] at hd ⊢
        by_cases hm : mode = .move
        · rw [if_pos hm] at hd ⊢
          unfold CSpace.Live at hd
          rw [slot_put _ srcSlot d _ hg.live.lt] at hd ⊢
          by_cases e : d = srcSlot
          · rw [if_pos e] at hd
            cases hd
          · rw [if_neg e] at hd ⊢
            exact .kept hd
        · rw [if_neg hm] at hd ⊢
          exact .kept hd
      · rw [update_two_other s a' b' hk hj] at hd ⊢
        exact .kept hd

/-- The parties of the smallest systems. -/
inductive Party where
  | owner
  | peer
  deriving DecidableEq, Repr

instance : Fintype Party := ⟨{.owner, .peer}, fun i => by cases i <;> decide⟩

/-! ## Sums over a system -/

variable [Fintype ι]

/-- The sum of a weight over all spaces. -/
def total (w : RawCap → Nat) (s : System size) : Nat := ∑ i, (s i).weigh w

theorem total_update (w : RawCap → Nat) (s : System size) (i : ι) (cs' : CSpace (size i)) :
    total w (Function.update s i cs') + (s i).weigh w = total w s + cs'.weigh w := by
  have h := Tally.sum_change_one Finset.univ (fun k => (s k).weigh w)
    (fun k => (Function.update s i cs' k).weigh w) i (Finset.mem_univ i) (fun k _ hk => by
      show (Function.update s i cs' k).weigh w = (s k).weigh w
      rw [Function.update_of_ne hk])
  simp only [Function.update_self] at h
  exact h

/-- **Steps and linear quantities.** -/
theorem sysEffect_total (W : Weight) (h : SysEffect s a v s') :
    (∃ i c cs', a = .call i c ∧ s' = Function.update s i cs' ∧ CallEffect (s i) c v cs' ∧
      total W.w s' + (s i).weigh W.w = total W.w s + cs'.weigh W.w) ∨
    (∃ i j srcSlot dstSlot newRights badge mode, a = .grant i j srcSlot dstSlot newRights
      badge mode ∧
      total W.w s' = total W.w s) := by
  cases h with
  | @call i c v cs' _ he => exact Or.inl ⟨i, c, cs', rfl, rfl, he, total_update W.w s i cs'⟩
  | @grant i j srcSlot dstSlot newRights badge mode a' b' hij hg =>
    refine Or.inr ⟨i, j, srcSlot, dstSlot, newRights, badge, mode, rfl, ?_⟩
    have h1 := total_update W.w s i a'
    have h2 := total_update W.w (Function.update s i a') j b'
    rw [Function.update_of_ne (Ne.symm hij)] at h2
    have h3 := grant_weigh W hg
    omega

end Praesidium
