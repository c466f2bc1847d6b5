import Mathlib.Algebra.BigOperators.Group.Finset.Piecewise
import Praesidium.CapCore.MdbRun

/-!
REVOKE and DELETE on reachable states, in the terms of the table alone.

`Below d c` is proper descent along the parent links of the table and `budgetBelow c`
the capacity of all `Sched` records below `c`.  On every reachable state `revoke c`
empties exactly the slots below `c`, and `delete c` those and `c` (`revoke_exact`).

The subtree's budget ends up in `c`, as far as one record can hold it.  So CPU time is
conserved exactly when it fits (`revoke_conserves_iff`), which `delegate` can prevent:
two roots of `2^32 - 1` units, one unit split off the first and one delegated to it
from the second, and `revoke` of the first drops a unit (`revoke_loses_budget`).
-/

namespace Praesidium

open Fallible CSpace

namespace CSpace

variable {N : Nat} {cs t : CSpace N} {F : Forest Nat}

/-! ## Descent in the table -/

/-- Slot `d` is a proper descendant of slot `c` along parent links. -/
def Below (cs : CSpace N) (d c : Nat) : Prop :=
  Relation.TransGen (fun x p => (cs.slot x).parent = some p) d c

theorem below_iff (h : Tree cs.slot F) (d c : Nat) : cs.Below d c ↔ F.Desc d c := by
  unfold Below Forest.Desc
  rw [show F.par = fun x => (cs.slot x).parent from funext h.par]

open Classical in
/-- The capacity of all `Sched` records below `c`. -/
noncomputable def budgetBelow (cs : CSpace N) (c : Nat) : Nat :=
  ∑ d ∈ Finset.range N, if cs.Below d c then schedSize (cs.slot d).cap else 0

theorem budgetBelow_le (cs : CSpace N) (c : Nat) : cs.budgetBelow c ≤ cs.weigh schedSize := by
  unfold budgetBelow weigh
  refine Finset.sum_le_sum fun d _ => ?_
  split
  · exact le_refl _
  · exact Nat.zero_le _

theorem subtreeBudget_eq (h : Tree cs.slot F) (c : Nat) (hc : c < N) :
    cs.subtreeBudget F c = schedSize (cs.slot c).cap + cs.budgetBelow c := by
  classical
  have hself : ∑ d ∈ Finset.range N, (if d = c then schedSize (cs.slot d).cap else 0) =
    schedSize (cs.slot c).cap := by
    rw [Finset.sum_ite_eq' (Finset.range N) c fun d => schedSize (cs.slot d).cap,
      if_pos (Finset.mem_range.mpr hc)]
  unfold subtreeBudget budgetBelow
  rw [← hself, ← Finset.sum_add_distrib]
  refine Finset.sum_congr rfl (fun d _ => ?_)
  rw [below_iff h d c]
  by_cases e : d = c
  · have hirr : ¬ F.Desc d c := fun hd => F.desc_irrefl c (e ▸ hd)
    rw [if_pos (Or.inl e), if_pos e, if_neg hirr, Nat.add_zero]
  · by_cases hd : F.Desc d c
    · rw [if_pos (Or.inr hd), if_neg e, if_pos hd, Nat.zero_add]
    · rw [if_neg (fun h' => h'.elim e hd), if_neg e, if_neg hd]

/-! ## The record REVOKE leaves at `c` -/

/-- What `revoke` makes of the record of `c`. -/
noncomputable def revokedCap (cs : CSpace N) (c : Nat) : RawCap :=
  { (cs.slot c).cap with
    watermark := if (cs.slot c).cap.capType = .untyped then 0 else (cs.slot c).cap.watermark
    size := if (cs.slot c).cap.capType = .sched
      then BitVec.ofNat 32 (min (2 ^ 32 - 1) ((cs.slot c).cap.size.toNat + cs.budgetBelow c))
      else (cs.slot c).cap.size }

variable {c d : Nat}

theorem Pruned.slot_self (hp : Pruned cs F c t) (h : Tree cs.slot F) (hc : c < N) :
    (t.reclaimed c).slot c = ⟨cs.revokedCap c, (cs.slot c).parent⟩ := by
  obtain ⟨size, hslot, hsize⟩ := hp.self
  have hsize' : size = if (cs.slot c).cap.capType = .sched
      then BitVec.ofNat 32 (min (2 ^ 32 - 1) ((cs.slot c).cap.size.toNat + cs.budgetBelow c))
      else (cs.slot c).cap.size := by
    apply BitVec.eq_of_toNat_eq
    rw [hsize]
    by_cases hs : (cs.slot c).cap.capType = .sched
    · have hself : schedSize (cs.slot c).cap = (cs.slot c).cap.size.toNat := if_pos hs
      rw [if_pos hs, if_pos hs, subtreeBudget_eq h c hc, hself, BitVec.toNat_ofNat,
        Nat.mod_eq_of_lt (by omega)]
    · rw [if_neg hs, if_neg hs]
  rw [slot_reclaimed t c c hc, hslot, hsize']
  unfold revokedCap
  by_cases hu : (cs.slot c).cap.capType = .untyped
  · simp [hu]
  · simp [hu]

theorem Pruned.slot_other (hp : Pruned cs F c t) (hc : c < N) (hd : d ≠ c) (hdc : ¬ F.Desc d c) :
    (t.reclaimed c).slot d = cs.slot d := by
  rw [slot_reclaimed t c d hc, if_neg (fun h => hd h.1), hp.kept d hd hdc]

theorem Pruned.dead_iff (hp : Pruned cs F c t) (h : Tree cs.slot F) (hl : cs.Live c) (d : Nat) :
    ¬ (t.reclaimed c).Live d ↔ ¬ cs.Live d ∨ F.Desc d c := by
  have hlive := (hp.tree_reclaimed h hl).live d
  change (F.live d ∧ ¬ F.Desc d c) ↔ (t.reclaimed c).Live d at hlive
  have hlive' : F.live d ↔ cs.Live d := h.live d
  rw [← hlive, ← hlive', not_and_or, not_not]

/-- What a REVOKE of `k` leaves was not below `k`. -/
theorem revoke_survivor {k : Nat} {v : Option U64} (h : Tree cs.slot F)
    (hexec : (Call.revoke k).exec cs = .ok v t) :
    cs.Live k ∧ ∀ d, t.Live d → cs.Live d ∧ ¬ cs.Below d k ∧
      (t.slot d).cap.capType = (cs.slot d).cap.capType ∧ (d ≠ k → t.slot d = cs.slot d) := by
  obtain ⟨hl, u, hu, rfl⟩ := revoke_pruned h hexec
  refine ⟨hl, fun d hd => ?_⟩
  have hdead := hu.dead_iff h hl d
  have hnot : ¬ F.Desc d k := fun hdesc => hdead.mpr (Or.inr hdesc) hd
  refine ⟨Classical.byContradiction fun hn => hdead.mpr (Or.inl hn) hd, ?_, ?_, fun e =>
    hu.slot_other hl.lt e hnot⟩
  · rw [below_iff h]
    exact hnot
  · by_cases e : d = k
    · rw [e, hu.slot_self h hl.lt]; rfl
    · rw [hu.slot_other hl.lt e hnot]

theorem nextObj_reclaimed (c : Nat) : (cs.reclaimed c).nextObj = cs.nextObj := by
  unfold reclaimed
  split <;> rfl

/-- DELETE destroys `c` in the space REVOKE leaves. -/
theorem delete_of_revoke (h : Tree cs.slot F) (hl : cs.Live c)
    (hrev : CSpace.revoke c cs = .ok () (t.reclaimed c)) (hp : Pruned cs F c t) :
    Ends (CSpace.delete c) cs (fun _ t' => Destroyed (t.reclaimed c) c t') (fun _ _ => False) := by
  unfold CSpace.delete
  rw [ends_bind]
  show Ends (CSpace.revoke c) cs (fun _ s => Ends (destroySlot c) s _ _) _
  unfold Ends
  rw [hrev]
  exact destroySlot_tree (hp.tree_reclaimed h hl) c
    ((live_reclaimed t c c hl.lt).mpr (hp.live_self hl))

/-- The slots next to `c` after DELETE: a `Sched` parent is credited, the rest is kept. -/
theorem Destroyed.slot_other {u t' : CSpace N} (hd : Destroyed (u.reclaimed c) c t')
    (hu : Pruned cs F c u) (h : Tree cs.slot F) (hl : cs.Live c) (hdc : d ≠ c) :
    t'.slot d =
      if (cs.slot c).cap.capType = .sched ∧ (cs.slot c).parent = some d ∧
        (cs.slot d).cap.capType = .sched then
        { (u.reclaimed c).slot d with cap := { ((u.reclaimed c).slot d).cap with
          size := BitVec.ofNat 32 (min (2 ^ 32 - 1)
            (((u.reclaimed c).slot d).cap.size.toNat + ((u.reclaimed c).slot c).cap.size.toNat)) } }
      else (u.reclaimed c).slot d := by
  have hself := hu.slot_self h hl.lt
  have hty : ((u.reclaimed c).slot c).cap.capType = (cs.slot c).cap.capType := by rw [hself]; rfl
  have hpar : ((u.reclaimed c).slot c).parent = (cs.slot c).parent := by rw [hself]
  have hsat : ∀ a b : U32, Word.saturatingAdd a b =
    BitVec.ofNat 32 (min (2 ^ 32 - 1) (a.toNat + b.toNat)) := by
    intro a b
    apply BitVec.eq_of_toNat_eq
    rw [Word.saturatingAdd_toNat, BitVec.toNat_ofNat, Nat.mod_eq_of_lt (by omega)]
  -- the parent of `c` is not below `c`, so it is as it was
  have hiff : (u.reclaimed c).Credits c d ↔
      (cs.slot c).cap.capType = .sched ∧ (cs.slot c).parent = some d ∧
      (cs.slot d).cap.capType = .sched := by
    unfold Credits
    rw [hty, hpar]
    constructor
    · rintro ⟨h1, h2, -, h3⟩
      have hnd : ¬ F.Desc d c :=
        fun hdd => F.desc_irrefl c ((F.desc_of_par c d (by rw [h.par c, h2])).trans hdd)
      rw [hu.slot_other hl.lt hdc hnd] at h3
      exact ⟨h1, h2, h3⟩
    · rintro ⟨h1, h2, h3⟩
      have hnd : ¬ F.Desc d c :=
        fun hdd => F.desc_irrefl c ((F.desc_of_par c d (by rw [h.par c, h2])).trans hdd)
      rw [hu.slot_other hl.lt hdc hnd]
      exact ⟨h1, h2, hdc, h3⟩
  by_cases hc : (u.reclaimed c).Credits c d
  · rw [if_pos (hiff.mp hc), hd.credit d hc, hsat]
  · rw [if_neg (fun h' => hc (hiff.mpr h')), hd.frame d hdc hc]

end CSpace

/-! ## Exactness -/

/-- **REVOKE and DELETE are exact** on every reachable state. -/
theorem revoke_exact {N : Nat} {tr : List Event} {cs : CSpace N} (hrun : Run Step CSpace.new tr cs)
    (c : Nat) (hl : cs.Live c) :
    ∃ t t' : CSpace N, CSpace.revoke c cs = .ok () t ∧ CSpace.delete c cs = .ok () t' ∧
      (∀ d, ¬ t.Live d ↔ ¬ cs.Live d ∨ cs.Below d c) ∧
      (∀ d, d ≠ c → t.Live d → t.slot d = cs.slot d) ∧
      t.slot c = ⟨cs.revokedCap c, (cs.slot c).parent⟩ ∧
      t.nextObj = cs.nextObj ∧
      t'.slot c = .EMPTY ∧
      (∀ d, d ≠ c → t'.slot d =
        if (cs.slot c).cap.capType = .sched ∧ (cs.slot c).parent = some d ∧
          (cs.slot d).cap.capType = .sched then
          { t.slot d with cap := { (t.slot d).cap with
            size :=
              BitVec.ofNat 32 (min (2 ^ 32 - 1)
              ((t.slot d).cap.size.toNat + (t.slot c).cap.size.toNat)) } }
        else t.slot d) ∧
      t'.nextObj = t.nextObj := by
  obtain ⟨F, h⟩ := reachable_tree hrun
  have hc := hl.lt
  obtain ⟨⟨⟩, t, hrev, -, u, hu, rfl⟩ :=
    ((revoke_tree c h).imp (fun _ _ ht => ht) (fun _ _ hf => hf.1 hl)).exists_ok
  obtain ⟨⟨⟩, t', hdel, hd⟩ := (delete_of_revoke h hl hrev hu).exists_ok
  refine ⟨u.reclaimed c, t', hrev, hdel, ?_, ?_, hu.slot_self h hc, ?_, hd.self, ?_, hd.nextObj⟩
  · intro d
    rw [below_iff h d c]
    exact hu.dead_iff h hl d
  · intro d hdc hld
    refine hu.slot_other hc hdc (fun hdesc => ?_)
    exact (hu.dead_iff h hl d).mpr (Or.inr hdesc) hld
  · rw [nextObj_reclaimed, hu.nextObj]
  · intro d hdc
    exact hd.slot_other hu h hl hdc

theorem revoke_exact_frameFamily :
    frameFamily.2.Live 2 ∧ ∃ t t' : CSpace 4, CSpace.revoke 2 frameFamily.2 = .ok () t ∧
      CSpace.delete 2 frameFamily.2 = .ok () t' ∧ ¬ t.Live 3 ∧ t'.slot 2 = .EMPTY := by
  have hlive : frameFamily.2.Live 2 := by decide
  have hbelow : frameFamily.2.Below 3 2 := Relation.TransGen.single (by decide)
  obtain ⟨t, t', hrev, hdel, hgone, -, -, -, hempty, -⟩ := revoke_exact frameFamily_run 2 hlive
  exact ⟨hlive, t, t', hrev, hdel, (hgone 3).mpr (Or.inr hbelow), hempty⟩

/-! ## Conservation of CPU time -/

namespace CSpace

variable {N : Nat} {cs t : CSpace N} {F : Forest Nat}

/-- In a derivation subtree all records are `Sched` or none is. -/
theorem desc_sched_iff (h : Tree cs.slot F) (d c : Nat) (hd : F.Desc d c) :
    (cs.slot d).cap.capType = .sched ↔ (cs.slot c).cap.capType = .sched := by
  induction hd with
  | single hp => exact (h.kin _ _ (by rw [← h.par, hp])).sched_iff
  | tail _ hp ih => exact ih.trans (h.kin _ _ (by rw [← h.par, hp])).sched_iff

theorem subtreeBudget_of_not_sched (h : Tree cs.slot F) (c : Nat)
    (hc : (cs.slot c).cap.capType ≠ .sched) : cs.subtreeBudget F c = 0 := by
  classical
  unfold subtreeBudget
  apply Finset.sum_eq_zero
  intro d _
  by_cases hd : d = c ∨ F.Desc d c
  · rw [if_pos hd]
    apply if_neg
    rcases hd with rfl | hd
    · exact hc
    · exact fun hs => hc ((desc_sched_iff h d c hd).mp hs)
  · exact if_neg hd

variable {c : Nat}

/-- What the table holds after the loop of `revoke`, and what the subtree held before. -/
theorem Pruned.weigh (hp : Pruned cs F c t) (hc : c < N) :
    t.weigh schedSize + cs.subtreeBudget F c = cs.weigh schedSize + schedSize (t.slot c).cap := by
  classical
  have hself : ∑ d ∈ Finset.range N, (if d = c then schedSize (t.slot d).cap else 0) =
    schedSize (t.slot c).cap := by
    rw [Finset.sum_ite_eq' (Finset.range N) c fun d => schedSize (t.slot d).cap,
      if_pos (Finset.mem_range.mpr hc)]
  unfold CSpace.weigh subtreeBudget
  rw [← hself, ← Finset.sum_add_distrib, ← Finset.sum_add_distrib]
  refine Finset.sum_congr rfl (fun d _ => ?_)
  by_cases e : d = c
  · rw [if_pos (Or.inl e), if_pos e]
    omega
  · by_cases hd : F.Desc d c
    · have hzero : schedSize (t.slot d).cap = 0 := by rw [hp.gone d hd]; rfl
      rw [if_pos (Or.inr hd), if_neg e, hzero]
      omega
    · rw [if_neg (fun h' => h'.elim e hd), if_neg e, hp.kept d e hd]

/-- REVOKE keeps of the subtree's budget what one record can hold. -/
theorem Pruned.weigh_reclaimed (hp : Pruned cs F c t) (h : Tree cs.slot F) (hc : c < N) :
    (t.reclaimed c).weigh schedSize + cs.subtreeBudget F c =
      cs.weigh schedSize + min (2 ^ 32 - 1) (cs.subtreeBudget F c) := by
  have hrec : (t.reclaimed c).weigh schedSize = t.weigh schedSize :=
    CSpace.weigh_reclaimed schedTime c hc
  rw [hrec, hp.weigh hc]
  obtain ⟨size, hslot, hsize⟩ := hp.self
  by_cases hs : (cs.slot c).cap.capType = .sched
  · have : schedSize (t.slot c).cap = size.toNat := by rw [hslot]; exact if_pos hs
    rw [this, hsize, if_pos hs]
  · have : schedSize (t.slot c).cap = 0 := by rw [hslot]; exact if_neg hs
    rw [this, subtreeBudget_of_not_sched h c hs]
    rfl

/-- DELETE moves what fits of the subtree's budget on to the parent. -/
theorem delete_weigh {p : Nat} {u t' : CSpace N} (h : Tree cs.slot F) (hl : cs.Live c)
    (hu : Pruned cs F c u) (hd : Destroyed (u.reclaimed c) c t')
    (hs : (cs.slot c).cap.capType = .sched) (hp : (cs.slot c).parent = some p)
    (hps : (cs.slot p).cap.capType = .sched) :
    t'.weigh schedSize + cs.subtreeBudget F c + schedSize (cs.slot p).cap =
      cs.weigh schedSize + min (2 ^ 32 - 1) (schedSize (cs.slot p).cap + min (2 ^ 32 - 1)
        (cs.subtreeBudget F c)) := by
  have hc := hl.lt
  have hpc : F.par c = some p := by rw [h.par c, hp]
  have hne : p ≠ c := fun e => F.par_ne_self c (e ▸ hpc)
  have hpd : ¬ F.Desc p c := fun hd => F.desc_irrefl c ((F.desc_of_par c p hpc).trans hd)
  have hslot := hu.slot_self h hc
  have hup : (u.reclaimed c).slot p = cs.slot p := hu.slot_other hc hne hpd
  have huc : schedSize ((u.reclaimed c).slot c).cap = min (2 ^ 32 - 1) (cs.subtreeBudget F c) := by
    have hself : schedSize (cs.slot c).cap = (cs.slot c).cap.size.toNat := if_pos hs
    rw [hslot, subtreeBudget_eq h c hc, hself]
    unfold revokedCap schedSize
    simp only [hs, if_true, BitVec.toNat_ofNat]
    rw [Nat.mod_eq_of_lt (by omega)]
  -- the last destruction moves the capacity of `c` to `p`
  have hcr : (u.reclaimed c).Credits c p := by
    refine ⟨?_, ?_, hne, by rw [hup]; exact hps⟩
    · rw [hslot]; exact hs
    · rw [hslot]; exact hp
  have hlast := weigh_change_two schedSize (u.reclaimed c) t' c p hc (h.lt p (F.par_live c p hpc).2)
    (fun e => hne e.symm) (fun k hk hkp => by rw [hd.frame k hk (fun hc' => hkp (hc'.uniq hcr))])
  rw [schedSize_credit hd hcr, hd.self, huc, hup] at hlast
  have hempty : schedSize Cte.EMPTY.cap = 0 := rfl
  have hsum := hu.weigh_reclaimed h hc
  omega

end CSpace

/-- **CPU time is conserved exactly when it fits.**  REVOKE keeps the sum of all capacities
iff the budget of `c` and everything below it fits one record; DELETE of a `Sched` under a
`Sched` iff it fits together with the parent's. -/
theorem revoke_conserves_iff {N : Nat} {tr : List Event} {cs : CSpace N}
    (hrun : Run Step CSpace.new tr cs) (c : Nat) (hl : cs.Live c) :
    (∃ t, CSpace.revoke c cs = .ok () t ∧
      (t.weigh schedSize = cs.weigh schedSize ↔
        ((cs.slot c).cap.capType = .sched → (cs.slot c).cap.size.toNat + cs.budgetBelow c ≤ 2 ^
          32 - 1))) ∧
    (∀ p, (cs.slot c).cap.capType = .sched → (cs.slot c).parent = some p →
      (cs.slot p).cap.capType = .sched →
      ∃ t, CSpace.delete c cs = .ok () t ∧
        (t.weigh schedSize = cs.weigh schedSize ↔
          (cs.slot p).cap.size.toNat + ((cs.slot c).cap.size.toNat + cs.budgetBelow c) ≤ 2 ^
            32 - 1)) := by
  obtain ⟨F, h⟩ := reachable_tree hrun
  have hc := hl.lt
  obtain ⟨⟨⟩, t, hrev, -, u, hu, rfl⟩ :=
    ((revoke_tree c h).imp (fun _ _ ht => ht) (fun _ _ hf => hf.1 hl)).exists_ok
  have hsum := hu.weigh_reclaimed h hc
  have hbudget := subtreeBudget_eq h c hc
  refine ⟨⟨_, hrev, ?_⟩, ?_⟩
  · by_cases hs : (cs.slot c).cap.capType = .sched
    · have hself : schedSize (cs.slot c).cap = (cs.slot c).cap.size.toNat := if_pos hs
      simp only [hs, true_implies]
      omega
    · have hzero := subtreeBudget_of_not_sched h c hs
      have hno : (cs.slot c).cap.capType = .sched → (cs.slot c).cap.size.toNat + cs.budgetBelow c ≤
        2 ^ 32 - 1 := fun h' => absurd h' hs
      refine ⟨fun _ => hno, fun _ => ?_⟩
      omega
  · intro p hs hp hps
    obtain ⟨⟨⟩, t', hdel, hd⟩ := (delete_of_revoke h hl hrev hu).exists_ok
    refine ⟨t', hdel, ?_⟩
    have hself : schedSize (cs.slot c).cap = (cs.slot c).cap.size.toNat := if_pos hs
    have hparent : schedSize (cs.slot p).cap = (cs.slot p).cap.size.toNat := if_pos hps
    have hlast := delete_weigh h hl hu hd hs hp hps
    omega

/-- Two roots with all the budget a record can hold, a unit split off the first and a unit
of the second delegated to it. -/
def overfull : List Event × CSpace 3 :=
  (drive next CSpace.new [.boot (.rootSched 0 4294967295 10), .boot (.rootSched 1 4294967295 10),
    .call (.split 0 2 1), .call (.delegate 1 0 1)]).get (by decide)

theorem overfull_run : Run Step CSpace.new overfull.1 overfull.2 :=
  run_of_drive step_of_next _ _ overfull (Option.some_get _).symm

/-- REVOKE of the first root drops the unit that saturates. -/
theorem revoke_loses_budget :
    overfull.1.map Event.act = [.boot (.rootSched 0 4294967295 10),
      .boot (.rootSched 1 4294967295 10),
      .call (.split 0 2 1), .call (.delegate 1 0 1)] ∧
    Run Step CSpace.new overfull.1 overfull.2 ∧
    overfull.2.Live 0 ∧ overfull.2.weigh schedSize = 2 * (2 ^ 32 - 1) ∧
    ∃ t, CSpace.revoke 0 overfull.2 = .ok () t ∧ t.weigh schedSize = 2 * (2 ^ 32 - 1) - 1 :=
  ⟨rfl, overfull_run, by decide, by decide, _, rfl, by decide⟩

/-- A root and two generations of splits. -/
def nested : List Event × CSpace 3 :=
  (drive next CSpace.new [.boot (.rootSched 0 100 10), .call (.split 0 1 40),
    .call (.split 1 2 15)]).get (by decide)

/-- REVOKE of the root, and DELETE of its child, fold what is below and keep the 100 units. -/
theorem revoke_conserves_iff_nested :
    nested.2.weigh schedSize = 100 ∧
      (∃ t, CSpace.revoke 0 nested.2 = .ok () t ∧ t.weigh schedSize = nested.2.weigh schedSize) ∧
      ∃ t, CSpace.delete 1 nested.2 = .ok () t ∧
        t.weigh schedSize = nested.2.weigh schedSize := by
  have run : Run Step CSpace.new nested.1 nested.2 :=
    run_of_drive step_of_next _ _ nested (Option.some_get _).symm
  have total : nested.2.weigh schedSize = 100 := by decide
  have fits : ∀ c, nested.2.budgetBelow c ≤ 100 := fun c => total ▸ nested.2.budgetBelow_le c
  have root : (nested.2.slot 0).cap.size.toNat = 60 := by decide
  have child : (nested.2.slot 1).cap.size.toNat = 25 := by decide
  obtain ⟨⟨t, revoked, kept⟩, -⟩ := revoke_conserves_iff run 0 (by decide)
  obtain ⟨-, deletes⟩ := revoke_conserves_iff run 1 (by decide)
  obtain ⟨u, deleted, kept'⟩ := deletes 0 (by decide) (by decide) (by decide)
  have fits0 := fits 0
  have fits1 := fits 1
  exact ⟨total, ⟨t, revoked, kept.mpr fun _ => by omega⟩, u, deleted, kept'.mpr (by omega)⟩

end Praesidium
