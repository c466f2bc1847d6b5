import Praesidium.CapCore.Linear
import Praesidium.CapCore.MdbTree

/-!
REVOKE and DELETE on a well-formed derivation tree.

On a tree `is_descendant` decides `Desc` and never runs into its cycle guard
(`ascend_tree`), a live descendant implies a live leaf descendant, and destroying a
leaf is `Forest.cut`.  So the loop of `revoke` ends with exactly the proper
descendants of `c` gone:

    Ends (revokeLoop c fuel) cs (Pruned cs F c) ⊥        (revokeLoop_tree)

Budget flows up one link per round.  `subtreeBudget` is what the subtree of `c`
holds; cutting a leaf changes it only by what saturates, which the final
`min (2^32 - 1)` does not see (`subtreeBudget_cut`).
-/

namespace Praesidium

open Fallible

namespace CSpace

variable {N : Nat} {cs t : CSpace N} {F : Forest Nat}

/-! ## The walk up -/

/-- **The walk up a tree.**  The loop of `is_descendant` stays in the table, its two
answers are right, and it reaches the cycle guard only if `fuel` links do not lead
past a root. -/
theorem ascend_tree (h : Tree cs.slot F) (a fuel d : Nat) (hd : d < N) :
    Ends (ascend a fuel d) cs
      (fun e t => t = cs ∧ (e = .found → F.Desc d a) ∧ (e = .root → ¬ F.Desc d a) ∧
        (e = .cycleGuard → Forest.climb F.par fuel d ≠ none))
      (fun _ _ => False) := by
  induction fuel generalizing d with
  | zero =>
    rw [ascend, ends_pure]
    exact ⟨rfl, fun e => (by cases e), fun e => (by cases e), fun _ e => by cases e⟩
  | succ fuel ih =>
    rw [ascend, ends_bind, ends_readSlot]
    refine ⟨fun h' => by omega, fun _ => ?_⟩
    have hpar := h.par d
    cases hp : (cs.slot d).parent with
    | none =>
      rw [hp] at hpar
      refine ⟨rfl, fun e => (by cases e), fun _ hda => ?_, fun e => by cases e⟩
      obtain ⟨p, hp', -⟩ := (F.desc_iff d a).mp hda
      rw [hpar] at hp'
      cases hp'
    | some p =>
      rw [hp] at hpar
      show Ends (if p = a then pure .found else ascend a fuel p) cs _ _
      rw [ends_ite]
      refine ⟨fun e => ⟨rfl, fun _ => e ▸ F.desc_of_par d p hpar, fun e => (by cases e),
        fun e => by cases e⟩, fun hne => ?_⟩
      refine (ih p (h.lt p (F.par_live d p hpar).2)).imp_ok fun e t ht => ?_
      obtain ⟨h1, h2, h3, h4⟩ := ht
      refine ⟨h1, fun e => (F.desc_of_par d p hpar).trans (h2 e), fun e hda => ?_, fun e => ?_⟩
      · obtain ⟨q, hq, hqa⟩ := (F.desc_iff d a).mp hda
        rw [hpar] at hq
        cases hq
        exact hqa.elim hne (h3 e)
      · rw [Forest.climb, hpar]
        exact h4 e

/-- `N + 1` rounds are enough to leave the table: the cycle guard is dead code. -/
theorem ascend_ne_cycleGuard (h : Tree cs.slot F) (a d : Nat) (hd : d < N) :
    Ends (ascend a (N + 1) d) cs
      (fun e t => t = cs ∧ e ≠ .cycleGuard ∧ (e = .found ↔ F.Desc d a))
      (fun _ _ => False) := by
  refine (ascend_tree h a (N + 1) d hd).imp_ok fun e t ht => ?_
  obtain ⟨h1, h2, h3, h4⟩ := ht
  have hguard : e ≠ .cycleGuard := by
    intro e'
    have := F.climb_eq_none (Finset.range N) (fun x hx => Finset.mem_range.mpr (h.lt x hx)) d
    rw [Finset.card_range] at this
    exact h4 e' this
  refine ⟨h1, hguard, h2, fun hda => ?_⟩
  cases e with
  | found => rfl
  | root => exact absurd hda (h3 rfl)
  | cycleGuard => exact absurd rfl hguard

theorem isDescendant_tree (h : Tree cs.slot F) (a d : Nat) (hd : d < N) :
    Ends (isDescendant d a) cs (fun b t => t = cs ∧ (b = true ↔ F.Desc d a))
      (fun _ _ => False) := by
  unfold isDescendant
  rw [ends_bind]
  refine (ascend_ne_cycleGuard h a d hd).imp_ok fun e t ht => ?_
  rw [ends_pure, decide_eq_true_eq]
  exact ⟨ht.1, ht.2.2⟩

/-- The search of `revoke` finds a leaf below `c`, or there is nothing below `c`. -/
theorem victim_tree (h : Tree cs.slot F) (c : Nat) :
    Ends (victim c) cs
      (fun r t => t = cs ∧ (∀ d, r = some d → F.Desc d c ∧ ∀ y, F.par y ≠ some d) ∧
        (r = none → ∀ d, ¬ F.Desc d c))
      (fun _ _ => False) := by
  refine (victim_spec cs c (fun d b => b = true ↔ F.Desc d c) (fun _ _ => False)
    (fun d hd => isDescendant_tree h c d hd.lt)).imp_ok fun r t ht => ?_
  obtain ⟨rfl, h1, h2⟩ := ht
  refine ⟨rfl, fun d hd => ?_, fun hr d hdc => ?_⟩
  · obtain ⟨-, -, hdc, hleaf⟩ := h1 d hd
    exact ⟨hdc.mp rfl, h.leaf d hleaf⟩
  · -- a descendant implies a childless one, and the search would have stopped there
    obtain ⟨y, hy, hleaf⟩ :=
      F.exists_leaf (Finset.range N) (fun x hx => Finset.mem_range.mpr (h.lt x hx)) c d hdc
    have hyl : t.Live y := (h.live y).mp hy.live.1
    have hyc : y ≠ c := fun e => F.desc_irrefl c (e ▸ hy)
    rcases h2 hr y hyl hyc with hno | hch
    · exact absurd (hno.mpr hy) (by decide)
    · obtain ⟨k, -, hk⟩ := (hasChildren_iff t y).mp hch
      exact hleaf k (by rw [h.par k, hk])

/-! ## One round -/

/-- On a tree `destroy_slot` has no way to fail. -/
theorem destroySlot_tree (h : Tree cs.slot F) (d : Nat) (hl : cs.Live d) :
    Ends (destroySlot d) cs (fun _ t => Destroyed cs d t) (fun _ _ => False) := by
  refine (destroySlot_spec cs d hl).imp (fun _ _ ht => ht) (fun _ _ hf => ?_)
  obtain ⟨-, p, hp, hle⟩ := hf
  have hlive : cs.Live p := (h.parent_live d p hp).2
  have := hlive.lt
  omega

variable {d c : Nat} {u : CSpace N} {v : Option U64}

theorem Destroyed.touched (h : Destroyed cs d t) (k : Nat) (hk : k ≠ d) :
    Touched (cs.slot k) (t.slot k) := by
  by_cases hc : cs.Credits d k
  · rw [h.credit k hc]
    refine touched_of_live (cs.slot k) _ _ _ ?_
    unfold RawCap.isNull
    rw [hc.2.2.2]
    rfl
  · rw [h.frame k hk hc]; exact Touched.refl _

/-- Destroying a leaf cuts it. -/
theorem Destroyed.tree (hd : Destroyed cs d t) (h : Tree cs.slot F)
    (hleaf : ∀ y, F.par y ≠ some d) : Tree t.slot (F.cut d hleaf) :=
  h.cut d hleaf hd.self (fun k hk => hd.touched k hk)

/-! ## Budget on its way up -/

open Classical in
/-- The capacity that `c` and its descendants hold. -/
noncomputable def subtreeBudget (cs : CSpace N) (F : Forest Nat) (c : Nat) : Nat :=
  ∑ d ∈ Finset.range N, if d = c ∨ F.Desc d c then schedSize (cs.slot d).cap else 0

theorem subtreeBudget_cut (h : Tree cs.slot F) (hd : Destroyed cs d t) (hdc : F.Desc d c)
    (hleaf : ∀ y, F.par y ≠ some d) :
    min (2 ^ 32 - 1) (t.subtreeBudget (F.cut d hleaf) c) = min (2 ^ 32 - 1)
      (cs.subtreeBudget F c) := by
  classical
  have hne : d ≠ c := fun e => F.desc_irrefl c (e ▸ hdc)
  obtain ⟨p, hp, hpc⟩ := (F.desc_iff d c).mp hdc
  have hpd : p ≠ d := fun e => F.par_ne_self d (e ▸ hp)
  have hlive := F.par_live d p hp
  have hin : ∀ k, k ≠ d → ((k = c ∨ (F.cut d hleaf).Desc k c) ↔ (k = c ∨ F.Desc k c)) := by
    intro k hk
    rw [F.desc_cut d hleaf k c]
    simp [hk]
  -- only `d` and its parent change
  have hsum := Tally.sum_change_two (Finset.range N)
    (fun k => if k = c ∨ F.Desc k c then schedSize (cs.slot k).cap else 0)
    (fun k => if k = c ∨ (F.cut d hleaf).Desc k c then schedSize (t.slot k).cap else 0) d p
    (Finset.mem_range.mpr (h.lt d hlive.1)) (Finset.mem_range.mpr (h.lt p hlive.2)) (fun e =>
    hpd e.symm) (fun k _ hk hkp => by
      have hcr : ¬ cs.Credits d k := fun hc => hkp (by
        have := hc.2.1
        rw [← h.par d, hp] at this
        exact (Option.some.inj this).symm)
      simp only [hin k hk, hd.frame k hk hcr])
  have hd_out : ¬ (d = c ∨ (F.cut d hleaf).Desc d c) := by
    rw [F.desc_cut d hleaf d c]
    simp [hne]
  have hp_in : p = c ∨ F.Desc p c := hpc
  simp only [if_neg hd_out, if_pos (Or.inr hdc : d = c ∨ F.Desc d c), if_pos hp_in,
    if_pos ((hin p hpd).mpr hp_in)] at hsum
  change t.subtreeBudget (F.cut d hleaf) c + _ = cs.subtreeBudget F c + _ at hsum
  have hpar : (cs.slot d).parent = some p := by rw [← h.par d, hp]
  by_cases hs : (cs.slot d).cap.capType = .sched
  · have hcr : cs.Credits d p := ⟨hs, hpar, hpd, (h.kin d p hpar).sched_iff.mp hs⟩
    rw [schedSize_credit hd hcr] at hsum
    -- either the credit fits and nothing is lost, or the parent alone fills the cap
    have hle : min (2 ^ 32 - 1) (schedSize (cs.slot p).cap + schedSize (cs.slot d).cap) ≤
        t.subtreeBudget (F.cut d hleaf) c := by
      rw [← schedSize_credit hd hcr]
      unfold subtreeBudget
      refine le_trans (le_of_eq (if_pos ((hin p hpd).mpr hp_in)).symm)
        (Finset.single_le_sum (f := fun k => if k = c ∨
        (F.cut d hleaf).Desc k c then schedSize (t.slot k).cap else 0)
          (fun _ _ => Nat.zero_le _) (Finset.mem_range.mpr (h.lt p hlive.2)))
    omega
  · have hcr : ¬ cs.Credits d p := fun hc => hs hc.1
    have hzero : schedSize (cs.slot d).cap = 0 := if_neg hs
    rw [hd.frame p hpd hcr, hzero] at hsum
    omega

/-! ## The loop -/

/-- The space after the loop of `revoke`: the proper descendants of `c` are gone, `c` has
their budget, nothing else changed. -/
structure Pruned (cs : CSpace N) (F : Forest Nat) (c : Nat) (t : CSpace N) : Prop where
  gone : ∀ d, F.Desc d c → t.slot d = .EMPTY
  kept : ∀ d, d ≠ c → ¬ F.Desc d c → t.slot d = cs.slot d
  self : ∃ size : U32, t.slot c = { cs.slot c with cap := { (cs.slot c).cap with size := size } } ∧
    size.toNat = if (cs.slot c).cap.capType = .sched then min (2 ^ 32 - 1) (cs.subtreeBudget F c)
      else (cs.slot c).cap.size.toNat
  nextObj : t.nextObj = cs.nextObj
  zeroed : ∃ zs, t.zeroed = cs.zeroed ++ zs ∧ ∀ z ∈ zs, ∃ d, F.Desc d c ∧
    z = ((cs.slot d).cap.objref, (cs.slot d).cap.size) ∧ (cs.slot d).cap.capType ∉ linearTypes ∧
      ∀ k, t.Live k → (t.slot k).cap.capType = (cs.slot d).cap.capType →
        (t.slot k).cap.objref ≠ (cs.slot d).cap.objref

/-- Nothing below `c`: the loop stops. -/
theorem Pruned.stop (c : Nat) (hc : c < N) (hnone : ∀ d, ¬ F.Desc d c) : Pruned cs F c cs := by
  refine ⟨fun d hd => absurd hd (hnone d), fun _ _ _ => rfl, ⟨(cs.slot c).cap.size, rfl, ?_⟩, rfl,
    [], by simp, fun z hz => by cases hz⟩
  by_cases hs : (cs.slot c).cap.capType = .sched
  · have hbudget : cs.subtreeBudget F c = (cs.slot c).cap.size.toNat := by
      unfold subtreeBudget
      rw [Finset.sum_eq_single c]
      · rw [if_pos (Or.inl rfl)]; exact if_pos hs
      · intro d _ hd
        rw [if_neg (fun h' => h'.elim hd (hnone d))]
      · intro hc'; exact absurd (Finset.mem_range.mpr hc) hc'
    rw [if_pos hs, hbudget]
    have := (cs.slot c).cap.size.isLt
    omega
  · rw [if_neg hs]

/-- What the loop leaves was there, and is no descendant of `c`. -/
theorem Pruned.of_live {k : Nat} (hp : Pruned cs F c t) (hk : t.Live k) :
    ¬ F.Desc k c ∧ cs.Live k ∧ (t.slot k).cap.capType = (cs.slot k).cap.capType ∧
      (t.slot k).cap.objref = (cs.slot k).cap.objref := by
  have hkc : ¬ F.Desc k c := fun hd => not_live_empty t k (hp.gone k hd) hk
  refine ⟨hkc, ?_⟩
  by_cases e : k = c
  · obtain ⟨size, hself, -⟩ := hp.self
    subst e
    unfold Live RawCap.isNull at hk ⊢
    rw [hself] at hk ⊢
    exact ⟨hk, rfl, rfl⟩
  · unfold Live at hk ⊢
    rw [hp.kept k e hkc] at hk ⊢
    exact ⟨hk, rfl, rfl⟩

/-- The hook calls of one round and of the rest of the loop. -/
theorem Pruned.zeroed_step {hleaf : ∀ y, F.par y ≠ some d} (hu : Pruned t (F.cut d hleaf) c u)
    (hd : Destroyed cs d t) (hdc : F.Desc d c) :
    ∃ zs, u.zeroed = cs.zeroed ++ zs ∧ ∀ z ∈ zs, ∃ d, F.Desc d c ∧
      z = ((cs.slot d).cap.objref, (cs.slot d).cap.size) ∧ (cs.slot d).cap.capType ∉ linearTypes ∧
        ∀ k, u.Live k → (u.slot k).cap.capType = (cs.slot d).cap.capType →
          (u.slot k).cap.objref ≠ (cs.slot d).cap.objref := by
  obtain ⟨zs, hz, hzs⟩ := hu.zeroed
  have hlater : ∀ z ∈ zs, ∃ d, F.Desc d c ∧ z = ((cs.slot d).cap.objref, (cs.slot d).cap.size) ∧
      (cs.slot d).cap.capType ∉ linearTypes ∧ ∀ k, u.Live k →
      (u.slot k).cap.capType = (cs.slot d).cap.capType →
        (u.slot k).cap.objref ≠ (cs.slot d).cap.objref := by
    intro z hz
    obtain ⟨e, he, hze, hty, hsurv⟩ := hzs z hz
    obtain ⟨hed, hec⟩ := (F.desc_cut d hleaf e c).mp he
    -- a record that was credited is a `Sched`, and those are not zeroed
    have hsame : t.slot e = cs.slot e := hd.frame e hed (fun hc => by
      have hsched := (hd.touched e hed).capType
      rw [hc.2.2.2] at hsched
      rw [hsched] at hty
      exact hty (by decide))
    rw [hsame] at hze hty hsurv
    exact ⟨e, hec, hze, hty, hsurv⟩
  rcases hd.zeroed with ⟨hlast, hz'⟩ | ⟨-, hz'⟩
  · refine ⟨((cs.slot d).cap.objref,
      (cs.slot d).cap.size) :: zs, by rw [hz, hz', List.append_assoc]; rfl, fun z hz => ?_⟩
    rcases List.mem_cons.mp hz with rfl | hz
    · refine ⟨d, hdc, rfl, hlast.1, fun k hk hty hob => ?_⟩
      -- a survivor was there, with this type and object, when `d` was destroyed
      obtain ⟨-, hkt, hty', hob'⟩ := hu.of_live hk
      obtain ⟨hkd, hkl⟩ := (hd.live_iff k).mp hkt
      have htouch := hd.touched k hkd
      refine hlast.2 k hkd hkl ?_ ?_
      · rw [← htouch.capType, ← hty', hty]
      · rw [← htouch.objref, ← hob', hob]
    · exact hlater z hz
  · exact ⟨zs, by rw [hz, hz'], hlater⟩

/-- One round, then the rest of the loop. -/
theorem Pruned.step (h : Tree cs.slot F) (hd : Destroyed cs d t) (hdc : F.Desc d c)
    (hleaf : ∀ y, F.par y ≠ some d) (hu : Pruned t (F.cut d hleaf) c u) : Pruned cs F c u := by
  have hne : d ≠ c := fun e => F.desc_irrefl c (e ▸ hdc)
  have hdu : u.slot d = .EMPTY := by
    rw [hu.kept d hne (fun hh => (F.desc_cut d hleaf d c).mp hh |>.1 rfl), hd.self]
  -- the slot credited in this round is `c` or a descendant of it
  have hcredit : ∀ k, cs.Credits d k → k = c ∨ F.Desc k c := by
    intro k hk
    obtain ⟨p, hp, hpc⟩ := (F.desc_iff d c).mp hdc
    rw [h.par d, hk.2.1] at hp
    cases hp
    exact hpc
  have hself_kept := hd.kept c (fun e => hne e.symm)
  refine ⟨fun k hk => ?_, fun k hkc hk => ?_, ?_, by rw [hu.nextObj, hd.nextObj], ?_⟩
  · by_cases e : k = d
    · rw [e]; exact hdu
    · exact hu.gone k ((F.desc_cut d hleaf k c).mpr ⟨e, hk⟩)
  · have hkd : k ≠ d := fun e => hk (e ▸ hdc)
    rw [hu.kept k hkc (fun hh => hk ((F.desc_cut d hleaf k c).mp hh).2),
      hd.frame k hkd (fun hc => (hcredit k hc).elim hkc hk)]
  · obtain ⟨size, hs1, hs2⟩ := hu.self
    obtain ⟨hpar, size', hcap⟩ := hself_kept
    refine ⟨size, ?_, ?_⟩
    · rw [hs1]; simp only [hpar, hcap]
    · rw [hs2, hcap]
      by_cases hs : (cs.slot c).cap.capType = .sched
      · rw [if_pos hs, if_pos hs, subtreeBudget_cut h hd hdc hleaf]
      · have hcr : ¬ cs.Credits d c := fun hc => hs hc.2.2.2
        have := hd.frame c (fun e => hne e.symm) hcr
        rw [if_neg hs, if_neg hs, ← this, hcap]
  · exact hu.zeroed_step hd hdc

/-- **The loop of `revoke`**, by induction on its rounds. -/
theorem revokeLoop_tree (c fuel : Nat) (cs : CSpace N) (F : Forest Nat) (h : Tree cs.slot F)
    (hl : cs.Live c) (hf : cs.population < fuel) :
    Ends (revokeLoop c fuel) cs (fun _ t => Pruned cs F c t) (fun _ _ => False) := by
  induction fuel generalizing cs F with
  | zero => omega
  | succ fuel ih =>
    rw [revokeLoop, ends_bind]
    refine (victim_tree h c).imp_ok fun r t ht => ?_
    obtain ⟨rfl, hhit, hmiss⟩ := ht
    cases r with
    | none => exact Pruned.stop c hl.lt (hmiss rfl)
    | some d =>
      obtain ⟨hdc, hleaf⟩ := hhit d rfl
      have hdl : t.Live d := (h.live d).mp hdc.live.1
      have hne : c ≠ d := fun e => F.desc_irrefl d (e ▸ hdc)
      show Ends (destroySlot d >>= fun _ => revokeLoop c fuel) t _ _
      rw [ends_bind]
      refine (destroySlot_tree h d hdl).imp_ok fun _ t' hd => ?_
      refine (ih t' (F.cut d hleaf) (hd.tree h hleaf) ((hd.live_iff c).mpr ⟨hne, hl⟩)
        (by have := hd.population_lt hdl; omega)).imp_ok fun _ u hu => ?_
      exact Pruned.step h hd hdc hleaf hu

theorem Pruned.touched (hp : Pruned cs F c t) (hl : cs.Live c) (k : Nat) (hk : ¬ F.Desc k c) :
    Touched (cs.slot k) (t.slot k) := by
  obtain ⟨size, hself, -⟩ := hp.self
  by_cases e : k = c
  · rw [e, hself]; exact touched_of_live (cs.slot c) _ _ _ hl
  · rw [hp.kept k e hk]; exact Touched.refl _

theorem Pruned.tree (hp : Pruned cs F c t) (h : Tree cs.slot F) (hl : cs.Live c) :
    Tree t.slot (F.prune c) :=
  h.prune c hp.gone (hp.touched hl)

/-! ## `revoke` and `delete` -/

/-- **REVOKE on a tree** refuses an empty slot; otherwise it returns with the subtree
below `c` pruned. -/
theorem revoke_tree (c : Nat) (h : Tree cs.slot F) :
    Ends (revoke c) cs (fun _ t => cs.Live c ∧ ∃ u, Pruned cs F c u ∧ t = u.reclaimed c)
      (fun f t => ¬ cs.Live c ∧ Refused cs f t) := by
  unfold revoke
  rw [ends_bind, ends_live]
  refine ⟨fun hc => ⟨fun hl => ?_, refused_err cs _⟩, fun _ hl => ⟨hl, refused_err cs _⟩,
    fun hl => ?_⟩
  · have := hl.lt
    omega
  have hc := hl.lt
  rw [ends_bind]
  refine (revokeLoop_tree c (N + 1) cs F h hl (by have := cs.population_le; omega)).imp
    (fun _ u hu => ?_) (fun _ _ h => h.elim)
  simp only [ends_bind, ends_readSlot, ends_ite, ends_writeSlot, ends_pure]
  refine ⟨fun h' => by omega, fun _ => ⟨fun hu' => ⟨fun h' => by omega, fun _ => ⟨hl, u, hu, ?_⟩⟩,
    fun hu' => ⟨hl, u, hu, ?_⟩⟩⟩
  · unfold reclaimed; rw [if_pos hu']
  · unfold reclaimed; rw [if_neg hu']

theorem touched_reclaimed (c : Nat) (hl : cs.Live c) (k : Nat) :
    Touched (cs.slot k) ((cs.reclaimed c).slot k) := by
  rw [slot_reclaimed cs c k hl.lt]
  by_cases e : k = c ∧ (cs.slot c).cap.capType = .untyped
  · rw [if_pos e, e.1]; exact touched_of_live (cs.slot c) _ _ _ hl
  · rw [if_neg e]; exact Touched.refl _

theorem Pruned.live_self (hp : Pruned cs F c t) (hl : cs.Live c) : t.Live c := by
  obtain ⟨size, hself, -⟩ := hp.self
  unfold Live RawCap.isNull at *
  rw [hself]
  exact hl

/-- The table after `revoke` is a tree again. -/
theorem Pruned.tree_reclaimed (hp : Pruned cs F c t) (h : Tree cs.slot F) (hl : cs.Live c) :
    Tree (t.reclaimed c).slot (F.prune c) :=
  (hp.tree h hl).update (touched_reclaimed c (hp.live_self hl))

/-- After a pruning nothing has `c` as parent. -/
theorem prune_leaf (F : Forest Nat) (c y : Nat) : (F.prune c).par y ≠ some c := by
  intro hy
  have := (F.prune c).desc_of_par y c hy
  rw [F.desc_prune] at this
  exact this.1 this.2

/-- **DELETE on a tree** revokes and then destroys `c`. -/
theorem delete_tree (c : Nat) (h : Tree cs.slot F) :
    Ends (delete c) cs
      (fun _ t => cs.Live c ∧ ∃ u, Pruned cs F c u ∧ (u.reclaimed c).Live c ∧
        Destroyed (u.reclaimed c) c t)
      (fun f t => ¬ cs.Live c ∧ Refused cs f t) := by
  unfold delete
  rw [ends_bind]
  refine (revoke_tree c h).imp_ok fun _ t ht => ?_
  obtain ⟨hl, u, hu, rfl⟩ := ht
  have hl' : (u.reclaimed c).Live c := (live_reclaimed u c c hl.lt).mpr (hu.live_self hl)
  exact (destroySlot_tree (hu.tree_reclaimed h hl) c hl').imp (fun _ t ht => ⟨hl, u, hu, hl', ht⟩)
    (fun _ _ h => h.elim)

/-- A REVOKE that returned: more than its effect from an arbitrary state says. -/
theorem revoke_pruned (h : Tree cs.slot F) (hexec : (Call.revoke c).exec cs = .ok v t) :
    cs.Live c ∧ ∃ u, Pruned cs F c u ∧ t = u.reclaimed c := by
  have hends : Ends (Call.revoke c).exec cs (fun _ t => cs.Live c ∧ ∃ u, Pruned cs F c u ∧
    t = u.reclaimed c) (fun _ _ => True) := by
    unfold Call.exec
    rw [ends_bind]
    exact (revoke_tree c h).imp_any fun _ _ ht => ht
  exact hends.ok hexec

@[inherit_doc revoke_pruned]
theorem delete_pruned (h : Tree cs.slot F) (hexec : (Call.delete c).exec cs = .ok v t) :
    cs.Live c ∧ ∃ u, Pruned cs F c u ∧ (u.reclaimed c).Live c ∧ Destroyed (u.reclaimed c) c t := by
  have hends : Ends (Call.delete c).exec cs
      (fun _ t => cs.Live c ∧ ∃ u, Pruned cs F c u ∧ (u.reclaimed c).Live c ∧
      Destroyed (u.reclaimed c) c t) (fun _ _ => True) := by
    unfold Call.exec
    rw [ends_bind]
    exact (delete_tree c h).imp_any fun _ _ ht => ht
  exact hends.ok hexec

end CSpace

end Praesidium
