import Praesidium.CapCore.MdbRevoke

/-!
The derivation tree along whole runs of one capability space.

Every action keeps the table a tree, one case per effect (`Effect.tree`), so every
state reached from `new` is one (`reachable_tree`), whatever the other parties of
its grants are.

    Run Step CSpace.new tr cs → ∃ F, Tree cs.slot F        (reachable_tree)

`Below` is descent along the parent links of the table itself.  On a reachable
state REVOKE and DELETE are exact in terms of it (`revoke_exact`).
-/

namespace Praesidium

open Fallible

namespace CSpace

variable {N : Nat} {cs cs' : CSpace N} {F : Forest Nat}

/-! ## Steps -/

variable {dest src : Nat}

theorem Retyped.tree {ut : Nat} {newType : CapType} {framesPerObj count : U32}
    (hr : Retyped cs ut newType framesPerObj count dest cs') (h : Tree cs.slot F) :
    ∃ F', Tree cs'.slot F' := by
  obtain ⟨watermark, -, hut⟩ := hr.charged
  -- first the charge, which touches only `ut`; then the objects, one leaf at a time
  have htouch : ∀ k, Touched (cs.slot k) (if k = ut then cs'.slot ut else cs.slot k) := by
    intro k
    by_cases e : k = ut
    · rw [if_pos e, hut, e]; exact touched_of_live (cs.slot ut) _ _ _ hr.live
    · rw [if_neg e]; exact Touched.refl _
  have hcharged : Tree (fun k => if k = ut then cs'.slot ut else cs.slot k) F := h.update htouch
  have hut_live : F.live ut := (h.live ut).mpr hr.live
  have hret := hr.retypeable
  refine Tree.growAll ut (fun i =>
    retyped newType (objAt (cs.slot ut).cap framesPerObj i) framesPerObj) dest
    count.toNat _ F hcharged hut_live (fun i hi hl => hr.free i hi ((h.live _).mp hl)) ?_ ?_
    cs'.slot hr.made ?_
  · intro i _
    show decide (newType = .null) = false
    rw [decide_eq_false_iff_not]
    rintro rfl
    cases hret
  · intro i _
    refine Or.inl ⟨?_, hret⟩
    simp only [if_true, hut]
    exact hr.untyped
  · intro k hk
    by_cases e : k = ut
    · rw [if_pos e, e]
    · rw [if_neg e]; exact hr.frame k e hk

section

variable (h : Tree cs.slot F) (hl : cs.Live src) (ht : (cs.slot src).cap.capType ∉ linearTypes)

include h hl ht

theorem mint_tree {newRights : Rights} {badge : U64}
    (hr : newRights.subsetOf (cs.slot src).cap.rights = true) (hd : dest < N)
    (hfree : ¬ cs.Live dest) :
    ∃ F', Tree (cs.put dest ⟨{ (cs.slot src).cap with rights := newRights, badge := badge },
      some src⟩).slot F' := by
  refine ⟨_, h.grow dest { (cs.slot src).cap with rights := newRights, badge := badge } (some src)
    (fun hx => hfree ((h.live dest).mp hx)) ?_ hl ?_ (fun k => slot_put cs dest k _ hd)⟩
  · rintro q hq
    cases hq
    exact (h.live src).mpr hl
  · rintro q hq
    cases hq
    exact kin_of_derivable ht rfl hr

theorem copy_tree (hd : dest < N) (hfree : ¬ cs.Live dest) :
    ∃ F', Tree (cs.put dest ⟨(cs.slot src).cap,
      if (cs.slot src).parent = NIL then some src else (cs.slot src).parent⟩).slot F' := by
  have hparent : ∀ q, (if (cs.slot src).parent = NIL then some src else (cs.slot src).parent) =
    some q → F.live q ∧ Kin (cs.slot q).cap (cs.slot src).cap := by
    intro q hq
    split at hq
    · cases hq
      exact ⟨(h.live src).mpr hl, kin_of_derivable ht rfl (Rights.subsetOf_refl _)⟩
    · exact ⟨(h.live q).mpr (h.parent_live src q hq).2, h.kin src q hq⟩
  exact ⟨_, h.grow dest _ _ (fun hx => hfree ((h.live dest).mp hx)) (fun q hq =>
    (hparent q hq).1) hl (fun q hq => (hparent q hq).2) (fun k => slot_put cs dest k _ hd)⟩

end

theorem touched_withBudget (c : Nat) (b : Budget) (hl : cs.Live c) :
    Touched (cs.slot c) (cs.withBudget c b) :=
  touched_of_live (cs.slot c) b.capacity b.consumed b.period hl

theorem split_tree {child parent : Budget} {next : U64} (h : Tree cs.slot F) (hl : cs.Live src)
    (ht : (cs.slot src).cap.capType = .sched) (hd : dest < N) (hfree : ¬ cs.Live dest) :
    ∃ F', Tree (cs.afterSplit src dest child parent next).slot F' := by
  have hsrc := hl.lt
  have hne : src ≠ dest := fun e => hfree (e ▸ hl)
  have htouch : ∀ k, Touched (cs.slot k) (if k = src then cs.withBudget src parent else cs.slot
    k) := by
    intro k
    by_cases e : k = src
    · rw [if_pos e, e]; exact touched_withBudget src parent hl
    · rw [if_neg e]; exact Touched.refl _
  have hdebited := h.update htouch
  refine ⟨_, hdebited.grow dest (schedChild (cs.slot src).cap cs.nextObj child) (some src)
    (fun hx => hfree ((h.live dest).mp hx)) ?_ rfl ?_ (fun k => ?_)⟩
  · rintro q hq
    cases hq
    exact (h.live src).mpr hl
  · rintro q hq
    cases hq
    rw [if_pos rfl]
    have hwt := (touched_withBudget src parent hl).capType
    have hwr := (touched_withBudget src parent hl).rights
    refine Or.inr ⟨?_, (show CapType.sched ∉ _ by decide), ?_⟩
    · rw [hwt, ht]; rfl
    · rw [hwr]; exact Rights.subsetOf_refl _
  · rw [slot_split cs child parent next hl hd k]
    by_cases e : k = src
    · rw [if_pos e, if_neg (by omega), if_pos e]
    · rw [if_neg e, if_neg e]

theorem touched_delegate (s d : Budget) (hl : cs.Live src) (hl' : cs.Live dest) (k : Nat) :
    Touched (cs.slot k) (((cs.put src (cs.withBudget src s)).put dest (cs.withBudget dest d)).slot
      k) := by
  rw [slot_put _ dest k _ hl'.lt, slot_put cs src k _ hl.lt]
  by_cases e : k = dest
  · rw [if_pos e, e]; exact touched_withBudget dest d hl'
  · rw [if_neg e]
    by_cases e' : k = src
    · rw [if_pos e', e']; exact touched_withBudget src s hl
    · rw [if_neg e']; exact Touched.refl _

/-- A root placed in an empty slot. -/
theorem root_tree {d : Nat} (cap : RawCap) (h : Tree cs.slot F) (hfree : ¬ cs.Live d)
    (hcap : cap.isNull = false) (hslot : ∀ k,
    cs'.slot k = if k = d then ⟨cap, NIL⟩ else cs.slot k) : ∃ F', Tree cs'.slot F' :=
  ⟨_, h.grow d cap none (fun hx => hfree ((h.live d).mp hx)) (fun q hq => by cases hq) hcap
  (fun q hq => by cases hq) hslot⟩

end CSpace

open CSpace

variable {N : Nat} {cs cs' : CSpace N} {F : Forest Nat} {v : Option U64}

/-- **Calls keep the tree.** -/
theorem call_tree {c : Call} (h : Tree cs.slot F) (hexec : c.exec cs = .ok v cs')
    (he : CallEffect cs c v cs') : ∃ F', Tree cs'.slot F' := by
  cases he with
  | retype hr => exact hr.tree h
  | mint h1 h2 h3 h4 h5 => exact mint_tree h h1 h2 h3 h4 h5
  | copy h1 h2 h3 h4 => exact copy_tree h h1 h2 h3 h4
  | stay => exact ⟨F, h⟩
  | moveCap h1 h2 h3 h4 hm =>
    exact ⟨_, h.rename _ _ ((h.live _).mpr h1) (fun hx => h4 ((h.live _).mp hx)) hm.slot⟩
  | split h1 h2 h3 h4 => exact split_tree h h1 h2 h3 h4
  | delegateSelf => exact ⟨F, h⟩
  | delegate h1 h2 h3 => exact ⟨F, h.update (touched_delegate _ _ h2 h3)⟩
  | mintReply h1 h2 => exact root_tree _ h h2 rfl (fun k => slot_put cs _ k _ h1)
  | consumeReply h1 h2 hd => exact ⟨_, hd.tree h (h.leaf_of_reply _ h2)⟩
  | revoke =>
    obtain ⟨hl, u, hu, heq⟩ := revoke_pruned h hexec
    rw [heq]
    exact ⟨_, hu.tree_reclaimed h hl⟩
  | @delete c =>
    obtain ⟨hl, u, hu, -, hd⟩ := delete_pruned h hexec
    exact ⟨_, hd.tree (hu.tree_reclaimed h hl) (prune_leaf F c)⟩

/-- **Actions keep the tree.** -/
theorem Effect.tree {a : Action} (h : Tree cs.slot F) (he : Effect cs a v cs') :
    ∃ F', Tree cs'.slot F' := by
  cases he with
  | boot hfree hb => exact root_tree _ h hfree (Boot.cap_isNull _ _) hb.slot
  | call hexec he => exact call_tree h hexec he
  | @grantOut _ _ _ srcSlot _ _ _ mode _ hg =>
    by_cases hm : mode = .move
    · have hput : cs' = cs.put srcSlot .EMPTY := by rw [hg.src, if_pos hm]
      have hslot : ∀ k, cs'.slot k = if k = srcSlot then .EMPTY else cs.slot k := by
        intro k; rw [hput]; exact slot_put cs srcSlot k _ hg.live.lt
      refine ⟨_, h.cut srcSlot (h.leaf srcSlot (hg.childless hm)) (by rw [hslot, if_pos rfl])
        (fun k hk => ?_)⟩
      rw [hslot k, if_neg hk]
      exact Touched.refl _
    · rw [hg.src, if_neg hm]
      exact ⟨F, h⟩
  | @grantIn _ src _ srcSlot dstSlot newRights badge _ _ hg =>
    refine root_tree { (src.slot srcSlot).cap with rights := newRights, badge := badge } h
      hg.free hg.live (fun k => ?_)
    rw [hg.dst]
    exact slot_put cs dstSlot k _ hg.inRange

theorem Step.tree {ev : Event} (h : Tree cs.slot F) (hs : Step cs ev cs') :
    ∃ F', Tree cs'.slot F' := by
  rcases step_spec hs with ⟨v, -, he⟩ | ⟨e, -, rfl⟩
  · exact he.tree h
  · exact ⟨F, h⟩

/-- **Every reachable table is a tree.** -/
theorem reachable_tree {tr : List Event} (h : Run Step CSpace.new tr cs) : ∃ F, Tree cs.slot F :=
  h.inv (fun cs => ∃ F, Tree cs.slot F) ⟨_, Tree.nil⟩ (fun _ _ _ ⟨_, hF⟩ hs => hs.tree hF)

/-! ## No operation leaves the table -/

/-- On a tree a call that fails refused, or its arithmetic did not fit. -/
theorem call_ne_oob (h : Tree cs.slot F) (c : Call) (t : CSpace N) : c.exec cs ≠ .error .oob t := by
  intro hexec
  rcases (call_spec c cs).error hexec with ⟨⟨e, he⟩, -⟩ | he | ⟨-, hdes⟩
  · cases he
  · cases he
  · have hends : Ends c.exec cs (fun _ _ => True) (fun f _ => f ≠ .oob) := by
      cases c with
      | consumeReply dest =>
        unfold Call.exec
        rw [ends_bind]
        refine (consumeReply_spec cs dest).imp (fun _ _ _ => trivial) (fun f _ hf => ?_)
        rcases hf with ⟨⟨e, rfl⟩, -⟩ | ⟨-, p, hp, hle⟩
        · exact fun e => by cases e
        · have hlive : cs.Live p := (h.parent_live dest p hp).2
          have := hlive.lt
          omega
      | revoke c =>
        unfold Call.exec
        rw [ends_bind]
        refine (revoke_tree c h).imp (fun _ _ _ => trivial) (fun f _ hf => ?_)
        obtain ⟨-, ⟨e, rfl⟩, -⟩ := hf
        exact fun e => by cases e
      | delete c =>
        unfold Call.exec
        rw [ends_bind]
        refine (delete_tree c h).imp (fun _ _ _ => trivial) (fun f _ hf => ?_)
        obtain ⟨-, ⟨e, rfl⟩, -⟩ := hf
        exact fun e => by cases e
      | _ => exact hdes.elim
    exact hends.error hexec rfl

theorem boot_ne_oob (cs : CSpace N) (b : Boot) (hb : b.slot < N) (t : CSpace N) :
    b.exec cs ≠ .error .oob t := by
  intro hexec
  rcases (boot_spec b cs).error hexec with h | ⟨-, h⟩
  · cases h
  · omega

theorem grant_ne_oob {M : Nat} (a : CSpace N) (b : CSpace M) (srcSlot dstSlot : Nat)
    (newRights : Rights) (badge : U64) (mode : GrantMode) (s : CSpace N × CSpace M) :
    grant srcSlot dstSlot newRights badge mode (a, b) ≠ .error .oob s := by
  intro hexec
  obtain ⟨⟨e, he⟩, -⟩ := (grant_spec a srcSlot b dstSlot newRights badge mode).error hexec
  cases he

/-! ## Well-formedness of every reachable state -/

/-- **The derivation tree is well formed** in every state reached from `new`: parents are
live, chains of parents end, empty slots are empty, the walk of `is_descendant` never
reaches its cycle guard and no operation indexes the table out of bounds. -/
theorem mdb_wellFormed {N : Nat} {tr : List Event} {cs : CSpace N}
    (hrun : Run Step CSpace.new tr cs) :
    (∀ d, cs.Live d → (cs.slot d).parent = NIL ∨
      ∃ p, (cs.slot d).parent = some p ∧ p < N ∧ p ≠ d ∧ cs.Live p) ∧
    (∀ d, cs.Live d → (∃ k, Forest.climb (fun x => (cs.slot x).parent) k d = none) ∧
      ∀ k, Forest.climb (fun x => (cs.slot x).parent) (k + 1) d ≠ some d) ∧
    (∀ d, ¬ cs.Live d → cs.slot d = .EMPTY) ∧
    (∀ d a, d < N → ∃ exit, CSpace.ascend a (N + 1) d cs = .ok exit cs ∧ exit ≠ .cycleGuard) ∧
    (∀ (c : Call) (t : CSpace N), c.exec cs ≠ .error .oob t) ∧
    (∀ (b : Boot) (t : CSpace N), b.slot < N → b.exec cs ≠ .error .oob t) ∧
    (∀ (M : Nat) (other : CSpace M) (srcSlot dstSlot : Nat) (newRights : Rights) (badge : U64)
      (mode : GrantMode),
      (∀ s, grant srcSlot dstSlot newRights badge mode (cs, other) ≠ .error .oob s) ∧
      (∀ s, grant srcSlot dstSlot newRights badge mode (other, cs) ≠ .error .oob s)) := by
  obtain ⟨F, h⟩ := reachable_tree hrun
  have hpar : F.par = fun x => (cs.slot x).parent := funext h.par
  refine ⟨?_, ?_, ?_, ?_, call_ne_oob h, fun b t hb => boot_ne_oob cs b hb t,
    fun M other s d r b m => ⟨grant_ne_oob cs other s d r b m, grant_ne_oob other cs s d r b m⟩⟩
  · intro d _
    cases hp : (cs.slot d).parent with
    | none => exact Or.inl rfl
    | some p =>
      have hlp : cs.Live p := (h.parent_live d p hp).2
      exact Or.inr ⟨p, rfl, hlp.lt, fun e => F.par_ne_self d (by rw [h.par d, hp, e]), hlp⟩
  · intro d _
    rw [← hpar]
    exact ⟨F.climb_reaches d, fun k => F.climb_succ_ne_self k d⟩
  · intro d hd
    exact h.empty d (isNull_of_not_live cs d hd)
  · intro d a hd
    have hends := (ascend_ne_cycleGuard h a d hd).exists_ok
    obtain ⟨exit, t, hexit, rfl, hne, -⟩ := hends
    exact ⟨exit, hexit, hne⟩

/-- A space with a frame carved from its `Untyped`, a copy of the frame and a mint of the
copy, and how it came about. -/
def frameFamily : List Event × CSpace 4 :=
  (drive next CSpace.new [.boot (.rootUntyped 0 64), .call (.retype 0 .frame 1 1 1),
    .call (.copy 1 2), .call (.mint 2 3 Rights.READ 0)]).get (by decide)

theorem frameFamily_run : Run Step CSpace.new frameFamily.1 frameFamily.2 :=
  run_of_drive step_of_next _ _ frameFamily (Option.some_get _).symm

theorem mdb_wellFormed_frameFamily :
    frameFamily.2.Live 3 ∧
      ∃ p, (frameFamily.2.slot 3).parent = some p ∧ p < 4 ∧ p ≠ 3 ∧ frameFamily.2.Live p := by
  have hlive : frameFamily.2.Live 3 := by decide
  have hroot : (frameFamily.2.slot 3).parent ≠ NIL := by decide
  exact ⟨hlive, ((mdb_wellFormed frameFamily_run).1 3 hlive).resolve_left hroot⟩

end Praesidium
