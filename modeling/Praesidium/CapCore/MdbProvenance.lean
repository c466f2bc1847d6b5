import Praesidium.CapCore.MdbExact
import Praesidium.Lib.Lineage

/-!
Provenance along runs of one capability space.

The table stores one parent index per slot, and slots are reused.  To say that a
capability is derived from another one across moves, deletions and reuse, a run is
tracked: every capability that comes to exist gets a new instance number, a move
takes the number along, and each retype, mint, split and copy logs a link.  Tracking
only watches (`exists_tracked`).

A copy is a sibling of its source, so it starts a lineage only when the source was
a root; it always carries on the lineages of its source.

    Derived T.log (T.inst sx) (T.inst sy) → T.cs.Below sy sx        (provenance_kept)

so a revoke of the current slot of `x` leaves nothing derived from `x`.
-/

namespace Praesidium

open Fallible CSpace Lineage

variable {N : Nat}

/-! ## Tracking -/

/-- The derivations of an action that returned: source slot, new slot, and whether the
source itself is the new capability's ancestor. -/
def derivations (cs : CSpace N) : Action → List (Link Nat)
  | .call (.retype ut _ _ count dest) => (List.range count.toNat).map fun i => ⟨ut, dest + i, true⟩
  | .call (.mint src dest _ _) => [⟨src, dest, true⟩]
  | .call (.split src dest _) => [⟨src, dest, true⟩]
  | .call (.copy src dest) => [⟨src, dest, (cs.slot src).parent = NIL⟩]
  | _ => []

/-- The slots it fills with capabilities that are derived from none of this space. -/
def arrivals : Action → List Nat
  | .boot b => [b.slot]
  | .call (.mintReply dest _ _) => [dest]
  | .grantIn _ _ dstSlot _ _ _ => [dstSlot]
  | _ => []

def born (cs : CSpace N) (a : Action) : List Nat := (derivations cs a).map Link.dst ++ arrivals a

/-- Where the capability now in slot `d` was before. -/
def relocated : Action → Nat → Nat
  | .call (.moveCap src dest), d => if d = dest then src else d
  | _, d => d

/-- A space with the instance in each slot, a bound on the instances so far, and the log of
derivations. -/
structure Tracked (N : Nat) where
  cs : CSpace N
  inst : Nat → Nat
  fresh : Nat
  log : List (Link Nat)

namespace Tracked

def init : Tracked N := ⟨CSpace.new, fun _ => 0, 0, []⟩

def after (T : Tracked N) (a : Action) (cs' : CSpace N) : Tracked N where
  cs := cs'
  inst d := if d ∈ born T.cs a then T.fresh + d else T.inst (relocated a d)
  fresh := T.fresh + N
  log := T.log ++ (derivations T.cs a).map fun l => ⟨T.inst l.src, T.fresh + l.dst, l.strict⟩

def Step (T : Tracked N) (ev : Event) (T' : Tracked N) : Prop :=
  ∃ cs', Praesidium.Step T.cs ev cs' ∧ T' = match ev.ret with
    | .ok _ => T.after ev.act cs'
    | .error _ => { T with cs := cs' }

/-- The tracked step an action takes. -/
def next (T : Tracked N) (a : Action) : Option (Event × Tracked N) :=
  (Praesidium.next T.cs a).map fun r => (r.1, match r.1.ret with
    | .ok _ => T.after r.1.act r.2
    | .error _ => { T with cs := r.2 })

theorem step_of_next (T : Tracked N) (a : Action) (ev : Event) (T' : Tracked N)
    (h : T.next a = some (ev, T')) : T.Step ev T' := by
  obtain ⟨r, hr, he⟩ := Option.map_eq_some_iff.mp h
  cases he
  exact ⟨r.2, Praesidium.step_of_next T.cs a r.1 r.2 hr, rfl⟩

end Tracked

variable {cs cs' : CSpace N} {a : Action} {F : Forest Nat} {src dest : Nat} {v : Option U64}

/-- Every run can be tracked. -/
theorem exists_tracked {tr : List Event} (h : Run Step CSpace.new tr cs) :
    ∃ T : Tracked N, T.cs = cs ∧ Run Tracked.Step Tracked.init tr T := by
  refine h.inv_trace (fun tr cs => ∃ T : Tracked N, T.cs = cs ∧ Run Tracked.Step Tracked.init tr T)
    ⟨Tracked.init, rfl, .nil _⟩ ?_
  rintro tr _ ev v ⟨T, rfl, hrun⟩ hs
  cases hr : ev.ret with
  | ok r => exact ⟨T.after ev.act v, rfl, .snoc hrun ⟨v, hs, by rw [hr]⟩⟩
  | error e => exact ⟨{ T with cs := v }, rfl, .snoc hrun ⟨v, hs, by rw [hr]⟩⟩

/-! ## What tracking relies on -/

/-- New slots were empty, what was there before keeps its parent (under the new names), and
a derived capability hangs under its source or beside it. -/
structure Tracks (cs : CSpace N) (a : Action) (cs' : CSpace N) : Prop where
  born_lt : ∀ d ∈ born cs a, d < N
  born_free : ∀ d ∈ born cs a, ¬ cs.Live (relocated a d)
  kept : ∀ d, cs'.Live d → d ∉ born cs a →
    cs.Live (relocated a d) ∧ (cs'.slot d).parent.map (relocated a) =
    (cs.slot (relocated a d)).parent
  inj : ∀ d d', cs'.Live d → cs'.Live d' → relocated a d = relocated a d' → d = d'
  derives : ∀ l ∈ derivations cs a, cs.Live l.src ∧ cs'.Live l.src ∧ relocated a l.src = l.src ∧
    (cs'.slot l.dst).parent = if l.strict then some l.src else (cs'.slot l.src).parent

/-- Actions that move nothing. -/
theorem tracks_of_stay (hr : ∀ d, relocated a d = d) (hborn : ∀ d ∈ born cs a, d < N ∧ ¬ cs.Live d)
    (hkept : ∀ d, cs'.Live d → d ∉ born cs a → cs.Live d ∧ (cs'.slot d).parent = (cs.slot d).parent)
    (hder : ∀ l ∈ derivations cs a, cs.Live l.src ∧ cs'.Live l.src ∧
      (cs'.slot l.dst).parent = if l.strict then some l.src else (cs'.slot l.src).parent) :
    Tracks cs a cs' := by
  have hid : relocated a = id := funext hr
  refine ⟨fun d hd => (hborn d hd).1, fun d hd => ?_, fun d hl hd => ?_, fun d d' _ _ e =>
    ?_, fun l hl => ?_⟩
  · rw [hr]; exact (hborn d hd).2
  · rw [hid, Option.map_id]; exact hkept d hl hd
  · rwa [hr, hr] at e
  · obtain ⟨h1, h2, h3⟩ := hder l hl
    exact ⟨h1, h2, hr l.src, h3⟩

/-- A capability placed in an empty slot, the rest of the table kept up to its parents. -/
theorem tracks_of_place {d : Nat} (hr : ∀ k, relocated a k = k) (hb : born cs a = [d]) (hd : d < N)
    (hfree : ¬ cs.Live d)
    (hslot : ∀ k, k ≠ d → (cs'.slot k).parent = (cs.slot k).parent ∧ (cs'.Live k ↔ cs.Live k))
    (hder : ∀ l ∈ derivations cs a, cs.Live l.src ∧ (cs'.slot l.dst).parent = if l.strict then some
      l.src else (cs.slot l.src).parent) : Tracks cs a cs' := by
  refine tracks_of_stay hr ?_ ?_ ?_
  · intro k hk
    rw [hb, List.mem_singleton] at hk
    exact hk ▸ ⟨hd, hfree⟩
  · intro k hl hk
    rw [hb, List.mem_singleton] at hk
    exact ⟨(hslot k hk).2.mp hl, (hslot k hk).1⟩
  · intro l hl
    obtain ⟨h1, h2⟩ := hder l hl
    have hne : l.src ≠ d := fun e => hfree (e ▸ h1)
    exact ⟨h1, (hslot _ hne).2.mpr h1, by rw [h2, (hslot _ hne).1]⟩

theorem put_kept (cs : CSpace N) (d : Nat) (e : Cte) (hd : d < N) (k : Nat) (hk : k ≠ d) :
    ((cs.put d e).slot k).parent = (cs.slot k).parent ∧ ((cs.put d e).Live k ↔ cs.Live k) := by
  unfold CSpace.Live
  rw [slot_put cs d k e hd, if_neg hk]
  exact ⟨rfl, Iff.rfl⟩

theorem reclaimed_kept (cs : CSpace N) (c : Nat) (hl : cs.Live c) (k : Nat) :
    ((cs.reclaimed c).Live k ↔ cs.Live k) ∧ ((cs.reclaimed c).slot k).parent = (cs.slot k).parent :=
  ⟨live_reclaimed cs c k hl.lt, (touched_reclaimed c hl k).parent⟩

/-- A move takes the children's links along, so every link is the old one under the new
names. -/
theorem moved_tracks (hm : Moved cs src dest cs') (h : Tree cs.slot F) (hl : cs.Live src)
    (hne : dest ≠ src) (hfree : ¬ cs.Live dest) : Tracks cs (.call (.moveCap src dest)) cs' := by
  have hr : ∀ d, relocated (.call (.moveCap src dest)) d = if d = dest then src else d :=
    fun _ => rfl
  have hdead : ∀ d, cs'.Live d → d ≠ src := by
    rintro d hd rfl
    exact not_live_empty cs' d (by rw [hm.slot, if_pos rfl]) hd
  -- a live parent is not `dest`
  have hback : ∀ p, cs.Live p → relocated (.call (.moveCap src dest)) p = p ∧
      relocated (.call (.moveCap src dest)) (Forest.moved src dest p) = p := by
    intro p hp
    have hpd : p ≠ dest := fun e => hfree (e ▸ hp)
    refine ⟨by rw [hr, if_neg hpd], ?_⟩
    unfold Forest.moved
    by_cases e : p = src
    · rw [if_pos e, hr, if_pos rfl, e]
    · rw [if_neg e, hr, if_neg hpd]
  have hparent : ∀ d p, (cs.slot d).parent = some p → cs.Live p :=
    fun d p hp => (h.parent_live d p hp).2
  refine ⟨fun d hd => (by cases hd), fun d hd => (by cases hd), fun d hdl _ =>
    ?_, fun d d' hd hd' e => ?_, fun l hl => by cases hl⟩
  · rw [hr]
    by_cases e : d = dest
    · have hslot : cs'.slot d = cs.slot src := by rw [e, hm.slot, if_neg hne, if_pos rfl]
      rw [if_pos e, hslot]
      refine ⟨hl, ?_⟩
      cases hp : (cs.slot src).parent with
      | none => rfl
      | some p => rw [Option.map_some, (hback p (hparent src p hp)).1]
    · have hslot : cs'.slot d = reparented src dest (cs.slot d) := by
        rw [hm.slot, if_neg (hdead d hdl), if_neg e]
      unfold CSpace.Live at hdl ⊢
      rw [hslot, Tree.reparented_cap] at hdl
      rw [if_neg e, hslot, Tree.reparented_parent]
      refine ⟨hdl, ?_⟩
      cases hp : (cs.slot d).parent with
      | none => rfl
      | some p => rw [Option.map_some, Option.map_some, (hback p (hparent d p hp)).2]
  · rw [hr, hr] at e
    have h1 := hdead d hd
    have h2 := hdead d' hd'
    split at e <;> split at e <;> omega

theorem retyped_tracks {ut : Nat} {newType : CapType} {f count : U32}
    (hr : Retyped cs ut newType f count dest cs') :
    Tracks cs (.call (.retype ut newType f count dest)) cs' := by
  have hdst : ∀ d, d ∈ born cs (.call (.retype ut newType f count dest)) ↔ dest ≤ d ∧
    d < dest + count.toNat := by
    intro d
    simp only [born, derivations, arrivals, List.map_map, List.append_nil, List.mem_map,
      List.mem_range, Function.comp_apply]
    constructor
    · rintro ⟨i, hi, rfl⟩; omega
    · intro hd; exact ⟨d - dest, by omega, by omega⟩
  have hut : cs'.Live ut ∧ (cs'.slot ut).parent = (cs.slot ut).parent := by
    obtain ⟨w, -, hw⟩ := hr.charged
    unfold CSpace.Live
    rw [hw]
    exact ⟨hr.live, rfl⟩
  refine tracks_of_stay (fun _ => rfl) ?_ ?_ ?_
  · intro d hd
    rw [hdst] at hd
    have hfree := hr.free (d - dest) (by omega)
    have hstop := hr.stop
    rw [show dest + (d - dest) = d by omega] at hfree
    exact ⟨by omega, hfree⟩
  · intro d hl hd
    rw [hdst] at hd
    by_cases e : d = ut
    · rw [e]; exact ⟨hr.live, hut.2⟩
    · have hsame := hr.frame d e (by omega)
      unfold CSpace.Live at hl ⊢
      rw [hsame] at hl ⊢
      exact ⟨hl, rfl⟩
  · intro l hl
    obtain ⟨i, hi, rfl⟩ := List.mem_map.mp hl
    refine ⟨hr.live, hut.1, ?_⟩
    show (cs'.slot (dest + i)).parent = some ut
    rw [hr.made i (List.mem_range.mp hi)]

theorem split_tracks {amount : U32} (child parent : Budget) (next : U64) (hl : cs.Live src)
    (hd : dest < N) (hfree : ¬ cs.Live dest) :
    Tracks cs (.call (.split src dest amount))
      (cs.afterSplit src dest child parent next) := by
  have hne : src ≠ dest := fun e => hfree (e ▸ hl)
  have hslot := slot_split cs child parent next hl hd
  refine tracks_of_place (fun _ => rfl) rfl hd hfree ?_ ?_
  · intro k hk
    unfold CSpace.Live
    rw [hslot k, if_neg hk]
    by_cases e : k = src
    · rw [if_pos e, e]
      have := touched_withBudget src parent hl
      rw [this.isNull]
      exact ⟨this.parent, Iff.rfl⟩
    · rw [if_neg e]; exact ⟨rfl, Iff.rfl⟩
  · intro l hl'
    rw [List.mem_singleton.mp hl']
    refine ⟨hl, ?_⟩
    rw [hslot, if_neg (fun e => hne e.symm), if_pos rfl]
    rfl

/-- One capability is derived into an empty slot, and nothing else is written. -/
theorem put_tracks {l : Link Nat} {e : Cte} (hr : ∀ k, relocated a k = k)
    (hder : derivations cs a = [l]) (harr : arrivals a = []) (hl : cs.Live l.src) (hd : l.dst < N)
    (hfree : ¬ cs.Live l.dst)
    (hparent : e.parent = if l.strict then some l.src else (cs.slot l.src).parent) :
    Tracks cs a (cs.put l.dst e) := by
  have hborn : born cs a = [l.dst] := by
    rw [born, hder, harr]
    rfl
  refine tracks_of_place hr hborn hd hfree (fun k hk => put_kept cs l.dst e hd k hk) fun l' hl' =>
    ?_
  rw [hder, List.mem_singleton] at hl'
  subst hl'
  refine ⟨hl, ?_⟩
  rw [slot_put cs l'.dst l'.dst e hd, if_pos rfl]
  exact hparent

theorem call_tracks {c : Call} (h : Tree cs.slot F) (he : CallEffect cs c v cs') :
    Tracks cs (.call c) cs' := by
  cases he with
  | retype hr => exact retyped_tracks hr
  | @mint src dest _ _ hl _ _ hd hfree =>
    exact put_tracks (l := ⟨src, dest, true⟩) (fun _ => rfl) rfl rfl hl hd hfree rfl
  | @copy src dest hl _ hd hfree =>
    exact put_tracks (l := ⟨src, dest, (cs.slot src).parent = NIL⟩) (fun _ => rfl) rfl rfl hl hd
      hfree (by simp)
  | @stay src hl =>
    have hr : ∀ d, relocated (.call (.moveCap src src)) d = d := by
      intro d
      show (if d = src then src else d) = d
      by_cases e : d = src
      · rw [if_pos e, e]
      · rw [if_neg e]
    exact tracks_of_stay hr (fun d hd => by cases hd) (fun d hl _ =>
      ⟨hl, rfl⟩) (fun l hl => by cases hl)
  | moveCap hl hne hd hfree hm => exact moved_tracks hm h hl hne hfree
  | split hl ht hd hfree => exact split_tracks _ _ _ hl hd hfree
  | delegateSelf =>
    exact tracks_of_stay (fun _ => rfl) (fun d hd => by cases hd) (fun d hl _ =>
      ⟨hl, rfl⟩) (fun l hl => by cases hl)
  | @delegate src dest amount s d hne hl hl' =>
    refine tracks_of_stay (fun _ => rfl) (fun d hd => by cases hd) (fun k hk _ =>
      ?_) (fun l hl => by cases hl)
    have htouch := touched_delegate s d hl hl' k
    exact ⟨by unfold CSpace.Live at hk ⊢; rwa [htouch.isNull] at hk, htouch.parent⟩
  | mintReply hd hfree =>
    exact tracks_of_place (fun _ => rfl) rfl hd hfree (fun k hk => put_kept cs _ _ hd k hk)
      (fun l hl => by cases hl)
  | consumeReply hl _ hd =>
    refine tracks_of_stay (fun _ => rfl) (fun d hd => by cases hd) (fun k hk _ =>
      ?_) (fun l hl => by cases hl)
    obtain ⟨hne, hk'⟩ := (hd.live_iff k).mp hk
    exact ⟨hk', (hd.kept k hne).1⟩
  | @revoke c t hl hs =>
    have hlt := hs.live_self hl
    refine tracks_of_stay (fun _ => rfl) (fun d hd => by cases hd) (fun k hk _ =>
      ?_) (fun l hl => by cases hl)
    obtain ⟨h1, h2⟩ := reclaimed_kept t c hlt k
    obtain ⟨h3, h4, -⟩ := sweep_entry hs k (h1.mp hk)
    exact ⟨h3, by rw [h2, h4]⟩
  | @delete c t _ hl hs _ hd =>
    have hlt := hs.live_self hl
    refine tracks_of_stay (fun _ => rfl) (fun d hd => by cases hd) (fun k hk _ =>
      ?_) (fun l hl => by cases hl)
    obtain ⟨hne, hk'⟩ := (hd.live_iff k).mp hk
    obtain ⟨h1, h2⟩ := reclaimed_kept t c hlt k
    obtain ⟨h3, h4, -⟩ := sweep_entry hs k (h1.mp hk')
    exact ⟨h3, by rw [(hd.kept k hne).1, h2, h4]⟩

theorem effect_tracks (h : Tree cs.slot F) (he : Effect cs a v cs') : Tracks cs a cs' := by
  cases he with
  | boot hfree hb =>
    refine tracks_of_place (fun _ => rfl) rfl hb.inRange hfree (fun k hk =>
      ?_) (fun l hl => by cases hl)
    unfold CSpace.Live
    rw [hb.slot k, if_neg hk]
    exact ⟨rfl, Iff.rfl⟩
  | call _ he => exact call_tracks h he
  | @grantOut _ _ _ srcSlot _ _ _ mode _ hg =>
    refine tracks_of_stay (fun _ => rfl) (fun d hd => by cases hd) (fun k hk _ =>
      ?_) (fun l hl => by cases hl)
    rw [hg.src] at hk ⊢
    by_cases hm : mode = .move
    · rw [if_pos hm] at hk ⊢
      have hne : k ≠ srcSlot := by
        rintro rfl
        exact not_live_empty _ k (by rw [slot_put cs k k _ hg.live.lt, if_pos rfl]) hk
      obtain ⟨h1, h2⟩ := put_kept cs srcSlot .EMPTY hg.live.lt k hne
      exact ⟨h2.mp hk, h1⟩
    · rw [if_neg hm] at hk ⊢
      exact ⟨hk, rfl⟩
  | @grantIn _ _ _ _ dstSlot _ _ _ _ hg =>
    refine tracks_of_place (fun _ => rfl) rfl hg.inRange hg.free (fun k hk =>
      ?_) (fun l hl => by cases hl)
    rw [hg.dst]
    exact put_kept cs dstSlot _ hg.inRange k hk

/-! ## Descent along a step -/

/-- What stays keeps its descent. -/
theorem Tracks.below {F' : Forest Nat} (ht : Tracks cs a cs') (h : Tree cs.slot F)
    (h' : Tree cs'.slot F') (x y : Nat) (hx : cs'.Live x) (hy : cs'.Live y) (hyb : y ∉ born cs a)
    (hd : cs.Below (relocated a y) (relocated a x)) : cs'.Below y x := by
  -- by induction along the links up from `y`
  generalize hw : relocated a y = w at hd
  induction hd using Relation.TransGen.head_induction_on generalizing y with
  | single hp =>
    obtain ⟨-, hpar⟩ := ht.kept y hy hyb
    rw [hw, hp] at hpar
    obtain ⟨q, hq, hqx⟩ := Option.map_eq_some_iff.mp hpar
    have hql : cs'.Live q := (h'.parent_live y q hq).2
    have hqx' : q = x := ht.inj q x hql hx hqx
    exact Relation.TransGen.single (by rw [hq, hqx'])
  | @head w p hp _ ih =>
    obtain ⟨-, hpar⟩ := ht.kept y hy hyb
    rw [hw, hp] at hpar
    obtain ⟨q, hq, hqp⟩ := Option.map_eq_some_iff.mp hpar
    have hql : cs'.Live q := (h'.parent_live y q hq).2
    have hpl : cs.Live p := (h.parent_live w p hp).2
    have hqb : q ∉ born cs a := fun hb => ht.born_free q hb (hqp ▸ hpl)
    exact Relation.TransGen.head hq (ih q hql hqb hqp)

/-! ## The invariant -/

structure Tracked.Inv (T : Tracked N) : Prop where
  tree : ∃ F, Tree T.cs.slot F
  inst_lt : ∀ d, T.cs.Live d → T.inst d < T.fresh
  inst_inj : ∀ d d', T.cs.Live d → T.cs.Live d' → T.inst d = T.inst d' → d = d'
  log_lt : ∀ e ∈ T.log, e.src < T.fresh ∧ e.dst < T.fresh
  below : ∀ x y, T.cs.Live x → T.cs.Live y → Derived T.log (T.inst x) (T.inst y) → T.cs.Below y x

theorem Tracked.inv_init : (Tracked.init : Tracked N).Inv := by
  have hdead : ∀ d, ¬ (CSpace.new : CSpace N).Live d := fun d => not_live_empty _ d (slot_new d)
  exact ⟨⟨_, Tree.nil⟩, fun d hd => absurd hd (hdead d), fun d _ hd => absurd hd (hdead d),
    fun e he => (by cases he), fun x _ hx => absurd hx (hdead x)⟩

section After

variable {T : Tracked N} {cs' : CSpace N} {a : Action}

theorem inst_of_born (d : Nat) (hd : d ∈ born T.cs a) : (T.after a cs').inst d = T.fresh + d :=
  if_pos hd

theorem inst_of_kept (d : Nat) (hd : d ∉ born T.cs a) :
    (T.after a cs').inst d = T.inst (relocated a d) := if_neg hd

section

variable (ht : Tracks T.cs a cs') (hi : T.Inv)

include ht hi

theorem Tracks.inst_lt (d : Nat) (hl : cs'.Live d) (hd : d ∉ born T.cs a) :
    T.inst (relocated a d) < T.fresh :=
  hi.inst_lt _ (ht.kept d hl hd).1

/-- The links a step logs lead from old instances to new ones. -/
theorem Tracks.links (e : Link Nat)
    (he : e ∈ (derivations T.cs a).map fun l => ⟨T.inst l.src, T.fresh + l.dst, l.strict⟩) :
    e.src < T.fresh ∧ ¬ e.dst < T.fresh ∧ e.dst < T.fresh + N := by
  obtain ⟨l, hl, rfl⟩ := List.mem_map.mp he
  have hb : l.dst ∈ born T.cs a := List.mem_append_left _ (List.mem_map_of_mem hl)
  have hlt := ht.born_lt _ hb
  have hsrc := hi.inst_lt _ (ht.derives l hl).1
  show T.inst l.src < T.fresh ∧ ¬ T.fresh + l.dst < T.fresh ∧ T.fresh + l.dst < T.fresh + N
  omega

theorem Tracks.log_src (e : Link Nat) (he : e ∈ (T.after a cs').log) :
    e.src < T.fresh := by
  rcases List.mem_append.mp he with he | he
  · exact (hi.log_lt e he).1
  · exact (ht.links hi e he).1

theorem Tracks.inst_inj (d d' : Nat) (hd : cs'.Live d) (hd' : cs'.Live d')
    (e : (T.after a cs').inst d = (T.after a cs').inst d') : d = d' := by
  by_cases hb : d ∈ born T.cs a
  · by_cases hb' : d' ∈ born T.cs a
    · rw [inst_of_born d hb, inst_of_born d' hb'] at e
      omega
    · rw [inst_of_born d hb, inst_of_kept d' hb'] at e
      have := ht.inst_lt hi d' hd' hb'
      omega
  · by_cases hb' : d' ∈ born T.cs a
    · rw [inst_of_kept d hb, inst_of_born d' hb'] at e
      have := ht.inst_lt hi d hd hb
      omega
    · rw [inst_of_kept d hb, inst_of_kept d' hb'] at e
      exact ht.inj d d' hd hd' (hi.inst_inj _ _ (ht.kept d hd hb).1 (ht.kept d' hd' hb').1 e)

/-- A new capability is below whatever its link derives it from. -/
theorem Tracks.below_born {F F' : Forest Nat} (h : Tree T.cs.slot F)
    (h' : Tree cs'.slot F') (x : Nat) (hx : cs'.Live x) (hxb : x ∉ born T.cs a) (l : Link Nat)
    (hl : l ∈ derivations T.cs a)
    (hd : (l.strict = true ∧ T.inst l.src = T.inst (relocated a x)) ∨
      Derived T.log (T.inst (relocated a x)) (T.inst l.src)) : cs'.Below l.dst x := by
  obtain ⟨hsl, hsl', hsr, hpar⟩ := ht.derives l hl
  have hxl := (ht.kept x hx hxb).1
  have hsb : l.src ∉ born T.cs a := fun hb => ht.born_free _ hb (by rw [hsr]; exact hsl)
  rcases hd with ⟨hstrict, hex⟩ | hds
  · have hxs : x = l.src := by
      refine ht.inj x l.src hx hsl' ?_
      rw [hsr]
      exact hi.inst_inj _ _ hxl hsl hex.symm
    rw [if_pos hstrict] at hpar
    exact Relation.TransGen.single (by rw [hpar, hxs])
  · have hup : cs'.Below l.src x := by
      refine ht.below h h' x l.src hx hsl' hsb ?_
      rw [hsr]
      exact hi.below _ _ hxl hsl hds
    by_cases hstrict : l.strict = true
    · rw [if_pos hstrict] at hpar
      exact Relation.TransGen.head hpar hup
    · -- a sibling of its source has the same first link up
      rw [if_neg hstrict] at hpar
      rcases Relation.TransGen.head'_iff.mp hup with ⟨p, hp, hrest⟩
      exact Relation.TransGen.head' (by rw [hpar, hp]) hrest

end

theorem Tracked.Inv.after (hi : T.Inv) (ht : Tracks T.cs a cs') (htree : ∃ F, Tree cs'.slot F) :
    (T.after a cs').Inv := by
  obtain ⟨F, h⟩ := hi.tree
  obtain ⟨F', h'⟩ := htree
  refine ⟨⟨F', h'⟩, ?_, ht.inst_inj hi, ?_, ?_⟩
  · intro d hd
    show _ < T.fresh + N
    by_cases hb : d ∈ born T.cs a
    · have := ht.born_lt d hb
      rw [inst_of_born d hb]
      omega
    · have := ht.inst_lt hi d hd hb
      rw [inst_of_kept d hb]
      omega
  · intro e he
    show e.src < T.fresh + N ∧ e.dst < T.fresh + N
    rcases List.mem_append.mp he with he | he
    · have := hi.log_lt e he
      omega
    · have := ht.links hi e he
      omega
  · intro x y hx hy hd
    -- whatever starts a lineage is older than this step
    have hxb : x ∉ born T.cs a := by
      intro hb
      obtain ⟨e, he, hex⟩ := hd.exists_src
      have := ht.log_src hi e he
      rw [hex, inst_of_born x hb] at this
      omega
    rw [inst_of_kept x hxb] at hd
    by_cases hyb : y ∈ born T.cs a
    · rw [inst_of_born y hyb] at hd
      obtain ⟨e, he, hey, hcase⟩ := derived_append_new (· < T.fresh) T.log _ (ht.log_src hi)
        (fun e he => (hi.log_lt e he).2) (fun e he => (ht.links hi e he).2.1) _ _ (by omega) hd
      obtain ⟨l, hl, rfl⟩ := List.mem_map.mp he
      have hly : l.dst = y := by
        have : T.fresh + l.dst = T.fresh + y := hey
        omega
      rw [← hly]
      exact ht.below_born hi h h' x hx hxb l hl hcase
    · rw [inst_of_kept y hyb] at hd
      have hyl := (ht.kept y hy hyb).1
      have hold := derived_append_old (· < T.fresh) T.log _ (ht.log_src hi) (fun e he =>
        (ht.links hi e he).2.1) _ _ (hi.inst_lt _ hyl) hd
      exact ht.below h h' x y hx hy hyb (hi.below _ _ (ht.kept x hx hxb).1 hyl hold)

end After

theorem Tracked.inv_step (T : Tracked N) (ev : Event) (T' : Tracked N) (hi : T.Inv)
    (hs : T.Step ev T') : T'.Inv := by
  obtain ⟨cs', hstep, rfl⟩ := hs
  obtain ⟨F, h⟩ := hi.tree
  rcases step_spec hstep with ⟨v, hv, he⟩ | ⟨e, hv, rfl⟩
  · rw [hv]
    exact hi.after (effect_tracks h he) (he.tree h)
  · rw [hv]
    exact hi

/-! ## Provenance -/

/-- **Provenance is never lost.**  In a tracked run the instance of a live slot is in no other
live slot; while `x` and `y` are live, `y` derived from `x` is below `x`; and after a revoke
of the slot of `x` nothing live is derived from `x`. -/
theorem provenance_kept {tr : List Event} {T : Tracked N}
    (hrun : Run Tracked.Step Tracked.init tr T) :
    (∀ s s', T.cs.Live s → T.cs.Live s' → T.inst s = T.inst s' → s = s') ∧
    (∀ sx sy, T.cs.Live sx → T.cs.Live sy → Derived T.log (T.inst sx) (T.inst sy) →
      T.cs.Below sy sx) ∧
    (∀ (sx : Nat) (v : Option U64) (T' : Tracked N), T.Step ⟨.call (.revoke sx), .ok v⟩ T' →
      ∀ sy, T'.cs.Live sy → ¬ Derived T'.log (T.inst sx) (T'.inst sy)) := by
  have hi : T.Inv := hrun.inv Tracked.Inv Tracked.inv_init Tracked.inv_step
  refine ⟨hi.inst_inj, hi.below, ?_⟩
  rintro sx v T' ⟨cs', hstep, rfl⟩ sy hsy hd
  obtain ⟨F, h⟩ := hi.tree
  have hexec : (Call.revoke sx).exec T.cs = .ok v cs' := (returned_eq_ok _ v cs').mp hstep.2
  obtain ⟨hsx, hsurv⟩ := revoke_survivor h hexec
  obtain ⟨hsy', hnb, -⟩ := hsurv sy hsy
  -- the revoke itself logs nothing and renumbers nothing
  have hlog : (T.after (.call (.revoke sx)) cs').log = T.log := List.append_nil _
  rw [hlog] at hd
  exact hnb (hi.below sx sy hsx hsy' hd)

/-- A frame, a mint of it, a copy of the mint, which moves; then the mint is deleted and its
slot is filled again. -/
def orphan : List Event × Tracked 6 :=
  (drive Tracked.next Tracked.init [.boot (.rootUntyped 0 64), .call (.retype 0 .frame 1 1 1),
    .call (.mint 1 2 (Rights.READ ||| Rights.DERIVE) 0), .call (.copy 2 3), .call (.moveCap 3 4),
    .call (.delete 2), .call (.retype 0 .endpoint 1 1 2)]).get (by decide +kernel)

theorem provenance_kept_orphan :
    orphan.2.cs.Live 1 ∧ orphan.2.cs.Live 4 ∧ Derived orphan.2.log (orphan.2.inst 1)
      (orphan.2.inst 4) ∧
      orphan.2.cs.Below 4 1 := by
  have hrun : Run Tracked.Step Tracked.init orphan.1 orphan.2 :=
    run_of_drive Tracked.step_of_next _ _ orphan (Option.some_get _).symm
  have hx : orphan.2.cs.Live 1 := by decide +kernel
  have hy : orphan.2.cs.Live 4 := by decide +kernel
  -- instance 7 is the frame, 14 its mint and 21 the copy of the mint
  have hmint : Derived orphan.2.log 7 14 := .start (e := ⟨7, 14, true⟩) (by decide +kernel) rfl
  have hcopy : Derived orphan.2.log 7 21 := .next (e := ⟨14, 21, false⟩) hmint (by decide +kernel)
  have hd : Derived orphan.2.log (orphan.2.inst 1) (orphan.2.inst 4) := by
    rw [show orphan.2.inst 1 = 7 by decide +kernel, show orphan.2.inst 4 = 21 by decide +kernel]
    exact hcopy
  exact ⟨hx, hy, hd, (provenance_kept hrun).2.1 1 4 hx hy hd⟩

end Praesidium
