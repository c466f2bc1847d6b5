import Praesidium.Abi.Encode
import Praesidium.Kernel.LoaderManifest
import Praesidium.System.Conservation

/-!
The loader's authority, over any sequence of loads.

`Reached cs scratch`: what the loader's space and the scratch cursor can be, from `authority` on
by loads that returned a process or an error.  `LoaderInv` holds there (`reached_inv`).

A load moves the two spaces by a run of four kinds of steps (`LoadEvent`).  Along such a run a
capability of the process comes from one the loader had or made (`loadRun_source`), the loader's
own capabilities stay (`loadRun_kept`), and CPU time is conserved (`loadRun_time`).
-/

namespace Praesidium

open Fallible CSpace

/-! ## Loads that return -/

/-- The program returned a value or an error, and left the state `t`. -/
def Exits {α : Type} (m : Load α) (s t : LoadState) : Prop :=
  (∃ a, m s = .ok a t) ∨ (∃ e, m s = .error (.err e) t)

/-- The loader's space and the scratch cursor, from boot on.  Every frame number is a 32-bit
word. -/
inductive Reached : CSpace LOADER_SLOTS → Nat → Prop
  | start {base : U32} {cs : CSpace LOADER_SLOTS} : base.toNat + 64 ≤ 2 ^ 32 →
      authority base CSpace.new = .ok () cs → Reached cs L_SCRATCH
  | load {s t : LoadState} {arch : U16} {image : List U8} {domainId : U64} {userAccessible : Bool} :
      Reached s.loader s.scratch → (∀ d, ¬ s.proc.Live d) →
      Exits (load arch image domainId userAccessible) s t → Reached t.loader t.scratch

/-! ## The invariant between loads -/

theorem authority_spec (base : U32) (hbase : base.toNat + 64 ≤ 2 ^ 32) :
    Ends (authority base) CSpace.new (fun _ cs => LoaderInv cs L_SCRATCH) (fun _ _ => True) := by
  unfold authority setRootUntyped setRootSched
  simp only [ends_bind, ends_writeSlot, ends_takeObj, implies_true, true_and]
  intro h0 next hnext h1
  refine (retype_spec _ L_UNTYPED .endpoint 1 1 L_ENDPOINT).imp_any fun _ cs h => ?_
  have hcount : (1 : U32).toNat = 1 := rfl
  have hwide : (base.setWidth 64).toNat = base.toNat := by
    rw [BitVec.toNat_setWidth, Nat.mod_eq_of_lt (by omega)]
  generalize hcs : CSpace.put _ L_SCHED _ = cs₁ at h
  have hslot : ∀ d, cs₁.slot d = if d = L_SCHED then ⟨⟨.sched, Rights.DERIVE ||| Rights.GRANT, 1,
    1000, 0, 1000, 0⟩, NIL⟩
      else if d = 0 then ⟨⟨.untyped, Rights.RETYPE, base.setWidth 64, 64, 0, 0, 0⟩,
      NIL⟩ else .EMPTY := by
    intro d
    rw [← hcs, slot_put _ L_SCHED d _ h1]
    by_cases hd : d = L_SCHED
    · rw [if_pos hd, if_pos hd]
      rfl
    · rw [if_neg hd, if_neg hd]
      show (CSpace.put CSpace.new 0 _).slot d = _
      rw [slot_put _ 0 d _ h0, slot_new]
  have hroot : cs₁.slot L_UNTYPED = ⟨⟨.untyped, Rights.RETYPE, base.setWidth 64, 64, 0, 0, 0⟩,
    NIL⟩ := hslot L_UNTYPED
  have hsched : cs.slot L_SCHED = ⟨⟨.sched, Rights.DERIVE ||| Rights.GRANT, 1, 1000, 0, 1000, 0⟩,
    NIL⟩ := by
    rw [h.frame L_SCHED (by decide) (by decide), hslot L_SCHED, if_pos rfl]
  constructor
  case memory =>
    obtain ⟨watermark, hw, hut⟩ := h.charged
    rw [hroot] at hw hut
    change watermark.toNat = 0 + 1 * 1 at hw
    exact ⟨_, watermark, hut, by rw [hwide]; exact hbase, by omega⟩
  case time => exact ⟨_, _, hsched⟩
  case ids =>
    have hids : cs.nextObj.toNat = 2 := by
      rw [h.nextObj, ← hcs]
      exact hnext
    rw [hsched, hids]
    decide
  case endpoint => exact ⟨_, h.made 0 (by decide)⟩
  case low => exact Nat.le_refl _
  case free =>
    intro d hd
    unfold L_SCRATCH at hd
    refine not_live_empty cs d ?_
    rw [h.frame d (by unfold L_UNTYPED; omega) (by unfold L_ENDPOINT; omega), hslot,
      if_neg (by unfold L_SCHED; omega), if_neg (by omega)]

section Inv

variable {p : Pex} {user : Option U64} {s u t : LoadState} {n k : Nat}

variable {cs : CSpace LOADER_SLOTS} {scratch : Nat}

theorem LoaderInv.bump (h : LoaderInv cs scratch) : LoaderInv cs (scratch + 1) :=
  ⟨h.memory, h.time, h.ids, h.endpoint, Nat.le_succ_of_le h.low, fun d hd => h.free d (by omega)⟩

theorem Segments.inv (hinv : LoaderInv s.loader s.scratch) (hu : Segments p user s k u) :
    LoaderInv u.loader u.scratch := by
  have hsched := hu.fixed hinv (d := L_SCHED) (by decide) (by decide)
  have hep := hu.fixed hinv (d := L_ENDPOINT) (by decide) (by decide)
  constructor
  case memory =>
    obtain ⟨base, watermark₀, hroot, hbase, -⟩ := hinv.memory
    obtain ⟨watermark, hw, hslot⟩ := hu.untyped
    have hbudget := hu.budget
    refine ⟨base, watermark, by rw [hslot, hroot], hbase, by omega⟩
  case time => rw [hsched]; exact hinv.time
  case ids => rw [hsched, hu.nextObj]; exact hinv.ids
  case endpoint => rw [hep]; exact hinv.endpoint
  case low =>
    rw [hu.scratch]
    exact Nat.le_trans hinv.low (Nat.le_add_right _ _)
  case free => exact hu.free hinv

/-- CPU time leaves the root for scratch slots, with at least one unit for each new id. -/
theorem LoaderInv.spend {cs' : CSpace LOADER_SLOTS} {scratch' : Nat} (h : LoaderInv cs scratch)
    (hle : scratch ≤ scratch') {size : U32}
    (htime : cs'.slot L_SCHED =
      { cs.slot L_SCHED with cap := { (cs.slot L_SCHED).cap with size := size } })
    (hids : cs'.nextObj.toNat + size.toNat ≤ cs.nextObj.toNat + (cs.slot L_SCHED).cap.size.toNat)
    (hother : ∀ d, d ≠ L_SCHED → d < scratch → cs'.slot d = cs.slot d)
    (hfree : ∀ d, scratch' ≤ d → ¬ cs'.Live d) : LoaderInv cs' scratch' := by
  have hlow := h.low
  unfold L_SCRATCH at hlow
  constructor
  case memory =>
    rw [hother L_UNTYPED (by decide) (by unfold L_UNTYPED; omega)]
    exact h.memory
  case time =>
    obtain ⟨objref, size₀, hroot⟩ := h.time
    exact ⟨objref, size, by rw [htime, hroot]⟩
  case ids =>
    rw [htime]
    exact Nat.le_trans hids h.ids
  case endpoint =>
    rw [hother L_ENDPOINT (by decide) (by unfold L_ENDPOINT; omega)]
    exact h.endpoint
  case low => exact Nat.le_trans h.low hle
  case free => exact hfree

theorem Drawn.inv (hinv : LoaderInv u.loader u.scratch) (ht : Drawn p u n t) :
    LoaderInv t.loader t.scratch := by
  obtain ⟨size, hsize, hslot⟩ := ht.time
  have hscr := ht.scratch
  have hcount := ht.ids
  have hnext := ht.nextObj
  exact hinv.spend (by omega) hslot (by omega) ht.other fun d hd => ht.free d (by omega)

theorem SplitOff.inv {amount : U32} (hinv : LoaderInv u.loader u.scratch)
    (hs : SplitOff amount u t) :
    LoaderInv t.loader t.scratch := by
  have hlow := hinv.low
  unfold L_SCRATCH at hlow
  obtain ⟨size, hsize, hslot⟩ := hs.parent
  have hscr : t.scratch = u.scratch + 1 := by rw [hs.rest]
  have hpos := hs.pos
  have hnext := hs.nextObj
  refine hinv.spend (by omega) hslot (by omega) (fun d hd hlt => hs.other d hd (by omega)) fun d
    hd => ?_
  unfold Live
  rw [hs.other d (by unfold L_SCHED; omega) (by omega)]
  exact hinv.free d (by omega)

end Inv

/-! ## What a load does -/

/-- The steps of a load. -/
inductive LoadEvent (scratch : Nat) : SysEvent Party → Prop
  | retype {pages : U32} {d : Nat} : scratch ≤ d →
      LoadEvent scratch ⟨.call .owner (.retype L_UNTYPED .frame pages 1 d), .ok none⟩
  | manifest {ev : SysEvent Party} : ManifestEvent scratch ev → LoadEvent scratch ev

/-- The frames of a successful `retype` of the loader. -/
def retypes : SysEvent Party → Option Nat
  | ⟨.call .owner (.retype _ _ framesPerObj count _), .ok _⟩ =>
    some (framesPerObj.toNat * count.toNat)
  | _ => none

/-- The state `t` of a load from `s`, after the events `tr`, with `k` segments retyped. -/
structure Progress (p : Pex) (s : LoadState) (k : Nat) (tr : List (SysEvent Party))
    (t : LoadState) : Prop where
  run : Run SysStep s.spaces tr t.spaces
  events : ∀ ev ∈ tr, LoadEvent s.scratch ev
  pages : tr.filterMap retypes = (List.range k).map p.pages
  watermark : (t.loader.slot L_UNTYPED).cap.watermark.toNat =
    (s.loader.slot L_UNTYPED).cap.watermark.toNat + p.pagesUpTo k
  inv : LoaderInv t.loader t.scratch

section Progress

variable {p : Pex} {user : Option U64} {s u t : LoadState} {n k : Nat} {tr : List (SysEvent Party)}

theorem Segments.progress (hinv : LoaderInv s.loader s.scratch)
    (hpages : ∀ i, i < k → p.pages i ≤ 4096) (hu : Segments p user s k u) :
    Progress p s k ((List.range k).map (s.segEvent p)) u := by
  refine ⟨hu.run, fun ev hev => ?_, ?_, ?_, hu.inv hinv⟩
  · obtain ⟨i, -, rfl⟩ := List.mem_map.mp hev
    exact .retype (Nat.le_add_right _ _)
  · rw [List.filterMap_map]
    refine List.filterMap_eq_map_iff_forall_eq_some.mpr (fun i hi => ?_)
    have hle := hpages i (List.mem_range.mp hi)
    show some ((BitVec.ofNat 32 (p.pages i)).toNat * 1) = some (p.pages i)
    rw [BitVec.toNat_ofNat, Nat.mod_eq_of_lt (by omega), Nat.mul_one]
  · obtain ⟨watermark, hw, hslot⟩ := hu.untyped
    rw [hslot]
    exact hw

/-- A scratch slot is taken and not used. -/
theorem Progress.bump (h : Progress p s k tr t) (casts : List (U64 × U32)) :
    Progress p s k tr { t with scratch := t.scratch + 1, casts := casts } :=
  ⟨h.run, h.events, h.pages, h.watermark, h.inv.bump⟩

variable {scratch : Nat} {ev : SysEvent Party}

theorem retypes_manifest (h : ManifestEvent scratch ev) : retypes ev = none := by
  cases h <;> rfl

theorem ManifestEvent.mono {scratch' : Nat} (hle : scratch ≤ scratch')
    (h : ManifestEvent scratch' ev) : ManifestEvent scratch ev := by
  cases h with
  | split hd => exact .split (Nat.le_trans hle hd)
  | move hd => exact .move (Nat.le_trans hle hd)
  | mint => exact .mint

/-- More events of the manifest loop. -/
theorem Progress.append (h : Progress p s k tr u) {tr' : List (SysEvent Party)}
    (hrun : Run SysStep u.spaces tr' t.spaces) (hev : ∀ ev ∈ tr', ManifestEvent s.scratch ev)
    (hslot : t.loader.slot L_UNTYPED = u.loader.slot L_UNTYPED)
    (hinv : LoaderInv t.loader t.scratch) : Progress p s k (tr ++ tr') t := by
  refine ⟨h.run.append hrun, fun ev hmem => ?_, ?_, by rw [hslot]; exact h.watermark, hinv⟩
  · rcases List.mem_append.mp hmem with hmem | hmem
    · exact h.events ev hmem
    · exact .manifest (hev ev hmem)
  · have hnone : tr'.filterMap retypes = [] :=
      List.filterMap_eq_nil_iff.mpr fun ev hmem => retypes_manifest (hev ev hmem)
    rw [List.filterMap_append, hnone, List.append_nil]
    exact h.pages

theorem Progress.drawn (hle : s.scratch ≤ u.scratch) (h : Progress p s k tr u)
    (ht : Drawn p u n t) : ∃ tr', Progress p s k tr' t := by
  obtain ⟨tr', hrun, hev⟩ := ht.run
  have hlow := h.inv.low
  unfold L_SCRATCH at hlow
  exact ⟨_, h.append hrun (fun ev hmem => (hev ev hmem).mono hle)
    (ht.other _ (by decide) (by unfold L_UNTYPED; omega)) (ht.inv h.inv)⟩

theorem Progress.splitOff {amount : U32} (hle : s.scratch ≤ u.scratch) (h : Progress p s k tr u)
    (hs : SplitOff amount u t) : ∃ tr', Progress p s k tr' t := by
  have hlow := h.inv.low
  unfold L_SCRATCH at hlow
  refine ⟨_, h.append ((Run.nil _).snoc (sysStep_call (exec_split hs.call) (by rw [hs.rest])))
    (fun ev hmem => ?_) (hs.other _ (by decide) (by unfold L_UNTYPED; omega)) (hs.inv h.inv)⟩
  cases List.mem_singleton.mp hmem
  exact .split hle

end Progress

section Exits

variable {s t : LoadState} {arch : U16} {image : List U8} {domainId : U64} {userAccessible : Bool}

section

variable (hinv : LoaderInv s.loader s.scratch)
  (hx : Exits (load arch image domainId userAccessible) s t)

include hinv hx

/-- **Every exit of a load** is one after `k` segments and `n` manifest entries, with at most one
more scratch slot taken
and at most one child split off. -/
theorem load_exits :
    ∃ k n u t₀, k ≤ (Pex.view image).segCount ∧ (0 < k → WellFormed image arch) ∧
      Segments (Pex.view image) (if userAccessible then some domainId else none) s k u ∧
        Drawn (Pex.view image) u n t₀ ∧
      (t = t₀ ∨ t = { t₀ with scratch := t₀.scratch + 1, casts := t.casts } ∨
        SplitOff ((Pex.view image).amount n) t₀ t) := by
  have hspec := load_spec image arch domainId userAccessible hinv
  rcases hx with ⟨l, hl⟩ | ⟨e, he⟩
  · obtain ⟨hw, hdone⟩ := hspec.ok hl
    obtain ⟨u, hu, ht⟩ := hdone.drawn
    exact ⟨_, _, u, t, Nat.le_refl _, fun _ => hw, hu, ht, Or.inl rfl⟩
  · rcases hspec.error he with ⟨-, -, -, rfl⟩ | ⟨hw,
      (⟨h, -⟩ | ⟨-, k, u, hk, hu, ht⟩) | (⟨h, -⟩ | ⟨-, u, n, t₀, -, hu, -, hd, ht⟩)⟩
    · have h0 : Segments (Pex.view image) (if userAccessible then some domainId else none) t 0 t :=
        .zero _ hinv
      exact ⟨0, 0, t, t, Nat.zero_le _, fun h => absurd h (Nat.lt_irrefl 0), h0, .zero hinv h0,
        Or.inl rfl⟩
    · cases h
    · refine ⟨k, 0, u, u, Nat.le_of_lt hk, fun _ => hw, hu, .zero hinv hu, ?_⟩
      rcases ht with ht | ht
      · exact Or.inl ht
      · exact Or.inr (Or.inl (by rw [ht]))
    · cases h
    · exact ⟨_, n, u, t₀, Nat.le_refl _, fun _ => hw, hu, hd, ht⟩

/-- The exits in steps of the two spaces. -/
theorem load_progress :
    ∃ k tr, k ≤ (Pex.view image).segCount ∧ Progress (Pex.view image) s k tr t := by
  obtain ⟨k, n, u, t₀, hk, hw, hu, hd, ht⟩ := load_exits hinv hx
  have hle : s.scratch ≤ u.scratch := by rw [hu.scratch]; exact Nat.le_add_right _ _
  have hle' : s.scratch ≤ t₀.scratch := by
    rw [hd.scratch]; exact Nat.le_trans hle (Nat.le_add_right _ _)
  have hp := hu.progress hinv fun i hi =>
    pages_le (hw (Nat.zero_lt_of_lt hi)) (Nat.lt_of_lt_of_le hi hk)
  obtain ⟨tr, htr⟩ := hp.drawn hle hd
  rcases ht with rfl | ht | hs
  · exact ⟨k, tr, hk, htr⟩
  · exact ⟨k, tr, hk, ht ▸ htr.bump _⟩
  · obtain ⟨tr', htr'⟩ := htr.splitOff hle' hs
    exact ⟨k, tr', hk, htr'⟩

end

end Exits

variable {scratch src dst : Nat} {S T : System loadSizes} {v : Option U64} {rights : Rights}
  {badge : U64} {mode : GrantMode}

/-- **The invariant holds between loads.** -/
theorem reached_inv {cs : CSpace LOADER_SLOTS} (h : Reached cs scratch) : LoaderInv cs scratch := by
  induction h with
  | start hbase hrun => exact (authority_spec _ hbase).ok hrun
  | load _ _ hx ih =>
    obtain ⟨k, tr, -, hp⟩ := load_progress ih hx
    exact hp.inv

/-! ## Runs of loader steps -/

theorem sysStep_call_owner {c : Call} (h : SysStep S ⟨.call .owner c, .ok v⟩ T) :
    CallEffect (S .owner) c v (T .owner) ∧ T .peer = S .peer := by
  rcases sysStep_spec h with ⟨v', hv, he⟩ | ⟨e, he, -⟩
  · cases hv
    cases he with
    | call _ heff =>
      rw [Function.update_self]
      exact ⟨heff, Function.update_of_ne (by decide) _ _⟩
  · cases he

theorem sysStep_grant_owner (h : SysStep S ⟨.grant .owner .peer src dst rights badge mode,
    .ok v⟩ T) : Granted (S .owner) src (S .peer) dst rights badge mode (T .owner) (T .peer) := by
  rcases sysStep_spec h with ⟨v', hv, he⟩ | ⟨e, he, -⟩
  · cases hv
    cases he with
    | grant hij hg =>
      rw [update_two_left S hij, update_two_right]
      exact hg
  · cases he

/-- What may differ between two records of one capability over a load. -/
def SameCap (a b : RawCap) : Prop :=
  a.capType = b.capType ∧ a.objref = b.objref ∧ a.rights = b.rights ∧ a.badge = b.badge

/-- `a` has the type and the object of `src`, and no more rights. -/
def Derives (a src : RawCap) : Prop :=
  a.capType = src.capType ∧ a.objref = src.objref ∧ a.rights.subsetOf src.rights = true

theorem SameCap.refl (a : RawCap) : SameCap a a := ⟨rfl, rfl, rfl, rfl⟩

theorem SameCap.derives {a b src : RawCap} (h : SameCap a b) (hd : Derives b src) : Derives a src :=
  ⟨h.1.trans hd.1, h.2.1.trans hd.2.1, by rw [h.2.2.1]; exact hd.2.2⟩

theorem Derives.refl (a : RawCap) : Derives a a := ⟨rfl, rfl, Rights.subsetOf_refl _⟩

/-- The event is a successful RETYPE or SPLIT on the loader's space. -/
def Creates : SysEvent Party → Prop
  | ⟨.call .owner (.retype _ _ _ _ _), .ok _⟩ => True
  | ⟨.call .owner (.split _ _ _), .ok _⟩ => True
  | _ => False

/-- What one step of a load can do: the loader's slot `d` keeps its capability, is filled, or is
emptied by a move; the process's slot keeps its capability or gets one derived from the loader. -/
structure LoadEffect (scratch : Nat) (ev : SysEvent Party) (S T : System loadSizes) : Prop where
  owner : ∀ d, (T .owner).Live d →
    ((S .owner).Live d ∧ SameCap ((T .owner).slot d).cap ((S .owner).slot d).cap) ∨
      (¬ (S .owner).Live d ∧ Creates ev)
  kept : ∀ d, (S .owner).Live d → d < scratch → (T .owner).Live d ∧
    SameCap ((T .owner).slot d).cap ((S .owner).slot d).cap
  peer : ∀ d, (T .peer).Live d →
    ((S .peer).Live d ∧ (T .peer).slot d = (S .peer).slot d) ∨
      ∃ e, (S .owner).Live e ∧ Derives ((T .peer).slot d).cap ((S .owner).slot e).cap

/-- The loader's slots, when one was filled and at most one other rewritten. -/
theorem filled_effect {N : Nat} {cs : CSpace N} (cs' : CSpace N) {a d : Nat} (ha : cs.Live a)
    (hd : ¬ cs.Live d) (hsame : SameCap (cs'.slot a).cap (cs.slot a).cap)
    (hother : ∀ e, e ≠ a → e ≠ d → cs'.slot e = cs.slot e) :
    (∀ e, cs'.Live e → (cs.Live e ∧ SameCap (cs'.slot e).cap (cs.slot e).cap) ∨ ¬ cs.Live e) ∧
      ∀ e, cs.Live e → cs'.Live e ∧ SameCap (cs'.slot e).cap (cs.slot e).cap := by
  have hkept : ∀ e, cs.Live e → cs'.Live e ∧ SameCap (cs'.slot e).cap (cs.slot e).cap := by
    intro e he
    by_cases hea : e = a
    · subst hea
      refine ⟨?_, hsame⟩
      unfold Live RawCap.isNull at ha ⊢
      rw [hsame.1]
      exact ha
    · have hed : e ≠ d := fun h => hd (h ▸ he)
      unfold Live
      rw [hother e hea hed]
      exact ⟨he, SameCap.refl _⟩
  refine ⟨fun e he => ?_, hkept⟩
  by_cases hl : cs.Live e
  · exact Or.inl ⟨hl, (hkept e hl).2⟩
  · exact Or.inr hl

theorem granted_effect (hmode : mode = .move → scratch ≤ src)
    (h : SysStep S ⟨.grant .owner .peer src dst rights badge mode, .ok none⟩ T) :
    LoadEffect scratch ⟨.grant .owner .peer src dst rights badge mode, .ok none⟩ S T := by
  have hg := sysStep_grant_owner h
  have howner : ∀ d, (mode = .move ∧ d = src ∧ ¬ (T .owner).Live d) ∨
    (T .owner).slot d = (S .owner).slot d := by
    intro d
    by_cases hm : mode = .move
    · have hsrc := hg.src
      rw [if_pos hm] at hsrc
      have hslot := slot_put (S .owner) src d .EMPTY hg.live.lt
      rw [← hsrc] at hslot
      by_cases hd : d = src
      · rw [if_pos hd] at hslot
        exact Or.inl ⟨hm, hd, not_live_empty _ _ hslot⟩
      · rw [if_neg hd] at hslot
        exact Or.inr hslot
    · have hsrc := hg.src
      rw [if_neg hm] at hsrc
      rw [hsrc]
      exact Or.inr rfl
  constructor
  case owner =>
    intro d hl
    rcases howner d with ⟨-, -, hnot⟩ | hslot
    · exact absurd hl hnot
    · unfold Live at hl
      rw [hslot] at hl ⊢
      exact Or.inl ⟨hl, SameCap.refl _⟩
  case kept =>
    intro d hl hlt
    rcases howner d with ⟨hm, rfl, -⟩ | hslot
    · exact absurd (hmode hm) (Nat.not_le_of_lt hlt)
    · unfold Live
      rw [hslot]
      exact ⟨hl, SameCap.refl _⟩
  case peer =>
    intro d hl
    have hslot :=
      slot_put (S .peer) dst d ⟨{ ((S .owner).slot src).cap with rights := rights, badge := badge },
      NIL⟩ hg.inRange
    rw [← hg.dst] at hslot
    by_cases hd : d = dst
    · rw [if_pos hd] at hslot
      rw [hslot]
      exact Or.inr ⟨src, hg.live, rfl, rfl, hg.narrowed⟩
    · rw [if_neg hd] at hslot
      unfold Live at hl
      rw [hslot] at hl ⊢
      exact Or.inl ⟨hl, rfl⟩

theorem loadEvent_effect {ev : SysEvent Party} (hev : LoadEvent scratch ev) (h : SysStep S ev T) :
    LoadEffect scratch ev S T := by
  cases hev with
  | @retype pages d hd =>
    obtain ⟨he, hp⟩ := sysStep_call_owner h
    cases he with
    | retype hr =>
      obtain ⟨watermark, -, hut⟩ := hr.charged
      have hfree := hr.free 0 (by decide)
      rw [Nat.add_zero] at hfree
      have hcount : (1 : U32).toNat = 1 := rfl
      obtain ⟨h1, h2⟩ := filled_effect (T .owner) (a := L_UNTYPED) (d := d) hr.live hfree
        (by rw [hut]; exact SameCap.refl _) (fun e h1 h2 => hr.frame e h1 (by omega))
      exact ⟨fun e he => (h1 e he).imp id fun hn => ⟨hn, trivial⟩, fun e he _ => h2 e he,
        fun e he => Or.inl (by rw [hp] at he ⊢; exact ⟨he, rfl⟩)⟩
  | manifest hev =>
    cases hev with
    | @split d amount hd =>
      obtain ⟨he, hp⟩ := sysStep_call_owner h
      generalize hT : T .owner = cs' at he
      cases he with
      | @split _ _ _ child parent next hl hty hdN hfree hs hnext =>
        have hslot := slot_split (S .owner) child parent next hl hdN
        obtain ⟨h1, h2⟩ := filled_effect (T .owner) (a := L_SCHED) (d := d) hl hfree
          (by rw [hT, hslot, if_pos rfl]; exact SameCap.refl _)
          (fun e h1 h2 => by rw [hT, hslot, if_neg h1, if_neg h2])
        exact ⟨fun e he => (h1 e he).imp id fun hn => ⟨hn, trivial⟩, fun e he _ => h2 e he,
          fun e he => Or.inl (by rw [hp] at he ⊢; exact ⟨he, rfl⟩)⟩
    | move hd => exact granted_effect (fun _ => hd) h
    | mint => exact granted_effect (fun hm => (by cases hm)) h

/-- A RETYPE or SPLIT of the loader made the capability `src` in an empty slot. -/
def CreatedBy (S : System loadSizes) (tr : List (SysEvent Party)) (src : RawCap) : Prop :=
  ∃ pre ev post u v d, tr = pre ++ ev :: post ∧ Run SysStep S pre u ∧ SysStep u ev v ∧ Creates ev ∧
    ¬ (u .owner).Live d ∧ (v .owner).Live d ∧ ((v .owner).slot d).cap = src

/-- The loader had the capability at the start, or one of its calls made it. -/
def LoaderHad (S : System loadSizes) (tr : List (SysEvent Party)) (src : RawCap) : Prop :=
  (∃ d, (S .owner).Live d ∧ ((S .owner).slot d).cap = src) ∨ CreatedBy S tr src

theorem LoaderHad.snoc {tr : List (SysEvent Party)} {src : RawCap} (h : LoaderHad S tr src)
    (ev : SysEvent Party) : LoaderHad S (tr ++ [ev]) src := by
  refine h.imp id ?_
  rintro ⟨pre, ev', post, u, v, d, rfl, hrest⟩
  exact ⟨pre, ev', post ++ [ev], u, v, d, by simp, hrest⟩

section Runs

variable {scratch : Nat} {S T : System loadSizes} {tr : List (SysEvent Party)}

theorem SameCap.trans {a b c : RawCap} (h : SameCap a b) (h' : SameCap b c) : SameCap a c :=
  ⟨h.1.trans h'.1, h.2.1.trans h'.2.1, h.2.2.1.trans h'.2.2.1, h.2.2.2.trans h'.2.2.2⟩

theorem loadEvent_time {ev : SysEvent Party} (hev : LoadEvent scratch ev) (h : SysStep S ev T) :
    total schedSize T = total schedSize S := by
  have hmoves : ∀ v, ev.ret = .ok v → ev.act.Transfers → total schedSize T = total schedSize S := by
    intro v hv ht
    have heq := sysStep_total_eq schedTime h hv ht
    rwa [minting_schedTime, Nat.add_zero] at heq
  cases hev with
  | retype _ =>
    rcases sysStep_spec h with ⟨v, hv, he⟩ | ⟨e, he, -⟩
    · cases hv
      rcases sysEffect_total schedTime he with ⟨i, c, cs', hact, -, hc, hsum⟩ | ⟨i, j, a, b, r, g,
        m, hact, -⟩
      · cases hact
        cases hc with
        | retype hr =>
          have heq := hr.weigh_eq schedTime
          change total schedSize T + _ = total schedSize S + _ at hsum
          omega
      · cases hact
    · cases he
  | manifest hev =>
    cases hev with
    | split _ | move _ | mint => exact hmoves none rfl trivial

section

variable (hrun : Run SysStep S tr T) (hev : ∀ ev ∈ tr, LoadEvent scratch ev)

include hrun hev

/-- **Every capability derives from one the loader had or made.** -/
theorem loadRun_source (hempty : ∀ d, ¬ (S .peer).Live d) :
    (∀ d, (T .owner).Live d → ∃ src, LoaderHad S tr src ∧ Derives ((T .owner).slot d).cap src) ∧
      ∀ d, (T .peer).Live d → ∃ src, LoaderHad S tr src ∧ Derives ((T .peer).slot d).cap src := by
  induction hrun with
  | nil =>
    exact ⟨fun d hd => ⟨_, Or.inl ⟨d, hd, rfl⟩, Derives.refl _⟩, fun d hd => absurd hd (hempty d)⟩
  | @snoc u v tr ev hrun hs ih =>
    obtain ⟨ihowner, ihpeer⟩ := ih fun e he => hev e (List.mem_append_left _ he)
    have heff := loadEvent_effect (hev ev (List.mem_append_right _ (List.mem_singleton.mpr rfl))) hs
    refine ⟨fun d hd => ?_, fun d hd => ?_⟩
    · rcases heff.owner d hd with ⟨hl, hsame⟩ | ⟨hfree, hcall⟩
      · obtain ⟨src, hsrc, hder⟩ := ihowner d hl
        exact ⟨src, hsrc.snoc ev, hsame.derives hder⟩
      · exact ⟨_, Or.inr ⟨tr, ev, [], u, v, d, rfl, hrun, hs, hcall, hfree, hd, rfl⟩,
          Derives.refl _⟩
    · rcases heff.peer d hd with ⟨hl, hslot⟩ | ⟨e, hl, hder⟩
      · obtain ⟨src, hsrc, hder⟩ := ihpeer d hl
        rw [hslot]
        exact ⟨src, hsrc.snoc ev, hder⟩
      · obtain ⟨src, hsrc, hder'⟩ := ihowner e hl
        exact ⟨src, hsrc.snoc ev, hder.1.trans hder'.1, hder.2.1.trans hder'.2.1,
          Rights.subsetOf_trans hder.2.2 hder'.2.2⟩

/-- **The loader keeps its capabilities.** -/
theorem loadRun_kept (hfree : ∀ d, scratch ≤ d → ¬ (S .owner).Live d) (d : Nat)
    (hd : (S .owner).Live d) :
    (T .owner).Live d ∧ SameCap ((T .owner).slot d).cap ((S .owner).slot d).cap := by
  have hlt : d < scratch := Nat.lt_of_not_le fun h => hfree d h hd
  induction hrun with
  | nil => exact ⟨hd, SameCap.refl _⟩
  | snoc hrun hs ih =>
    obtain ⟨hl, hsame⟩ := ih fun e he => hev e (List.mem_append_left _ he)
    have heff := loadEvent_effect (hev _ (List.mem_append_right _ (List.mem_singleton.mpr rfl))) hs
    obtain ⟨hl', hsame'⟩ := heff.kept d hl hlt
    exact ⟨hl', hsame'.trans hsame⟩

/-- **CPU time is conserved.** -/
theorem loadRun_time :
    total schedSize T = total schedSize S := by
  induction hrun with
  | nil => rfl
  | snoc hrun hs ih =>
    have heq := loadEvent_time (hev _ (List.mem_append_right _ (List.mem_singleton.mpr rfl))) hs
    exact heq.trans (ih fun e he => hev e (List.mem_append_left _ he))

end

theorem total_spaces (w : RawCap → Nat) (s : LoadState) :
    total w s.spaces = s.loader.weigh w + s.proc.weigh w := by
  unfold total
  rw [show (Finset.univ : Finset Party) = {.owner, .peer} from rfl, Finset.sum_pair (by decide)]
  rfl

end Runs

/-- **An image gains no authority beyond the loader's.**  Whether the load returns a process or an
error: what the
process holds derives from what the loader had or made; CPU time is conserved; the watermark grows
by the pages of the
segments retyped; and the loader keeps its capabilities. -/
theorem load_confined {s t : LoadState} (arch : U16) (image : List U8) (domainId : U64)
    (userAccessible : Bool) (hr : Reached s.loader s.scratch) (hempty : ∀ d, ¬ s.proc.Live d)
    (hx : Exits (load arch image domainId userAccessible) s t) :
    ∃ tr, Run SysStep s.spaces tr t.spaces ∧
      (∀ d, t.proc.Live d → ∃ src, LoaderHad s.spaces tr src ∧ Derives (t.proc.slot d).cap src) ∧
      t.loader.weigh schedSize + t.proc.weigh schedSize = s.loader.weigh schedSize ∧
      (∃ k, k ≤ (Pex.view image).segCount ∧ tr.filterMap retypes = (List.range k).map
        (Pex.view image).pages ∧
        (t.loader.slot L_UNTYPED).cap.watermark.toNat =
          (s.loader.slot L_UNTYPED).cap.watermark.toNat + (tr.filterMap retypes).sum) ∧
      (t.loader.slot L_UNTYPED).cap.watermark.toNat ≤ (t.loader.slot L_UNTYPED).cap.size.toNat ∧
      (∀ d, s.loader.Live d → t.loader.Live d ∧
        SameCap (t.loader.slot d).cap (s.loader.slot d).cap) := by
  have hinv := reached_inv hr
  obtain ⟨k, tr, hk, hp⟩ := load_progress hinv hx
  have hproc : s.proc.weigh schedSize = 0 := by
    refine Finset.sum_eq_zero fun d _ => ?_
    exact schedTime.w_null _ (isNull_of_not_live s.proc d (hempty d))
  refine ⟨tr, hp.run, (loadRun_source hp.run hp.events hempty).2, ?_, ⟨k, hk, hp.pages, ?_⟩, ?_,
    loadRun_kept hp.run hp.events hinv.free⟩
  · have htime := loadRun_time hp.run hp.events
    rw [total_spaces, total_spaces, hproc, Nat.add_zero] at htime
    exact htime
  · rw [hp.pages]
    exact hp.watermark
  · obtain ⟨base, watermark, hroot, -, hle⟩ := hp.inv.memory
    rw [hroot]
    exact hle

/-! ## A load from boot -/

/-- The loader's space at boot, on the 64 frames from number `0x100` on. -/
def bootLoader : CSpace LOADER_SLOTS :=
  match authority 0x100 CSpace.new with
  | .ok _ cs => cs
  | .error _ cs => cs

/-- The first load's state. -/
def bootState : LoadState := ⟨bootLoader, CSpace.new, L_SCRATCH, fun _ => 0, [], []⟩

theorem bootState_reached : Reached bootState.loader bootState.scratch := by
  have hbase : (0x100 : U32).toNat + 64 ≤ 2 ^ 32 := by decide
  exact .start hbase rfl

theorem bootState_empty (d : Nat) : ¬ bootState.proc.Live d := not_live_empty _ _ (slot_new d)

/-- The image of a description. -/
def imageOf (segs : List SegmentSpec) (man : List ManifestSpec) : List U8 :=
  match encode ARCH_X86_64 0x40000000 segs man (List.replicate 512 0) with
  | .ok n out => out.take n
  | .error _ _ => []

/-- Two pages of code and data, and one capability of each kind. -/
def demoImage : List U8 :=
  imageOf [⟨0x40000000, 0x1000, PERM_R ||| PERM_X, [0x0f, 0x05]⟩,
    ⟨0x40001000, 0x2000, PERM_R ||| PERM_W, [7]⟩]
    [⟨MANIFEST_SCHED, 0, Rights.DERIVE, 100, 0⟩, ⟨MANIFEST_ENDPOINT, 1, Rights.SEND, 7, 0⟩,
      ⟨MANIFEST_FRAME, 2, Rights.READ, 1, 0⟩]

/-- What a load returned, and the state it left. -/
def loadResult (image : List U8) : Option (Loaded × LoadState) :=
  match load ARCH_X86_64 image 0 false bootState with
  | .ok l t => some (l, t)
  | .error _ _ => none

/-- What is evaluated of a load's result holds of a load that returned. -/
theorem loadResult_any (image : List U8) (P : Loaded × LoadState → Prop) [DecidablePred P]
    (h : ((loadResult image).any fun r => P r) = true) :
    ∃ l t, load ARCH_X86_64 image 0 false bootState = .ok l t ∧ P (l, t) := by
  obtain ⟨r, hr, hp⟩ := (Option.any_eq_true _ _).mp h
  unfold loadResult at hr
  cases hl : load ARCH_X86_64 image 0 false bootState with
  | ok l t =>
    rw [hl] at hr
    cases hr
    exact ⟨l, t, rfl, of_decide_eq_true hp⟩
  | error f t =>
    rw [hl] at hr
    cases hr

theorem demoImage_loads :
    ∃ l t, load ARCH_X86_64 demoImage 0 false bootState = .ok l t ∧ t.proc.Live 0 ∧ t.proc.Live 1 ∧
      t.proc.Live 2 ∧
      (t.loader.slot L_SCHED).cap.size = 900 ∧ t.maps.length = 3 ∧
        bootState.loader.weigh schedSize = 1000 :=
  loadResult_any demoImage (fun r => r.2.proc.Live 0 ∧ r.2.proc.Live 1 ∧ r.2.proc.Live 2 ∧
    (r.2.loader.slot L_SCHED).cap.size = 900 ∧ r.2.maps.length = 3 ∧
    bootState.loader.weigh schedSize = 1000) (by decide +kernel)

/-- The process of `demoImage` holds three capabilities, and 100 units of CPU time left the
loader. -/
theorem load_confined_demoImage :
    ∃ l t, load ARCH_X86_64 demoImage 0 false bootState = .ok l t ∧
      (t.proc.Live 0 ∧ t.proc.Live 1 ∧ t.proc.Live 2) ∧
      (∃ tr src, LoaderHad bootState.spaces tr src ∧ Derives (t.proc.slot 2).cap src) ∧
      t.loader.weigh schedSize + t.proc.weigh schedSize = 1000 ∧
        (t.loader.slot L_SCHED).cap.size = 900 := by
  obtain ⟨l, t, hl, h0, h1, h2, hsize, -, hboot⟩ := demoImage_loads
  obtain ⟨tr, -, hproc, htime, -⟩ :=
    load_confined ARCH_X86_64 demoImage 0 false bootState_reached bootState_empty (Or.inl ⟨l, hl⟩)
  obtain ⟨src, hsrc, hder⟩ := hproc 2 h2
  exact ⟨l, t, hl, ⟨h0, h1, h2⟩, ⟨tr, src, hsrc, hder⟩, htime.trans hboot, hsize⟩

end Praesidium
