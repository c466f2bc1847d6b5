import Praesidium.CapCore.Action
import Praesidium.Lib.Forest

/-!
The derivation tree of a capability space (the MDB): the table's parent links
refine a `Forest`.

`Tree tab F`: the live slots of `tab` are the nodes of `F`, their links are its
links, an empty slot is exactly `Cte.EMPTY`, and a child is kin of its parent
(`Kin`: carved from an `Untyped`, or of the parent's type with no more rights).
Each change of a table is the change of the forest of the same name:

    Tree tab F → Tree (tab with a leaf at d) (F.grow d p)        (Tree.grow)
    Tree tab F → Tree (tab without the leaf d) (F.cut d)         (Tree.cut)
    Tree tab F → Tree (tab with src at dest) (F.rename src dest) (Tree.rename)
-/

namespace Praesidium

open Fallible

/-! ## The invariant -/

/-- What derivation makes of a parent: an object carved from an `Untyped`, or a record of
the same type with no more rights.  `Reply`, `Domain` and `SharedRo` have no children. -/
def Kin (parent child : RawCap) : Prop :=
  (parent.capType = .untyped ∧ CSpace.isRetypeable child.capType = true) ∨
    (child.capType = parent.capType ∧
    child.capType ∉ [CapType.untyped, .reply, .domain, .sharedRo] ∧
      child.rights.subsetOf parent.rights = true)

structure Tree (tab : Nat → Cte) (F : Forest Nat) : Prop where
  live : ∀ d, F.live d ↔ (tab d).cap.isNull = false
  par : ∀ d, F.par d = (tab d).parent
  empty : ∀ d, (tab d).cap.isNull = true → tab d = .EMPTY
  kin : ∀ d p, (tab d).parent = some p → Kin (tab p).cap (tab d).cap

/-- An entry whose allocation state (`size`, `watermark`, `aux`) may have changed. -/
structure Touched (e e' : Cte) : Prop where
  parent : e'.parent = e.parent
  capType : e'.cap.capType = e.cap.capType
  rights : e'.cap.rights = e.cap.rights
  objref : e'.cap.objref = e.cap.objref
  empty : e = .EMPTY → e' = .EMPTY

theorem Touched.refl (e : Cte) : Touched e e := ⟨rfl, rfl, rfl, rfl, id⟩

/-- A live entry with other allocation state. -/
theorem touched_of_live (e : Cte) (size watermark aux : U32) (h : e.cap.isNull = false) :
    Touched e { e with cap := { e.cap with size := size, watermark := watermark, aux := aux } } :=
  ⟨rfl, rfl, rfl, rfl, fun he => by rw [he] at h; cases h⟩

theorem Touched.isNull {e e' : Cte} (h : Touched e e') : e'.cap.isNull = e.cap.isNull := by
  unfold RawCap.isNull; rw [h.capType]

variable {p c : RawCap}

theorem Kin.touched {p' c' : RawCap} (h : Kin p c) (hp : p'.capType = p.capType)
    (hpr : p'.rights = p.rights) (hc : c'.capType = c.capType) (hcr : c'.rights = c.rights) :
    Kin p' c' := by
  unfold Kin at *
  rw [hp, hpr, hc, hcr]
  exact h

theorem Kin.of_sched (h : Kin p c) (hp : p.capType = .sched) : c.capType = .sched := by
  rcases h with ⟨h, -⟩ | ⟨h, -⟩
  · rw [hp] at h; cases h
  · rw [h, hp]

/-- A child and its parent are both `Sched` or neither is. -/
theorem Kin.sched_iff (h : Kin p c) : c.capType = .sched ↔ p.capType = .sched := by
  refine ⟨fun hc => ?_, h.of_sched⟩
  rcases h with ⟨-, h⟩ | ⟨h, -⟩
  · rw [hc] at h; cases h
  · rw [← h, hc]

/-- MINT and COPY derive kin: their sources are of no linear type. -/
theorem kin_of_derivable (hp : p.capType ∉ CSpace.linearTypes) (ht : c.capType = p.capType)
    (hr : c.rights.subsetOf p.rights = true) : Kin p c := by
  refine Or.inr ⟨ht, ?_, hr⟩
  rw [ht]
  intro h
  apply hp
  simp only [List.mem_cons, List.not_mem_nil, or_false] at h ⊢
  rcases h with h | h | h | h <;> simp [h]

namespace Tree

variable {tab tab' : Nat → Cte} {F : Forest Nat}

variable {cs : CSpace N}

theorem lt (h : Tree cs.slot F) (d : Nat) (hd : F.live d) : d < N :=
  CSpace.Live.lt ((h.live d).mp hd)

theorem parent_live (h : Tree tab F) (d p : Nat) (hp : (tab d).parent = some p) :
    (tab d).cap.isNull = false ∧ (tab p).cap.isNull = false := by
  have := F.par_live d p (by rw [h.par d, hp])
  exact ⟨(h.live d).mp this.1, (h.live p).mp this.2⟩

/-- A slot without live children is nobody's parent. -/
theorem leaf (h : Tree cs.slot F) (d : Nat) (hd : cs.hasChildren d = false) (y : Nat) :
    F.par y ≠ some d := by
  intro hy
  rw [h.par y] at hy
  have : cs.hasChildren d = true :=
    (CSpace.hasChildren_iff cs d).mpr ⟨y, (h.parent_live y d hy).1, hy⟩
  rw [hd] at this
  cases this

/-- `Reply` capabilities are never derived from. -/
theorem leaf_of_reply (h : Tree tab F) (d : Nat) (hd : (tab d).cap.capType = .reply) (y : Nat) :
    F.par y ≠ some d := by
  intro hy
  rw [h.par y] at hy
  rcases h.kin y d hy with ⟨h1, -⟩ | ⟨h1, h2, -⟩
  · rw [hd] at h1; cases h1
  · rw [h1, hd] at h2; simp at h2

/-! ## Changes -/

theorem nil : Tree (CSpace.new : CSpace N).slot (Forest.nil Nat) := by
  refine ⟨fun d => ?_, fun d => ?_, fun d _ => CSpace.slot_new d, fun d p hp => ?_⟩
  · rw [CSpace.slot_new]
    exact ⟨fun h => h.elim, fun h => by cases h⟩
  · rw [CSpace.slot_new]; rfl
  · rw [CSpace.slot_new] at hp; cases hp

theorem reparented_cap (src dest : Nat) (e : Cte) : (CSpace.reparented src dest e).cap = e.cap := by
  unfold CSpace.reparented; split <;> rfl

theorem reparented_parent (src dest : Nat) (e : Cte) :
    (CSpace.reparented src dest e).parent = e.parent.map (Forest.moved src dest) := by
  unfold CSpace.reparented
  cases hp : e.parent with
  | none => rw [if_neg (by simp), hp]; rfl
  | some p =>
    by_cases h : p = src
    · rw [if_pos (by rw [h])]; simp [Forest.moved, h]
    · rw [if_neg (fun e => h (Option.some.inj e)), hp]; simp [Forest.moved, h]

section

variable (h : Tree tab F)

include h

/-- A capability placed in an empty slot. -/
theorem grow (d : Nat) (cap : RawCap) (p : SlotIdx) (hx : ¬ F.live d)
    (hp : ∀ q, p = some q → F.live q) (hcap : cap.isNull = false)
    (hkin : ∀ q, p = some q → Kin (tab q).cap cap)
    (htab : ∀ k, tab' k = if k = d then ⟨cap, p⟩ else tab k) : Tree tab' (F.grow d p hx hp) := by
  refine ⟨fun k => ?_, fun k => ?_, fun k hk => ?_, fun k q hq => ?_⟩
  · rw [htab k]
    by_cases e : k = d
    · rw [if_pos e]; exact ⟨fun _ => hcap, fun _ => Or.inl e⟩
    · rw [if_neg e, ← h.live k]
      exact ⟨fun h' => h'.resolve_left e, Or.inr⟩
  · rw [htab k]
    by_cases e : k = d
    · simp [Forest.grow, e]
    · simp [Forest.grow, e, h.par k]
  · rw [htab k] at hk ⊢
    by_cases e : k = d
    · rw [if_pos e] at hk
      rw [show (Cte.mk cap p).cap = cap from rfl, hcap] at hk
      cases hk
    · rw [if_neg e] at hk ⊢; exact h.empty k hk
  · rw [htab k] at hq ⊢
    have hq_live : F.live q := by
      by_cases e : k = d
      · rw [if_pos e] at hq; exact hp q hq
      · rw [if_neg e] at hq; exact (h.live q).mpr (h.parent_live k q hq).2
    rw [htab q, if_neg (fun e : q = d => hx (e ▸ hq_live))]
    by_cases e : k = d
    · rw [if_pos e] at hq ⊢; exact hkin q hq
    · rw [if_neg e] at hq ⊢; exact h.kin k q hq

/-- A change of allocation state only. -/
theorem update (htab : ∀ k, Touched (tab k) (tab' k)) : Tree tab' F := by
  refine ⟨fun k => ?_, fun k => ?_, fun k hk => ?_, fun k q hq => ?_⟩
  · rw [(htab k).isNull, h.live k]
  · rw [(htab k).parent, h.par k]
  · rw [(htab k).isNull] at hk
    exact (htab k).empty (h.empty k hk)
  · rw [(htab k).parent] at hq
    exact (h.kin k q hq).touched (htab q).capType (htab q).rights (htab k).capType (htab k).rights

/-- Some capabilities go, and with each one all below it. -/
theorem removed {F' : Forest Nat} (gone : Nat → Prop) (hlive : ∀ k, F'.live k ↔ F.live k ∧ ¬ gone k)
    (hnone : ∀ k, gone k → F'.par k = none) (hpar : ∀ k, ¬ gone k → F'.par k = F.par k)
    (hbelow : ∀ k q, F.par k = some q → gone q → gone k) (hgone : ∀ k, gone k → tab' k = .EMPTY)
    (htab : ∀ k, ¬ gone k → Touched (tab k) (tab' k)) : Tree tab' F' := by
  refine ⟨fun k => ?_, fun k => ?_, fun k hk => ?_, fun k q hq => ?_⟩
  · rw [hlive]
    by_cases e : gone k
    · rw [hgone k e]
      exact ⟨fun h' => absurd e h'.2, fun h' => by cases h'⟩
    · rw [(htab k e).isNull, ← h.live k]
      exact ⟨And.left, fun h' => ⟨h', e⟩⟩
  · by_cases e : gone k
    · rw [hgone k e, hnone k e]; rfl
    · rw [(htab k e).parent, hpar k e, h.par k]
  · by_cases e : gone k
    · exact hgone k e
    · rw [(htab k e).isNull] at hk
      exact (htab k e).empty (h.empty k hk)
  · by_cases e : gone k
    · rw [hgone k e] at hq; cases hq
    · rw [(htab k e).parent] at hq
      have hq' : ¬ gone q := fun hc => e (hbelow k q (by rw [h.par k, hq]) hc)
      exact (h.kin k q hq).touched (htab q hq').capType (htab q hq').rights (htab k e).capType
        (htab k e).rights

/-- A capability without children goes. -/
theorem cut (d : Nat) (hleaf : ∀ y, F.par y ≠ some d) (hd : tab' d = .EMPTY)
    (htab : ∀ k, k ≠ d → Touched (tab k) (tab' k)) : Tree tab' (F.cut d hleaf) :=
  h.removed (· = d) (fun _ => Iff.rfl) (fun _ e => if_pos e) (fun _ e => if_neg e)
    (fun k _ hq e => absurd (e ▸ hq) (hleaf k)) (fun _ e => e ▸ hd) htab

/-- Everything below `c` goes. -/
theorem prune (c : Nat) (hgone : ∀ k, F.Desc k c → tab' k = .EMPTY)
    (htab : ∀ k, ¬ F.Desc k c → Touched (tab k) (tab' k)) : Tree tab' (F.prune c) :=
  h.removed (F.Desc · c) (fun _ => Iff.rfl) (fun _ e => if_pos e) (fun _ e => if_neg e)
    (fun k q hq hqc => (F.desc_of_par k q hq).trans hqc) hgone htab

/-- A capability at another slot, with its children's links. -/
theorem rename (src dest : Nat) (hs : F.live src) (hd : ¬ F.live dest)

    (htab : ∀ k, tab' k = if k = src then .EMPTY else if k =
    dest then tab src else CSpace.reparented src dest (tab k)) :
    Tree tab' (F.rename src dest hd) := by
  have hne : src ≠ dest := fun e => hd (e ▸ hs)
  -- the links of `src` itself do not name `src`, so the snapshot needs no reparenting
  have hself : tab src = CSpace.reparented src dest (tab src) := by
    unfold CSpace.reparented
    rw [if_neg]
    rw [← h.par src]
    exact F.par_ne_self src
  have hcap : ∀ k, k ≠ src → (tab' k).cap = (tab (if k = dest then src else k)).cap := by
    intro k hk
    rw [htab k, if_neg hk]
    by_cases e : k = dest
    · rw [if_pos e, if_pos e]
    · rw [if_neg e, if_neg e, reparented_cap]
  have hpar : ∀ k, k ≠ src → (tab' k).parent = (tab (if k = dest then src else k)).parent.map
    (Forest.moved src dest) := by
    intro k hk
    rw [htab k, if_neg hk]
    by_cases e : k = dest
    · rw [if_pos e, if_pos e, ← reparented_parent, ← hself]
    · rw [if_neg e, if_neg e, reparented_parent]
  have hsrc : tab' src = .EMPTY := by rw [htab src, if_pos rfl]
  refine ⟨fun k => ?_, fun k => ?_, fun k hk => ?_, fun k q hq => ?_⟩
  · by_cases e : k = src
    · subst e
      rw [hsrc]
      exact ⟨fun h' => by rcases h' with h' | h'; exact absurd h' hne; exact absurd rfl h'.2,
        fun h' => by cases h'⟩
    · rw [hcap k e, ← h.live]
      by_cases e' : k = dest
      · rw [if_pos e']; exact ⟨fun _ => hs, fun _ => Or.inl e'⟩
      · rw [if_neg e']; exact ⟨fun h' => (h'.resolve_left e').1, fun h' => Or.inr ⟨h', e⟩⟩
  · by_cases e : k = src
    · subst e; rw [hsrc]; simp [Forest.rename, Cte.EMPTY, NIL]
    · rw [hpar k e, ← h.par]; simp [Forest.rename, e]
  · by_cases e : k = src
    · rw [e, hsrc]
    · rw [hcap k e] at hk
      have hk' := h.empty _ hk
      have hkd : k ≠ dest := by
        intro e'
        rw [if_pos e'] at hk
        rw [(h.live src).mp hs] at hk
        cases hk
      rw [if_neg hkd] at hk'
      rw [htab k, if_neg e, if_neg hkd, hk']
      rfl
  · have e : k ≠ src := by rintro rfl; rw [hsrc] at hq; cases hq
    rw [hpar k e] at hq
    obtain ⟨p, hp, rfl⟩ := Option.map_eq_some_iff.mp hq
    have hpl : F.live p := (h.live p).mpr (h.parent_live _ p hp).2
    have hback : (if Forest.moved src dest p = dest then src else Forest.moved src dest p) = p := by
      unfold Forest.moved
      by_cases e' : p = src
      · rw [if_pos e', if_pos rfl, e']
      · have : p ≠ dest := fun e'' => hd (e'' ▸ hpl)
        rw [if_neg e', if_neg this]
    rw [hcap _ (F.moved_ne src dest hs hd p), hback, hcap k e]
    exact h.kin _ p hp

end

/-- The objects of a retype, placed one after the other. -/
theorem growAll (ut : Nat) (cap : Nat → RawCap) (dest n : Nat) (tab : Nat → Cte) (F : Forest Nat)
    (h : Tree tab F) (hut : F.live ut) (hfree : ∀ i, i < n → ¬ F.live (dest + i))
    (hcap : ∀ i, i < n → (cap i).isNull = false) (hkin : ∀ i, i < n → Kin (tab ut).cap (cap i))
    (tab' : Nat → Cte) (hnew : ∀ i, i < n → tab' (dest + i) = ⟨cap i, some ut⟩)
    (hold : ∀ k, (k < dest ∨ dest + n ≤ k) → tab' k = tab k) : ∃ F', Tree tab' F' := by
  induction n generalizing tab' with
  | zero =>
    have : tab' = tab := funext fun k => hold k (by omega)
    exact ⟨F, this ▸ h⟩
  | succ n ih =>
    -- the table before the last object was placed
    obtain ⟨F', h'⟩ :=
      ih (fun i hi => hfree i (by omega)) (fun i hi => hcap i (by omega)) (fun i hi =>
      hkin i (by omega)) (fun k => if k = dest + n then tab k else tab' k) (fun i hi => by
        show (if dest + i = dest + n then _ else _) = _
        rw [if_neg (by omega)]; exact hnew i (by omega))
      (fun k hk => by
        show (if k = dest + n then _ else _) = _
        by_cases e : k = dest + n
        · rw [if_pos e]
        · rw [if_neg e]; exact hold k (by omega))
    have hlast : (if dest + n = dest + n then tab (dest + n) else tab' (dest + n)) =
      tab (dest + n) := if_pos rfl
    have hut_ne : ∀ i, i < n + 1 → ut ≠ dest + i := fun i hi e => hfree i hi (e ▸ hut)
    have hut_tab : (if ut = dest + n then tab ut else tab' ut) = tab ut := by
      by_cases hin : dest ≤ ut ∧ ut < dest + n + 1
      · exact absurd (show ut = dest + (ut - dest) by omega) (hut_ne (ut - dest) (by omega))
      · rw [if_neg (by omega)]; exact hold ut (by omega)
    have hx : ¬ F'.live (dest + n) := by
      rw [h'.live]
      intro hh
      rw [hlast] at hh
      exact hfree n (by omega) ((h.live _).mpr hh)
    have hp : ∀ q, some ut = some q → F'.live q := by
      intro q hq
      cases hq
      rw [h'.live, hut_tab]
      exact (h.live ut).mp hut
    refine ⟨F'.grow (dest + n) (some ut) hx hp,
      h'.grow (dest + n) (cap n) (some ut) hx hp (hcap n (by omega)) (fun q hq => ?_) (fun k => ?_)⟩
    · cases hq
      rw [hut_tab]
      exact hkin n (by omega)
    · by_cases e : k = dest + n
      · rw [if_pos e, e]; exact hnew n (by omega)
      · rw [if_neg e, if_neg e]

end Tree

end Praesidium
