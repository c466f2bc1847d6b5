import Praesidium.CapCore.CSpace
import Praesidium.Lib.Tally

/-!
What each operation on a capability space does, from any state.

`slot` is the table as a function and `put` its one update; `slot_put` is all the
later proofs use of the table.  Each operation has one specification by `Ends`:
its guards and the new table when it returns, and how it can fail otherwise.  A
check that refuses leaves the space as it was (`Refused`).
-/

namespace Praesidium

open Fallible

namespace CSpace

variable {N : Nat}

/-! ## The table -/

/-- Slot `c` holds a capability. -/
def Live (cs : CSpace N) (c : Nat) : Prop := (cs.slot c).cap.isNull = false

instance (cs : CSpace N) (c : Nat) : Decidable (cs.Live c) := inferInstanceAs (Decidable (_ = _))

theorem slot_put (cs : CSpace N) (d k : Nat) (e : Cte) (hd : d < N) :
    (cs.put d e).slot k = if k = d then e else cs.slot k := by
  unfold slot put
  rw [Vector.getElem?_setIfInBounds]
  by_cases h : k = d
  · subst h; simp [hd]
  · rw [if_neg (fun e => h e.symm), if_neg h]

theorem slot_of_le (cs : CSpace N) (d : Nat) (h : N ≤ d) : cs.slot d = .EMPTY := by
  unfold slot
  rw [Vector.getElem?_eq_none h]
  rfl

theorem slot_new (d : Nat) : (new : CSpace N).slot d = .EMPTY := by
  unfold slot new
  by_cases h : d < N
  · simp [h]
  · simp [h]

@[simp] theorem put_zeroed (cs : CSpace N) (d : Nat) (e : Cte) : (cs.put d e).zeroed = cs.zeroed :=
  rfl

theorem Live.lt {cs : CSpace N} {c : Nat} (h : cs.Live c) : c < N := by
  by_cases hc : c < N
  · exact hc
  · unfold Live at h
    rw [slot_of_le cs c (by omega)] at h
    cases h

theorem not_live_empty (cs : CSpace N) (c : Nat) (h : cs.slot c = .EMPTY) : ¬ cs.Live c := by
  unfold Live
  rw [h]
  decide

theorem isNull_of_not_live (cs : CSpace N) (c : Nat) (h : ¬ cs.Live c) :
    (cs.slot c).cap.isNull = true := by
  unfold Live at h
  simpa using h

/-! ## Table access -/

variable {cs : CSpace N} {E : Fault → CSpace N → Prop}

theorem ends_readSlot {Q : Cte → CSpace N → Prop} (d : Nat) :
    Ends (readSlot d) cs Q E ↔ (N ≤ d → E .oob cs) ∧ (d < N → Q (cs.slot d) cs) := by
  unfold readSlot
  rw [ends_bind, ends_get, ends_okOr]
  by_cases h : d < N
  · have hs : cs.slots[d]? = some (cs.slot d) := by simp [slot, h]
    rw [hs]
    constructor
    · intro hh; exact ⟨fun h' => by omega, fun _ => hh.2 _ rfl⟩
    · rintro ⟨-, h2⟩; exact ⟨fun h' => (by cases h'), fun a ha => by cases ha; exact h2 h⟩
  · rw [Vector.getElem?_eq_none (by omega)]
    constructor
    · intro hh; exact ⟨fun _ => hh.1 rfl, fun h' => absurd h' h⟩
    · rintro ⟨h1, -⟩; exact ⟨fun _ => h1 (by omega), fun a ha => by cases ha⟩

variable {Q : Unit → CSpace N → Prop}

theorem ends_writeSlot (d : Nat) (e : Cte) :
    Ends (writeSlot d e) cs Q E ↔ (N ≤ d → E .oob cs) ∧ (d < N → Q () (cs.put d e)) := by
  unfold writeSlot
  rw [ends_bind, ends_refuseIf, ends_modify, Nat.not_le]

theorem ends_zero (f : U64) (n : U32) :
    Ends (zero f n) cs Q E ↔ Q () { cs with zeroed := cs.zeroed ++ [(f, n)] } := by
  unfold zero
  rw [ends_modify]

theorem ends_takeObj {Q : U64 → CSpace N → Prop} :
    Ends takeObj cs Q E ↔ (2 ^ 64 ≤ cs.nextObj.toNat + 1 → E .overflow cs) ∧
      ∀ next : U64, next.toNat = cs.nextObj.toNat + 1 →
        Q cs.nextObj { cs with nextObj := next } := by
  unfold takeObj
  simp only [ends_bind, ends_get, ends_okOr, ends_modify, ends_pure, Word.checkedAdd_eq_none,
    Word.checkedAdd_eq_some]
  rfl

theorem ends_cteRef {Q : Cte → CSpace N → Prop} (c : Nat) :
    Ends (cteRef c) cs Q E ↔ (N ≤ c → E (.err .outOfBounds) cs) ∧
      (c < N → ¬ cs.Live c → E (.err .emptySlot) cs) ∧ (cs.Live c → Q (cs.slot c) cs) := by
  unfold cteRef
  simp only [ends_bind, ends_refuseIf, ends_readSlot, ends_pure]
  constructor
  · rintro ⟨h1, h2⟩
    refine ⟨h1, fun hc hl => (h2 (by omega)).2 hc |>.1 (isNull_of_not_live cs c hl), fun hl => ?_⟩
    exact ((h2 (by have := hl.lt; omega)).2 hl.lt).2 (by unfold Live at hl; simp [hl])
  · rintro ⟨h1, h2, h3⟩
    refine ⟨h1, fun hc => ⟨fun h => absurd h hc, fun hc' => ⟨fun hn => ?_, fun hn => ?_⟩⟩⟩
    · exact h2 hc' (by unfold Live; simp [hn])
    · exact h3 (by unfold Live; simpa using hn)

theorem ends_live {Q : RawCap → CSpace N → Prop} (c : Nat) :
    Ends (live c) cs Q E ↔ (N ≤ c → E (.err .outOfBounds) cs) ∧
      (c < N → ¬ cs.Live c → E (.err .emptySlot) cs) ∧ (cs.Live c → Q (cs.slot c).cap cs) := by
  have h : Ends (live c) cs Q E ↔ Ends (cteRef c) cs (fun e => Q e.cap) E := by
    simp only [live, cteRef, ends_bind, ends_refuseIf, ends_readSlot, ends_pure]
  exact h.trans (ends_cteRef c)

theorem ends_place (dest : Nat) (cap : RawCap) (parent : SlotIdx) :
    Ends (place dest cap parent) cs Q E ↔ (N ≤ dest → E (.err .outOfBounds) cs) ∧
      (cs.Live dest → E (.err .slotOccupied) cs) ∧
      (dest < N → ¬ cs.Live dest → Q () (cs.put dest ⟨cap, parent⟩)) := by
  unfold place
  simp only [ends_bind, ends_refuseIf, ends_readSlot, ends_writeSlot]
  constructor
  · rintro ⟨h1, h2⟩
    refine ⟨h1, fun hl => ?_, fun hd hl => ?_⟩
    · exact ((h2 (by have := hl.lt; omega)).2 hl.lt).1 (by unfold Live at hl; simp [hl])
    · exact (((h2 (by omega)).2 hd).2 (by simp [isNull_of_not_live cs dest hl])).2 hd
  · rintro ⟨h1, h2, h3⟩
    refine ⟨h1, fun hd => ⟨fun h => absurd h hd, fun hd' => ⟨fun hn => ?_, fun hn => ?_⟩⟩⟩
    · exact h2 (by unfold Live; simpa using hn)
    · exact ⟨fun h => absurd h hd, fun _ => h3 hd' (by unfold Live; simpa using hn)⟩

/-! ## Sums over the table -/

open Finset in
/-- The sum of a weight over the table. -/
def weigh (w : RawCap → Nat) (cs : CSpace N) : Nat := ∑ d ∈ range N, w (cs.slot d).cap

theorem weigh_change_one (w : RawCap → Nat) (cs cs' : CSpace N) (d : Nat) (hd : d < N)
    (h : ∀ k, k ≠ d → w (cs'.slot k).cap = w (cs.slot k).cap) :
    cs'.weigh w + w (cs.slot d).cap = cs.weigh w + w (cs'.slot d).cap :=
  Tally.sum_change_one _ _ _ d (Finset.mem_range.mpr hd) fun k _ => h k

theorem weigh_put (w : RawCap → Nat) (cs : CSpace N) (d : Nat) (e : Cte) (hd : d < N) :
    (cs.put d e).weigh w + w (cs.slot d).cap = cs.weigh w + w e.cap := by
  have h := weigh_change_one w cs (cs.put d e) d hd fun k hk => by
    rw [slot_put cs d k e hd, if_neg hk]
  rwa [slot_put cs d d e hd, if_pos rfl] at h

/-! ## Operations that place, move or rewrite capabilities -/

/-- A refusal that left the space as it was. -/
def Refused (cs : CSpace N) (f : Fault) (cs' : CSpace N) : Prop := (∃ e, f = .err e) ∧ cs' = cs

theorem refused_err (cs : CSpace N) (e : CapError) : Refused cs (.err e) cs := ⟨⟨e, rfl⟩, rfl⟩

/-- Types COPY and MINT refuse. -/
abbrev linearTypes : List CapType := [.untyped, .sched, .reply, .domain, .sharedRo]

theorem mint_spec (cs : CSpace N) (src dest : Nat) (newRights : Rights) (badge : U64) :
    Ends (mint src dest newRights badge) cs
      (fun _ cs' => cs.Live src ∧ (cs.slot src).cap.capType ∉ linearTypes ∧
        newRights.subsetOf (cs.slot src).cap.rights ∧ dest < N ∧ ¬ cs.Live dest ∧
        cs' = cs.put dest ⟨{ (cs.slot src).cap with rights := newRights, badge := badge },
          some src⟩)
      (Refused cs) := by
  unfold mint
  simp only [ends_bind, ends_live, ends_refuseIf, ends_place, refused_err, implies_true, true_and]
  intro hl ht _ hr hd hdl
  exact ⟨hl, ht, by simpa using hr, hd, hdl, trivial⟩

theorem copy_spec (cs : CSpace N) (src dest : Nat) :
    Ends (copy src dest) cs
      (fun _ cs' => cs.Live src ∧ (cs.slot src).cap.capType ∉ linearTypes ∧ dest < N ∧
        ¬ cs.Live dest ∧
        cs' = cs.put dest ⟨(cs.slot src).cap,
          if (cs.slot src).parent = NIL then some src else (cs.slot src).parent⟩)
      (Refused cs) := by
  unfold copy
  simp only [ends_bind, ends_live, ends_refuseIf, ends_readSlot, ends_place, refused_err,
    implies_true, true_and]
  intro hl ht _
  exact ⟨fun h => by have := hl.lt; omega, fun _ hd hdl => ⟨hl, ht, hd, hdl, trivial⟩⟩

theorem mintReply_spec (cs : CSpace N) (dest : Nat) (caller badge : U64) :
    Ends (mintReply dest caller badge) cs
      (fun _ cs' => dest < N ∧ ¬ cs.Live dest ∧
        cs' = cs.put dest ⟨⟨.reply, Rights.empty, caller, 0, 0, 0, badge⟩, NIL⟩)
      (Refused cs) := by
  unfold mintReply
  simp only [ends_place, refused_err, implies_true, true_and]
  intro hd hl
  exact ⟨hd, hl, trivial⟩

/-- What `reparent src dest` makes of an entry. -/
def reparented (src dest : Nat) (e : Cte) : Cte :=
  if e.parent = some src then { e with parent := some dest } else e

theorem reparent_spec (cs : CSpace N) (src dest : Nat) :
    Ends (reparent src dest) cs
      (fun _ cs' => (∀ k, cs'.slot k = if k < N then reparented src dest (cs.slot k)
        else cs.slot k) ∧
        cs'.nextObj = cs.nextObj ∧ cs'.zeroed = cs.zeroed)
      (fun _ _ => False) := by
  unfold reparent
  -- after `n` rounds the first `n` entries are rewritten
  refine ends_forRange (fun n (t : CSpace N) =>
    (∀ k, t.slot k = if k < n then reparented src dest (cs.slot k) else cs.slot k) ∧
    t.nextObj = cs.nextObj ∧ t.zeroed = cs.zeroed) _ N ⟨fun k => by simp, rfl, rfl⟩
    (fun n t hn ht => ?_)
  obtain ⟨hs, ho, hz⟩ := ht
  simp only [ends_bind, ends_readSlot, ends_ite, ends_writeSlot, ends_pure]
  have hn' : t.slot n = cs.slot n := by rw [hs n, if_neg (Nat.lt_irrefl n)]
  refine ⟨fun h => by omega, fun _ => ⟨fun hp => ⟨fun h => by omega, fun _ => ⟨fun k => ?_, ho,
    hz⟩⟩,
    fun hp => ⟨fun k => ?_, ho, hz⟩⟩⟩
  · rw [slot_put t n k _ hn]
    rw [hn'] at hp ⊢
    by_cases hk : k = n
    · subst hk; simp [reparented, hp]
    · rw [if_neg hk, hs k]
      by_cases hlt : k < n
      · rw [if_pos hlt, if_pos (by omega)]
      · rw [if_neg hlt, if_neg (by omega)]
  · rw [hn'] at hp
    rw [hs k]
    by_cases hk : k = n
    · subst hk; simp [reparented, hp]
    · by_cases hlt : k < n
      · rw [if_pos hlt, if_pos (by omega)]
      · rw [if_neg hlt, if_neg (by omega)]

/-- `src` is now at `dest`, and so are its children's links. -/
structure Moved (cs : CSpace N) (src dest : Nat) (cs' : CSpace N) : Prop where
  slot : ∀ k, cs'.slot k =
    if k = src then .EMPTY else if k = dest then cs.slot src else reparented src dest (cs.slot k)
  nextObj : cs'.nextObj = cs.nextObj
  zeroed : cs'.zeroed = cs.zeroed

theorem moveCap_spec (cs : CSpace N) (src dest : Nat) :
    Ends (moveCap src dest) cs
      (fun _ cs' => cs.Live src ∧ ((dest = src ∧ cs' = cs) ∨
        (dest ≠ src ∧ dest < N ∧ ¬ cs.Live dest ∧ Moved cs src dest cs')))
      (Refused cs) := by
  unfold moveCap
  simp only [ends_bind, ends_cteRef, ends_ite, ends_pure, ends_refuseIf, ends_readSlot, refused_err,
    implies_true, true_and]
  refine fun hl => ⟨fun e => ⟨hl, Or.inl ⟨e, trivial⟩⟩, fun hne hd =>
    ⟨fun h => by omega, fun hd' hfree => ?_⟩⟩
  refine (reparent_spec cs src dest).imp (fun _ t ht => ?_) (fun _ _ h => h.elim)
  obtain ⟨hs, ho, hz⟩ := ht
  have hsrc := hl.lt
  simp only [ends_writeSlot]
  refine ⟨fun h => by omega, fun _ => ⟨fun h => by omega, fun _ => ⟨hl, Or.inr ⟨hne, hd', ?_,
    ⟨fun k => ?_, ho, hz⟩⟩⟩⟩⟩
  · unfold Live; simpa using hfree
  · rw [slot_put _ src k _ hsrc, slot_put _ dest k _ hd', hs k]
    by_cases h1 : k = src
    · rw [if_pos h1, if_pos h1]
    · by_cases h2 : k = dest
      · rw [if_neg h1, if_neg h1, if_pos h2, if_pos h2]
      · rw [if_neg h1, if_neg h1, if_neg h2, if_neg h2]
        by_cases h3 : k < N
        · rw [if_pos h3]
        · rw [if_neg h3, slot_of_le cs k (by omega)]
          rfl

/-- The record `split` places. -/
def schedChild (s : RawCap) (objref : U64) (child : Budget) : RawCap :=
  ⟨.sched, s.rights, objref, child.capacity, child.consumed, child.period, 0⟩

/-- The entry at `c` with its budget replaced. -/
def withBudget (cs : CSpace N) (c : Nat) (b : Budget) : Cte :=
  { cs.slot c with cap := b.writeInto (cs.slot c).cap }

/-- The table with `dest` split from `src`. -/
abbrev afterSplit (cs : CSpace N) (src dest : Nat) (child parent : Budget) (next : U64) :
    CSpace N :=
  { ((cs.put dest ⟨schedChild (cs.slot src).cap cs.nextObj child, some src⟩).put src
    (cs.withBudget src parent)) with nextObj := next }

theorem split_spec (cs : CSpace N) (src dest : Nat) (amount : U32) :
    Ends (split src dest amount) cs
      (fun _ cs' => cs.Live src ∧ (cs.slot src).cap.capType = .sched ∧ dest < N ∧ ¬ cs.Live dest ∧
        ∃ child parent, (Budget.fromCap (cs.slot src).cap).split amount = some (child, parent) ∧
          ∃ next : U64, next.toNat = cs.nextObj.toNat + 1 ∧
            cs' = cs.afterSplit src dest child parent next)
      (fun f cs' => Refused cs f cs' ∨ f = .overflow) := by
  unfold split writeBudget
  simp only [ends_bind, ends_live, ends_refuseIf, ends_okOr, ends_get, ends_place, ends_readSlot,
    ends_writeSlot, ends_takeObj, ends_pure, refused_err, implies_true, true_and, true_or, or_true]
  rintro hl ht _ ⟨child, parent⟩ hs hd hdl
  have hsrc := hl.lt
  have hne : src ≠ dest := fun e => hdl (e ▸ hl)
  refine ⟨fun h => by omega, fun _ => ⟨fun h => by omega, fun _ next hn => ?_⟩⟩
  refine ⟨hl, by simpa using ht, hd, hdl, child, parent, hs, next, hn, ?_⟩
  unfold afterSplit withBudget
  rw [slot_put cs dest src _ hd, if_neg hne]
  rfl

/-- The table after a split. -/
theorem slot_split (cs : CSpace N) {src dest : Nat} (child parent : Budget) (next : U64)
    (hl : cs.Live src) (hd : dest < N) (k : Nat) :
    (cs.afterSplit src dest child parent next).slot k =
        if k = src then cs.withBudget src parent
        else if k = dest then ⟨schedChild (cs.slot src).cap cs.nextObj child, some src⟩
          else cs.slot k := by
  show ((cs.put dest _).put src _).slot k = _
  rw [slot_put _ src k _ hl.lt, slot_put cs dest k _ hd]

theorem delegate_spec (cs : CSpace N) (src dest : Nat) (amount : U32) :
    Ends (delegate src dest amount) cs
      (fun _ cs' => (src = dest ∧ cs' = cs) ∨
        (src ≠ dest ∧ cs.Live src ∧ cs.Live dest ∧ (cs.slot src).cap.capType = .sched ∧
          (cs.slot dest).cap.capType = .sched ∧
          ∃ s d, (Budget.fromCap (cs.slot src).cap).delegate (Budget.fromCap (cs.slot dest).cap)
            amount = some (s, d) ∧
            cs' = (cs.put src (cs.withBudget src s)).put dest (cs.withBudget dest d)))
      (Refused cs) := by
  unfold delegate writeBudget
  simp only [ends_ite, ends_bind, ends_live, ends_refuseIf, ends_okOr, ends_pure, ends_readSlot,
    ends_writeSlot, refused_err, implies_true, true_and]
  refine ⟨fun e => Or.inl ⟨e, trivial⟩, fun hne hl hl' ht _ ⟨s, d⟩ hs => ?_⟩
  have hsrc := hl.lt
  have hdst := hl'.lt
  rw [not_or, not_not, not_not] at ht
  refine ⟨fun h => by omega, fun _ => ⟨fun h => by omega, fun _ => ⟨fun h => by omega, fun _ =>
    ⟨fun h => by omega, fun _ => Or.inr ⟨hne, hl, hl', ht.1, ht.2, s, d, hs, ?_⟩⟩⟩⟩⟩
  unfold withBudget
  rw [slot_put cs src dest _ hsrc, if_neg (fun e => hne e.symm)]

end CSpace

/-! ## Grants -/

section Grant

variable {N M : Nat} {α : Type} {s : CSpace N × CSpace M} {Q : α → CSpace N × CSpace M → Prop}
  {E : Fault → CSpace N × CSpace M → Prop}

theorem ends_onSrc (m : Op N α) :
    Ends (onSrc m) s Q E ↔ Ends m s.1 (fun a t => Q a (t, s.2)) (fun e t => E e (t, s.2)) := by
  unfold Ends onSrc
  cases m s.1 <;> rfl

theorem ends_onDst (m : Op M α) :
    Ends (onDst m) s Q E ↔ Ends m s.2 (fun a t => Q a (s.1, t)) (fun e t => E e (s.1, t)) := by
  unfold Ends onDst
  cases m s.2 <;> rfl

end Grant

/-- The two spaces after a grant. -/
structure Granted {N M : Nat} (a : CSpace N) (srcSlot : Nat) (b : CSpace M) (dstSlot : Nat)
    (newRights : Rights)
    (badge : U64) (mode : GrantMode) (a' : CSpace N) (b' : CSpace M) : Prop where
  live : a.Live srcSlot
  transferable : (a.slot srcSlot).cap.capType ∉ [CapType.reply, .sharedRo]
  mintable : mode = .mint → (a.slot srcSlot).cap.capType ∉ [CapType.untyped, .sched, .domain]
  grantable : (a.slot srcSlot).cap.rights.contains Rights.GRANT = true
  narrowed : newRights.subsetOf (a.slot srcSlot).cap.rights = true
  childless : mode = .move → a.hasChildren srcSlot = false
  inRange : dstSlot < M
  free : ¬ b.Live dstSlot
  src : a' = if mode = .move then a.put srcSlot .EMPTY else a
  dst : b' = b.put dstSlot ⟨{ (a.slot srcSlot).cap with rights := newRights, badge := badge }, NIL⟩

theorem grant_spec {N M : Nat} (a : CSpace N) (srcSlot : Nat) (b : CSpace M) (dstSlot : Nat)
    (newRights : Rights) (badge : U64) (mode : GrantMode) :
    Ends (grant srcSlot dstSlot newRights badge mode) (a, b)
      (fun _ s => Granted a srcSlot b dstSlot newRights badge mode s.1 s.2)
      (fun f s => (∃ e, f = .err e) ∧ s = (a, b)) := by
  unfold grant
  simp only [ends_bind, ends_onSrc, ends_onDst, ends_refuseIf, ends_get, ends_ite, ends_pure,
    CSpace.ends_live,
    CSpace.ends_place, CSpace.ends_writeSlot, Fault.err.injEq, exists_eq', implies_true, true_and,
    and_self]
  intro hl h1 h2 h3 h4 h5 hd hfree
  have hm : mode = .mint → (a.slot srcSlot).cap.capType ∉ [CapType.untyped, .sched, .domain] :=
    fun hm ht => h2 ⟨hm, ht⟩
  have hc : mode = .move → a.hasChildren srcSlot = false := fun hm => by
    cases hh : a.hasChildren srcSlot with
    | false => rfl
    | true => exact absurd ⟨hm, hh⟩ h5
  refine ⟨fun hmv => ⟨fun h => absurd hl.lt (by omega), fun _ => ?_⟩, fun hmv => ?_⟩
  · exact ⟨hl, h1, hm, by simpa using h3, by simpa using h4, hc, hd, hfree, (if_pos hmv).symm, rfl⟩
  · exact ⟨hl, h1, hm, by simpa using h3, by simpa using h4, hc, hd, hfree, (if_neg hmv).symm, rfl⟩

end Praesidium
