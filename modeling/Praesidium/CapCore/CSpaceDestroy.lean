import Mathlib.Algebra.Order.BigOperators.Group.Finset
import Mathlib.Logic.Relation
import Praesidium.CapCore.CSpaceSpec

/-!
Destruction, from any state: `destroy_slot`, the search and the loop of `revoke`,
`revoke`, `delete` and `consume_reply`.

`Destroyed cs d cs'` is the whole effect of one destruction; `Sweep c cs cs'` is a
run of them that spares `c`, which is all the loop of `revoke` can do.  Each round
lowers the number of live slots, so the loop's fuel is enough from every state
(`revokeLoop_spec`): the only way it fails is a parent link past the end of the
table.
-/

namespace Praesidium

open Fallible

namespace CSpace

variable {N : Nat}

/-! ## One slot -/

theorem hasChildren_iff (cs : CSpace N) (d : Nat) :
    cs.hasChildren d = true ↔ ∃ k, cs.Live k ∧ (cs.slot k).parent = some d := by
  unfold hasChildren Live
  rw [List.any_eq_true]
  constructor
  · rintro ⟨k, -, hk⟩
    simp only [Bool.and_eq_true, Bool.not_eq_true', beq_iff_eq] at hk
    exact ⟨k, hk⟩
  · rintro ⟨k, hl, hp⟩
    refine ⟨k, List.mem_range.mpr (Live.lt hl), ?_⟩
    rw [hl, hp]
    simp

theorem another_iff (cs : CSpace N) (cap : RawCap) :
    cs.another cap = true ↔
      ∃ k, cs.Live k ∧ (cs.slot k).cap.capType = cap.capType ∧
        (cs.slot k).cap.objref = cap.objref := by
  unfold another Live
  rw [List.any_eq_true]
  constructor
  · rintro ⟨k, -, hk⟩
    simp only [Bool.and_eq_true, Bool.not_eq_true', beq_iff_eq] at hk
    exact ⟨k, hk.1.1, hk.1.2, hk.2⟩
  · rintro ⟨k, hl, ht, ho⟩
    refine ⟨k, List.mem_range.mpr (Live.lt hl), ?_⟩
    rw [hl, ht, ho]
    simp

/-- A destroyed slot's budget goes to slot `k`. -/
def Credits (cs : CSpace N) (d k : Nat) : Prop :=
  (cs.slot d).cap.capType = .sched ∧ (cs.slot d).parent = some k ∧ k ≠ d ∧
    (cs.slot k).cap.capType = .sched

variable {cs t cs' : CSpace N} {d c : Nat}

theorem Credits.uniq {j k : Nat} (hj : cs.Credits d j) (hk : cs.Credits d k) : j = k :=
  Option.some.inj (hj.2.1.symm.trans hk.2.1)

instance (cs : CSpace N) (d k : Nat) : Decidable (cs.Credits d k) :=
  inferInstanceAs (Decidable (_ ∧ _))

/-- Slot `d` is the last capability to an object that is zeroed with it. -/
def Last (cs : CSpace N) (d : Nat) : Prop :=
  (cs.slot d).cap.capType ∉ linearTypes ∧
    ∀ k, k ≠ d → cs.Live k → (cs.slot k).cap.capType = (cs.slot d).cap.capType →
      (cs.slot k).cap.objref ≠ (cs.slot d).cap.objref

/-- The space after `destroy_slot(d)`. -/
structure Destroyed (cs : CSpace N) (d : Nat) (cs' : CSpace N) : Prop where
  self : cs'.slot d = .EMPTY
  credit : ∀ k, cs.Credits d k → cs'.slot k =
    { cs.slot k with cap :=
      { (cs.slot k).cap with size := Word.saturatingAdd (cs.slot k).cap.size (cs.slot d).cap.size }
      }
  frame : ∀ k, k ≠ d → ¬ cs.Credits d k → cs'.slot k = cs.slot k
  nextObj : cs'.nextObj = cs.nextObj
  zeroed : (cs.Last d ∧ cs'.zeroed = cs.zeroed ++
    [((cs.slot d).cap.objref, (cs.slot d).cap.size)]) ∨ (¬ cs.Last d ∧ cs'.zeroed = cs.zeroed)

theorem credit_spec (cs : CSpace N) (cap : RawCap) (parent : SlotIdx) :
    Ends (credit cap parent) cs
      (fun _ cs' => (∀ k, cs'.slot k =
          if cap.capType = .sched ∧ parent = some k ∧ (cs.slot k).cap.capType = .sched then
            { cs.slot k with cap := { (cs.slot k).cap with size := Word.saturatingAdd (cs.slot k).cap.size cap.size } }
          else cs.slot k) ∧ cs'.nextObj = cs.nextObj ∧ cs'.zeroed = cs.zeroed)
      (fun f _ => f = .oob ∧ ∃ p, parent = some p ∧ N ≤ p) := by
  unfold credit
  cases parent with
  | none =>
    rw [ends_pure]
    exact ⟨fun k => by simp, rfl, rfl⟩
  | some p =>
    simp only [ends_ite, ends_bind, ends_readSlot, ends_writeSlot, ends_pure]
    refine ⟨fun hc => ⟨fun hp => ⟨trivial, p, rfl, hp⟩, fun hp =>
      ⟨fun ht => ⟨fun h => by omega, fun _ =>
      ⟨fun k => ?_, rfl, rfl⟩⟩, fun ht => ⟨fun k => ?_, trivial, trivial⟩⟩⟩,
      fun hc => ⟨fun k => by rw [if_neg (fun h => hc h.1)], trivial, trivial⟩⟩
    · rw [slot_put cs p k _ hp]
      by_cases hk : k = p
      · subst hk; rw [if_pos rfl, if_pos ⟨hc, rfl, ht⟩]
      · rw [if_neg hk, if_neg (fun h => hk (Option.some.inj h.2.1).symm)]
    · rw [if_neg]
      rintro ⟨-, hk, h⟩
      exact ht (Option.some.inj hk ▸ h)

theorem zeroLast_spec (cs : CSpace N) (cap : RawCap) :
    Ends (zeroLast cap) cs
      (fun _ cs' => (∀ k, cs'.slot k = cs.slot k) ∧ cs'.nextObj = cs.nextObj ∧
        ((cs.another cap = false ∧ cap.capType ∉ linearTypes ∧
          cs'.zeroed = cs.zeroed ++ [(cap.objref, cap.size)]) ∨
          (¬ (cs.another cap = false ∧ cap.capType ∉ linearTypes) ∧ cs'.zeroed = cs.zeroed)))
      (fun _ _ => False) := by
  unfold zeroLast
  simp only [ends_bind, ends_get, ends_ite, ends_zero, ends_pure, Bool.and_eq_true,
    Bool.not_eq_true', decide_eq_true_eq]
  refine ⟨fun h => ⟨fun k => rfl, trivial, Or.inl ⟨h.1, h.2, trivial⟩⟩, fun h =>
    ⟨fun k => trivial, trivial, Or.inr ⟨h, trivial⟩⟩⟩

/-- The scan for another holder, made after slot `d` was emptied. -/
theorem last_iff_of_emptied (hself : t.slot d = .EMPTY)
    (hsame : ∀ k, k ≠ d → (t.slot k).cap.capType = (cs.slot k).cap.capType ∧
      (t.slot k).cap.objref = (cs.slot k).cap.objref ∧ (t.Live k ↔ cs.Live k)) :
    (t.another (cs.slot d).cap = false ∧ (cs.slot d).cap.capType ∉ linearTypes) ↔ cs.Last d := by
  rw [← Bool.not_eq_true, another_iff]
  constructor
  · rintro ⟨h1, h2⟩
    refine ⟨h2, fun k hk hlk hty hob => h1 ⟨k, (hsame k hk).2.2.mpr hlk, ?_, ?_⟩⟩
    · rw [(hsame k hk).1, hty]
    · rw [(hsame k hk).2.1, hob]
  · rintro ⟨h1, h2⟩
    refine ⟨?_, h1⟩
    rintro ⟨k, hlk, hty, hob⟩
    have hk : k ≠ d := by rintro rfl; exact not_live_empty t k hself hlk
    exact h2 k hk ((hsame k hk).2.2.mp hlk) (by rw [← (hsame k hk).1, hty])
      (by rw [← (hsame k hk).2.1, hob])

theorem destroySlot_spec (cs : CSpace N) (d : Nat) (hl : cs.Live d) :
    Ends (destroySlot d) cs (fun _ cs' => Destroyed cs d cs')
      (fun f _ => f = .oob ∧ ∃ p, (cs.slot d).parent = some p ∧ N ≤ p) := by
  have hd := hl.lt
  unfold destroySlot
  simp only [ends_bind, ends_readSlot, ends_ite, ends_pure, ends_writeSlot]
  refine ⟨fun h => by omega, fun _ => ⟨fun hn => by unfold Live at hl; simp [hl] at hn, fun _ =>
    ⟨fun h => by omega, fun _ => ?_⟩⟩⟩
  refine (credit_spec _ _ _).imp_ok fun _ t ht => ?_
  obtain ⟨hs, ho, hz⟩ := ht
  refine (zeroLast_spec t _).imp (fun _ t' ht' => ?_) (fun _ _ h => h.elim)
  obtain ⟨hs', ho', hz'⟩ := ht'
  have hslot : ∀ k, (cs.put d .EMPTY).slot k = if k = d then .EMPTY else cs.slot k :=
    fun k => slot_put cs d k _ hd
  have hcond : ∀ k, ((cs.slot d).cap.capType = .sched ∧ (cs.slot d).parent = some k ∧
      ((cs.put d .EMPTY).slot k).cap.capType = .sched) ↔ cs.Credits d k := by
    intro k
    rw [hslot k]
    unfold Credits
    by_cases hk : k = d
    · rw [if_pos hk]
      constructor
      · rintro ⟨-, -, h⟩; cases h
      · rintro ⟨-, -, h, -⟩; exact absurd hk h
    · rw [if_neg hk]
      constructor
      · rintro ⟨h1, h2, h3⟩; exact ⟨h1, h2, hk, h3⟩
      · rintro ⟨h1, h2, -, h3⟩; exact ⟨h1, h2, h3⟩
  have hself : t.slot d = .EMPTY := by
    rw [hs d, if_neg (fun h => (((hcond d).mp h).2.2.1) rfl), hslot d, if_pos rfl]
  have hcredit : ∀ k, cs.Credits d k → t.slot k =
      { cs.slot k with cap :=
        { (cs.slot k).cap with size := Word.saturatingAdd (cs.slot k).cap.size (cs.slot d).cap.size } } := by
    intro k hk
    rw [hs k, if_pos ((hcond k).mpr hk), hslot k, if_neg hk.2.2.1]
  have hframe : ∀ k, k ≠ d → ¬ cs.Credits d k → t.slot k = cs.slot k := by
    intro k hk hc
    rw [hs k, if_neg (fun h => hc ((hcond k).mp h)), hslot k, if_neg hk]
  -- the credit changes no type and no object, so the scan for another holder sees the old table
  have hanother : (t.another (cs.slot d).cap = false ∧ (cs.slot d).cap.capType ∉ linearTypes) ↔
    cs.Last d := last_iff_of_emptied hself (fun k hk => by
      by_cases hc : cs.Credits d k
      · unfold Live RawCap.isNull; rw [hcredit k hc]; exact ⟨rfl, rfl, Iff.rfl⟩
      · unfold Live; rw [hframe k hk hc]; exact ⟨rfl, rfl, Iff.rfl⟩)
  refine ⟨by rw [hs' d, hself], fun k hk => by rw [hs' k, hcredit k hk],
    fun k hk hc => by rw [hs' k, hframe k hk hc], by rw [ho', ho]; rfl, ?_⟩
  rw [hz] at hz'
  rcases hz' with ⟨h1, h2, h3⟩ | ⟨h1, h2⟩
  · exact Or.inl ⟨hanother.mp ⟨h1, h2⟩, h3⟩
  · exact Or.inr ⟨fun h => h1 (hanother.mpr h), h2⟩

/-! ## The loop of `revoke` -/

theorem ascend_spec (cs : CSpace N) (a : Nat) (fuel d : Nat) :
    Ends (ascend a fuel d) cs (fun _ t => t = cs) (fun f _ => f = .oob) := by
  induction fuel generalizing d with
  | zero => rfl
  | succ fuel ih =>
    rw [ascend, ends_bind, ends_readSlot]
    refine ⟨fun _ => rfl, fun _ => ?_⟩
    cases (cs.slot d).parent with
    | none => rfl
    | some p =>
      show Ends (if p = a then pure .found else ascend a fuel p) cs _ _
      rw [ends_ite]
      exact ⟨fun _ => rfl, fun _ => ih p⟩

/-- What the search of `revoke` finds, given what `is_descendant` answers. -/
theorem victim_spec (cs : CSpace N) (c : Nat) (R : Nat → Bool → Prop) (E : Fault → CSpace N → Prop)
    (hR : ∀ d, cs.Live d → Ends (isDescendant d c) cs (fun b t => t = cs ∧ R d b) E) :
    Ends (victim c) cs
      (fun r t => t = cs ∧
        (∀ d, r = some d → cs.Live d ∧ d ≠ c ∧ R d true ∧ cs.hasChildren d = false) ∧
        (r = none → ∀ d, cs.Live d → d ≠ c → R d false ∨ cs.hasChildren d = true))
      E := by
  unfold victim
  refine (ends_findRange (fun d b => (b = true → cs.Live d ∧ d ≠ c ∧ R d true ∧
    cs.hasChildren d = false) ∧
    (b = false → cs.Live d → d ≠ c → R d false ∨ cs.hasChildren d = true)) _ N (fun d _ => ?_)).imp
    (fun r t h => ?_) (fun _ _ h => h)
  · simp only [ends_bind, ends_get, ends_ite, ends_pure]
    refine ⟨fun h => ⟨trivial, fun h' => (by cases h'), fun _ hl hne => ?_⟩, fun h => ?_⟩
    · rcases h with h | h
      · exact absurd h hne
      · unfold Live at hl; rw [hl] at h; cases h
    · rw [not_or] at h
      have hl : cs.Live d := by unfold Live; simpa using h.2
      refine (hR d hl).imp_ok fun b t hb => ?_
      obtain ⟨rfl, hb⟩ := hb
      refine ⟨fun hbt => ⟨rfl, fun hc => ⟨hl, h.1, hbt ▸ hb, by simpa using hc⟩, fun hc _ _ =>
        Or.inr (by simpa using hc)⟩,
        fun hbf => ⟨rfl, fun h' => (by cases h'), fun _ _ _ => Or.inl ?_⟩⟩
      have : b = false := by simpa using hbf
      exact this ▸ hb
  · obtain ⟨rfl, h1, h2⟩ := h
    exact ⟨rfl, fun d hd => (h1 d hd).2.1 rfl, fun hn d hl => (h2 hn d hl.lt).2 rfl hl⟩

/-- One round after the other: each destroys some live slot other than `c`. -/
def Sweep (c : Nat) : CSpace N → CSpace N → Prop :=
  Relation.ReflTransGen fun cs cs' => ∃ d, d ≠ c ∧ cs.Live d ∧ Destroyed cs d cs'

theorem Destroyed.live_iff (h : Destroyed cs d cs') (k : Nat) : cs'.Live k ↔ k ≠ d ∧ cs.Live k := by
  by_cases hk : k = d
  · subst hk
    exact ⟨fun hl => absurd hl (not_live_empty cs' k h.self), fun hl => absurd rfl hl.1⟩
  · unfold Live RawCap.isNull
    by_cases hc : cs.Credits d k
    · rw [h.credit k hc]; simp [hk]
    · rw [h.frame k hk hc]; simp [hk]

/-- Destruction keeps the type, rights, object and parent of what stays. -/
theorem Destroyed.kept (h : Destroyed cs d cs') (k : Nat) (hk : k ≠ d) :
    (cs'.slot k).parent = (cs.slot k).parent ∧
      ∃ size, (cs'.slot k).cap = { (cs.slot k).cap with size := size } := by
  by_cases hc : cs.Credits d k
  · rw [h.credit k hc]; exact ⟨rfl, _, rfl⟩
  · rw [h.frame k hk hc]; exact ⟨rfl, (cs.slot k).cap.size, rfl⟩

/-- The number of live slots. -/
def population (cs : CSpace N) : Nat := cs.weigh fun cap => if cap.isNull then 0 else 1

theorem population_le (cs : CSpace N) : cs.population ≤ N := by
  unfold population weigh
  calc ∑ d ∈ Finset.range N, (if (cs.slot d).cap.isNull then 0 else 1) ≤ ∑ _d ∈ Finset.range N, 1 :=
        Finset.sum_le_sum fun d _ => by split <;> omega
    _ = N := by simp

theorem Destroyed.population_lt (hl : cs.Live d) (h : Destroyed cs d cs') :
    cs'.population < cs.population := by
  have hw :=
    weigh_change_one (fun cap => if cap.isNull then 0 else 1) cs cs' d hl.lt (fun k hk => by
    have := h.live_iff k
    unfold Live at this
    by_cases hn : (cs.slot k).cap.isNull = false
    · rw [hn, this.mpr ⟨hk, hn⟩]
    · have hn' : ¬ (cs'.slot k).cap.isNull = false := fun h' => hn (this.mp h').2
      rw [Bool.not_eq_false] at hn hn'
      rw [hn, hn'])
  have h1 : (cs.slot d).cap.isNull = false := hl
  have h2 : (cs'.slot d).cap.isNull = true := by rw [h.self]; rfl
  unfold population
  simp only [h1, h2, Bool.false_eq_true, if_true, if_false] at hw
  omega

/-- Each round destroys a live slot, so more rounds than live slots never run out. -/
theorem revokeLoop_spec (c : Nat) (fuel : Nat) (cs : CSpace N) (hf : cs.population < fuel) :
    Ends (revokeLoop c fuel) cs (fun _ cs' => Sweep c cs cs') (fun f _ => f = .oob) := by
  induction fuel generalizing cs with
  | zero => omega
  | succ fuel ih =>
    rw [revokeLoop, ends_bind]
    refine (victim_spec cs c (fun _ _ => True) (fun f _ => f = .oob) (fun d _ => ?_)).imp
      (fun r t h => ?_) (fun _ _ h => h)
    · unfold isDescendant
      rw [ends_bind]
      exact (ascend_spec cs c (N + 1) d).imp_ok fun _ t ht => ⟨ht, trivial⟩
    · obtain ⟨rfl, h1, -⟩ := h
      cases r with
      | none => exact Relation.ReflTransGen.refl
      | some d =>
        obtain ⟨hl, hne, -⟩ := h1 d rfl
        show Ends (destroySlot d >>= fun _ => revokeLoop c fuel) t _ _
        rw [ends_bind]
        refine (destroySlot_spec t d hl).imp (fun _ t' ht' => ?_) (fun _ _ h => h.1)
        refine (ih t' (by have := ht'.population_lt hl; omega)).imp_ok fun _ cs' hs => ?_
        exact Relation.ReflTransGen.head ⟨d, hne, hl, ht'⟩ hs

/-- The last step of `revoke`: an `Untyped` gets its frames back. -/
def reclaimed (cs : CSpace N) (c : Nat) : CSpace N :=
  if (cs.slot c).cap.capType = .untyped then
    cs.put c { cs.slot c with cap := { (cs.slot c).cap with watermark := 0 } }
  else cs

theorem Sweep.live_self (h : Sweep c cs cs') (hl : cs.Live c) : cs'.Live c := by
  induction h with
  | refl => exact hl
  | tail _ hd ih =>
    obtain ⟨d, hne, -, hd⟩ := hd
    exact (hd.live_iff c).mpr ⟨fun e => hne e.symm, ih⟩

/-- The entries of a sweep: as they were, or a `Sched` that was credited. -/
theorem sweep_entry (h : Sweep c cs t) (k : Nat) (hk : t.Live k) :
    cs.Live k ∧ (t.slot k).parent = (cs.slot k).parent ∧ ((t.slot k).cap = (cs.slot k).cap ∨
      ((cs.slot k).cap.capType = .sched ∧ ∃ b : Budget, (t.slot k).cap = b.writeInto
        (cs.slot k).cap)) := by
  induction h with
  | refl => exact ⟨hk, rfl, Or.inl rfl⟩
  | @tail u v _ hd ih =>
    obtain ⟨d, -, -, hd⟩ := hd
    obtain ⟨hne, hl⟩ := (hd.live_iff k).mp hk
    obtain ⟨h1, h2, h3⟩ := ih hl
    by_cases hc : u.Credits d k
    · have hs : (u.slot k).cap.capType = .sched := hc.2.2.2
      rw [hd.credit k hc]
      refine ⟨h1, h2, Or.inr ?_⟩
      rcases h3 with h3 | ⟨h3, b, hb⟩
      · rw [h3] at hs ⊢
        exact ⟨hs, ⟨_, (cs.slot k).cap.watermark, (cs.slot k).cap.aux⟩, rfl⟩
      · simp only [hb]
        exact ⟨h3, ⟨_, b.consumed, b.period⟩, rfl⟩
    · rw [hd.frame k hne hc]
      exact ⟨h1, h2, h3⟩

theorem slot_reclaimed (cs : CSpace N) (c k : Nat) (hc : c < N) :
    (cs.reclaimed c).slot k =
      if k = c ∧ (cs.slot c).cap.capType = .untyped then
        { cs.slot c with cap := { (cs.slot c).cap with watermark := 0 } }
      else cs.slot k := by
  unfold reclaimed
  by_cases ht : (cs.slot c).cap.capType = .untyped
  · rw [if_pos ht, slot_put cs c k _ hc]
    simp [ht]
  · rw [if_neg ht, if_neg (fun h => ht h.2)]

theorem live_reclaimed (cs : CSpace N) (c k : Nat) (hc : c < N) :
    (cs.reclaimed c).Live k ↔ cs.Live k := by
  unfold Live RawCap.isNull
  rw [slot_reclaimed cs c k hc]
  by_cases h : k = c ∧ (cs.slot c).cap.capType = .untyped
  · rw [if_pos h, h.1]
  · rw [if_neg h]

theorem revoke_spec (cs : CSpace N) (c : Nat) :
    Ends (revoke c) cs (fun _ cs' => cs.Live c ∧ ∃ t, Sweep c cs t ∧ cs' = t.reclaimed c)
      (fun f cs' => Refused cs f cs' ∨ f = .oob) := by
  unfold revoke
  simp only [ends_bind, ends_live, refused_err, implies_true, true_and, true_or]
  intro hl
  refine (revokeLoop_spec c (N + 1) cs (by have := cs.population_le; omega)).imp (fun _ t ht => ?_)
    (fun _ _ h => Or.inr h)
  have hc := hl.lt
  simp only [ends_readSlot, ends_ite, ends_writeSlot, ends_pure]
  refine ⟨fun _ => by simp, fun _ => ⟨fun hu => ⟨fun _ => by simp, fun _ => ⟨hl, t, ht, ?_⟩⟩, fun hu => ⟨hl, t, ht, ?_⟩⟩⟩
  · unfold reclaimed; rw [if_pos hu]
  · unfold reclaimed; rw [if_neg hu]

theorem delete_spec (cs : CSpace N) (c : Nat) :
    Ends (delete c) cs
      (fun _ cs' => cs.Live c ∧ ∃ t, Sweep c cs t ∧ (t.reclaimed c).Live c ∧
        Destroyed (t.reclaimed c) c cs')
      (fun f cs' => Refused cs f cs' ∨ f = .oob) := by
  unfold delete
  rw [ends_bind]
  refine (revoke_spec cs c).imp_ok fun _ u hu => ?_
  obtain ⟨hl, t, ht, rfl⟩ := hu
  have hl' : (t.reclaimed c).Live c := (live_reclaimed t c c hl.lt).mpr (ht.live_self hl)
  exact (destroySlot_spec _ c hl').imp (fun _ cs' h => ⟨hl, t, ht, hl', h⟩) (fun _ _ h =>
    Or.inr h.1)

theorem consumeReply_spec (cs : CSpace N) (dest : Nat) :
    Ends (consumeReply dest) cs
      (fun v cs' => cs.Live dest ∧ (cs.slot dest).cap.capType = .reply ∧
        v = (cs.slot dest).cap.objref ∧
        Destroyed cs dest cs')
      (fun f cs' => Refused cs f cs' ∨ (f = .oob ∧ ∃ p, (cs.slot dest).parent = some p ∧ N ≤ p)) :=
        by
  unfold consumeReply
  simp only [ends_bind, ends_live, ends_refuseIf, ends_pure, refused_err, implies_true, true_and,
    true_or, not_not]
  intro hl ht
  exact (destroySlot_spec cs dest hl).imp (fun _ cs' h => ⟨hl, ht, h⟩) (fun _ _ h => Or.inr h)

end CSpace

end Praesidium
