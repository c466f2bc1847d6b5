import Praesidium.CapCore.Action

/-!
Linear quantities: what no operation on capabilities can multiply.

A `Weight` is a number for each record that ignores what may be derived freely.
Two of them matter: the CPU time of the `Sched` records (`schedTime`) and, for a
type no operation duplicates and an object, the number of its records
(`holdings`).  Over the table of a space the sum of a weight obeys one law, from
any state:

    CallEffect cs c v cs' → cs'.weigh W.w ≤ cs.weigh W.w + minted W c      (call_weigh_le)

with equality for the operations that only move budget or capabilities
(`call_weigh_eq`), and a grant leaves the sum over its two spaces as it was
(`grant_weigh`).  Budget is lost only where a credit saturates.
-/

namespace Praesidium

open Fallible

open CSpace (linearTypes)

/-! ## Weights -/

/-- A weight of records that derivation cannot multiply.  `Sched` records weigh their
capacity or nothing; other records weigh what their type and object say. -/
structure Weight where
  w : RawCap → Nat
  time : Bool
  plain : ∀ cap, cap.capType ∉ linearTypes → w cap = 0
  sched : ∀ cap, cap.capType = .sched → w cap = if time then cap.size.toNat else 0
  kept : ∀ cap cap', cap.capType ≠ .sched → cap'.capType = cap.capType → cap'.objref = cap.objref →
    w cap' = w cap

/-- The capacity of a `Sched`, and 0 for any other record. -/
def schedSize (cap : RawCap) : Nat := if cap.capType = .sched then cap.size.toNat else 0

/-- CPU time. -/
def schedTime : Weight where
  w := schedSize
  time := true
  plain := by
    intro cap h
    apply if_neg
    intro e
    rw [e] at h
    exact h (by decide)
  sched := by
    intro cap h
    exact if_pos h
  kept := by
    intro cap cap' h ht _
    unfold schedSize
    rw [ht, if_neg h, if_neg h]

/-- The types whose capabilities are never duplicated. -/
abbrev singleTypes : List CapType := [.untyped, .reply, .domain, .sharedRo]

/-- The record names object `o` of type `t`. -/
def names (t : CapType) (o : U64) (cap : RawCap) : Nat :=
  if cap.capType = t ∧ cap.objref = o then 1 else 0

/-- The capabilities to one object of a type that is never duplicated. -/
def holdings (t : CapType) (o : U64) (ht : t ∈ singleTypes) : Weight where
  w := names t o
  time := false
  plain := by
    intro cap h
    apply if_neg
    rintro ⟨rfl, -⟩
    apply h
    simp only [List.mem_cons, List.not_mem_nil, or_false] at ht ⊢
    rcases ht with e | e | e | e <;> simp [e]
  sched := by
    intro cap h
    apply if_neg
    rintro ⟨rfl, -⟩
    rw [h] at ht
    exact absurd ht (by decide)
  kept := by
    intro cap cap' _ hty hob
    unfold names
    rw [hty, hob]

namespace Weight

variable (W : Weight)

theorem w_null (cap : RawCap) (h : cap.isNull = true) : W.w cap = 0 := by
  apply W.plain
  have : cap.capType = .null := by simpa [RawCap.isNull] using h
  rw [this]
  decide

theorem w_empty : W.w Cte.EMPTY.cap = 0 := W.w_null _ rfl

/-- A record narrowed for a transfer weighs the same. -/
theorem w_narrowed (cap : RawCap) (rights : Rights) (badge : U64) :
    W.w { cap with rights := rights, badge := badge } = W.w cap := by
  by_cases h : cap.capType = .sched
  · rw [W.sched cap h, W.sched { cap with rights := rights, badge := badge } h]
  · exact W.kept cap _ h rfl rfl

end Weight

namespace CSpace

variable {N : Nat} (W : Weight) {cs cs' t : CSpace N}

theorem w_of_not_live (c : Nat) (h : ¬ cs.Live c) : W.w (cs.slot c).cap = 0 :=
  W.w_null _ (isNull_of_not_live cs c h)

theorem weigh_congr (w : RawCap → Nat) (h : ∀ k, w (cs'.slot k).cap = w (cs.slot k).cap) :
    cs'.weigh w = cs.weigh w :=
  Finset.sum_congr rfl fun k _ => h k

theorem weigh_change_two (w : RawCap → Nat) (cs cs' : CSpace N) (a b : Nat) (ha : a < N)
    (hb : b < N) (hab : a ≠ b) (h : ∀ k, k ≠ a → k ≠ b → w (cs'.slot k).cap = w (cs.slot k).cap) :
    cs'.weigh w + (w (cs.slot a).cap + w (cs.slot b).cap) = cs.weigh
      w + (w (cs'.slot a).cap + w (cs'.slot b).cap) :=
  Tally.sum_change_two _ _ _ a b (Finset.mem_range.mpr ha) (Finset.mem_range.mpr hb) hab fun k _ =>
  h k

/-- A record in an empty slot adds its weight. -/
theorem weigh_place (d : Nat) (e : Cte) (hd : d < N) (hfree : ¬ cs.Live d) :
    (cs.put d e).weigh W.w = cs.weigh W.w + W.w e.cap := by
  have h := weigh_put W.w cs d e hd
  rw [w_of_not_live W d hfree] at h
  omega

/-! ## Destruction -/

variable {d k dest src : Nat} {amount : U32}

/-- The capacity a destruction credits; what does not fit is lost. -/
theorem schedSize_credit (h : Destroyed cs d t) (hc : cs.Credits d k) :
    schedSize (t.slot k).cap = min (2 ^ 32 - 1)
      (schedSize (cs.slot k).cap + schedSize (cs.slot d).cap) := by
  rw [h.credit k hc]
  simp only [schedSize, hc.1, hc.2.2.2, if_true, Word.saturatingAdd_toNat]

theorem w_credit (h : Destroyed cs d t) (hc : cs.Credits d k) :
    W.w (t.slot k).cap ≤ W.w (cs.slot k).cap + W.w (cs.slot d).cap := by
  rw [W.sched _ hc.1, W.sched _ hc.2.2.2,
    W.sched (t.slot k).cap (by rw [h.credit k hc]; exact hc.2.2.2), h.credit k hc]
  cases W.time with
  | false => exact Nat.le_refl _
  | true =>
    simp only [if_true, Word.saturatingAdd_toNat]
    omega

theorem Destroyed.weigh_le (hl : cs.Live d) (h : Destroyed cs d t) :
    t.weigh W.w ≤ cs.weigh W.w := by
  by_cases hc : ∃ k, cs.Credits d k
  · obtain ⟨k, hk⟩ := hc
    by_cases hkN : k < N
    · have hsum :=
        weigh_change_two W.w cs t d k hl.lt hkN (fun e => hk.2.2.1 e.symm) (fun j hj hjk => by
        rw [h.frame j hj (fun hc => hjk (hc.uniq hk))])
      have hcredit := w_credit W h hk
      rw [h.self, W.w_empty] at hsum
      omega
    · -- a link past the end credits nothing: no record there is a `Sched`
      have := hk.2.2.2
      rw [slot_of_le cs k (by omega)] at this
      cases this
  · have hsum :=
      weigh_change_one W.w cs t d hl.lt (fun k hk => by rw [h.frame k hk (fun hc' => hc ⟨k, hc'⟩)])
    rw [h.self, W.w_empty] at hsum
    omega

theorem Sweep.weigh_le {c : Nat} (h : Sweep c cs t) : t.weigh W.w ≤ cs.weigh W.w := by
  induction h with
  | refl => exact Nat.le_refl _
  | tail _ hd ih =>
    obtain ⟨d, -, hl, hd⟩ := hd
    exact Nat.le_trans (hd.weigh_le W hl) ih

theorem weigh_reclaimed (c : Nat) (hc : c < N) : (cs.reclaimed c).weigh W.w = cs.weigh W.w := by
  apply weigh_congr
  intro k
  rw [slot_reclaimed cs c k hc]
  by_cases h : k = c ∧ (cs.slot c).cap.capType = .untyped
  · rw [if_pos h, h.1]
    exact W.kept _ _ (by rw [h.2]; decide) rfl rfl
  · rw [if_neg h]

/-! ## Derivation and transfer -/

theorem plain_of_retypeable (newType : CapType) (h : isRetypeable newType = true) :
    newType ∉ linearTypes := by
  cases newType <;> first | decide | cases h

theorem Retyped.weigh_eq {ut : Nat} {newType : CapType} {framesPerObj count : U32}
    (hr : Retyped cs ut newType framesPerObj count dest cs') : cs'.weigh W.w = cs.weigh W.w := by
  apply weigh_congr
  intro k
  by_cases hk : dest ≤ k ∧ k < dest + count.toNat
  · -- a new object in what was an empty slot
    have hki : dest + (k - dest) = k := by omega
    have hfree := hr.free (k - dest) (by omega)
    have hmade := hr.made (k - dest) (by omega)
    rw [hki] at hfree hmade
    rw [w_of_not_live W k hfree, hmade]
    exact W.plain _ (plain_of_retypeable newType hr.retypeable)
  · by_cases e : k = ut
    · obtain ⟨watermark, -, hut⟩ := hr.charged
      rw [e, hut]
      exact W.kept _ _ (by rw [hr.untyped]; decide) rfl rfl
    · rw [hr.frame k e (by omega)]

theorem Moved.weigh_eq (hl : cs.Live src) (hne : dest ≠ src) (hd : dest < N)
    (hfree : ¬ cs.Live dest) (h : Moved cs src dest cs') : cs'.weigh W.w = cs.weigh W.w := by
  have hsrc : cs'.slot src = .EMPTY := by rw [h.slot, if_pos rfl]
  have hdest : cs'.slot dest = cs.slot src := by rw [h.slot, if_neg hne, if_pos rfl]
  have hsum :=
    weigh_change_two W.w cs cs' src dest hl.lt hd (fun e => hne e.symm) (fun k hk hk' => by
    rw [h.slot, if_neg hk, if_neg hk']
    unfold reparented
    split <;> rfl)
  rw [hsrc, hdest, W.w_empty, w_of_not_live W dest hfree] at hsum
  omega

theorem w_withBudget (c : Nat) (b : Budget) (h : (cs.slot c).cap.capType = .sched) :
    W.w (cs.withBudget c b).cap = if W.time then b.capacity.toNat else 0 :=
  W.sched (cs.withBudget c b).cap h

theorem split_weigh {child parent : Budget} {next : U64} (hl : cs.Live src)
    (ht : (cs.slot src).cap.capType = .sched) (hd : dest < N) (hfree : ¬ cs.Live dest)
    (hs : (Budget.fromCap (cs.slot src).cap).split amount = some (child, parent)) :
    (cs.afterSplit src dest child parent next).weigh W.w = cs.weigh W.w := by
  have hne : src ≠ dest := fun e => hfree (e ▸ hl)
  have h1 := weigh_place W dest ⟨schedChild (cs.slot src).cap cs.nextObj child, some src⟩ hd hfree
  have h2 :=
    weigh_put W.w (cs.put dest ⟨schedChild (cs.slot src).cap cs.nextObj child, some src⟩) src
    (cs.withBudget src parent) hl.lt
  rw [slot_put cs dest src _ hd, if_neg hne, w_withBudget W src parent ht, W.sched _ ht] at h2
  rw [show W.w (schedChild (cs.slot src).cap cs.nextObj child) = _ from W.sched _ rfl] at h1
  have hsum : parent.capacity.toNat + child.capacity.toNat = (cs.slot src).cap.size.toNat :=
    (Budget.split_spec _ _ _ _ hs).2
  show ((cs.put dest _).put src _).weigh W.w = _
  cases ht : W.time with
  | false => simp only [ht, Bool.false_eq_true, if_false] at h1 h2; omega
  | true =>
    simp only [ht, if_true] at h1 h2
    have : (schedChild (cs.slot src).cap cs.nextObj child).size.toNat = child.capacity.toNat := rfl
    omega

theorem delegate_weigh {s d : Budget} (hne : src ≠ dest) (hl : cs.Live src) (hl' : cs.Live dest)
    (ht : (cs.slot src).cap.capType = .sched) (ht' : (cs.slot dest).cap.capType = .sched)
    (hs : (Budget.fromCap (cs.slot src).cap).delegate (Budget.fromCap (cs.slot dest).cap) amount =
      some (s, d)) :
    ((cs.put src (cs.withBudget src s)).put dest (cs.withBudget dest d)).weigh W.w =
      cs.weigh W.w := by
  have h1 := weigh_put W.w cs src (cs.withBudget src s) hl.lt
  have h2 := weigh_put W.w (cs.put src (cs.withBudget src s)) dest (cs.withBudget dest d) hl'.lt
  rw [slot_put cs src dest _ hl.lt, if_neg (fun e => hne e.symm), w_withBudget W dest d ht',
    W.sched _ ht'] at h2
  rw [w_withBudget W src s ht, W.sched _ ht] at h1
  have hsum : s.capacity.toNat + d.capacity.toNat = (cs.slot src).cap.size.toNat +
    (cs.slot dest).cap.size.toNat := Budget.delegate_spec _ _ _ _ _ hs
  cases ht : W.time with
  | false => simp only [ht, Bool.false_eq_true, if_false] at h1 h2; omega
  | true => simp only [ht, if_true] at h1 h2; omega

end CSpace

/-! ## Calls and grants -/

/-- What a call may add to a weight: only `mint_reply` makes a record that counts. -/
def minted (W : Weight) : Call → Nat
  | .mintReply _ caller badge => W.w ⟨.reply, Rights.empty, caller, 0, 0, 0, badge⟩
  | _ => 0

/-- The calls that are exact: they move budget or capabilities, or make one `Reply`. -/
def Call.Transfers : Call → Prop
  | .split _ _ _ => True
  | .delegate _ _ _ => True
  | .moveCap _ _ => True
  | .mintReply _ _ _ => True
  | _ => False

open CSpace

variable {N : Nat} {cs cs' : CSpace N} {c : Call} {v : Option U64}

/-- **Transfers are exact.** -/
theorem call_weigh_eq (W : Weight) (hc : c.Transfers) (h : CallEffect cs c v cs') :
    cs'.weigh W.w = cs.weigh W.w + minted W c := by
  cases h with
  | stay => rfl
  | moveCap h1 h2 h3 h4 hm => exact hm.weigh_eq W h1 h2 h3 h4
  | split h1 h2 h3 h4 h5 => exact split_weigh W h1 h2 h3 h4 h5
  | delegateSelf => rfl
  | delegate h1 h2 h3 h4 h5 h6 => exact delegate_weigh W h1 h2 h3 h4 h5 h6
  | mintReply h1 h2 => exact weigh_place W _ _ h1 h2
  | _ => exact hc.elim

/-- **No call multiplies a linear quantity.** -/
theorem call_weigh_le (W : Weight) (h : CallEffect cs c v cs') :
    cs'.weigh W.w ≤ cs.weigh W.w + minted W c := by
  by_cases hc : c.Transfers
  · exact Nat.le_of_eq (call_weigh_eq W hc h)
  cases h with
  | retype hr => exact Nat.le_of_eq (hr.weigh_eq W)
  | @mint src dest newRights badge _ ht _ hd hfree =>
    rw [weigh_place W dest _ hd hfree]
    exact Nat.le_of_eq (congrArg _
      (W.plain { (cs.slot src).cap with rights := newRights, badge := badge } ht))
  | @copy src dest _ ht hd hfree =>
    rw [weigh_place W dest _ hd hfree]
    exact Nat.le_of_eq (congrArg _ (W.plain (cs.slot src).cap ht))
  | consumeReply hl _ hd => exact hd.weigh_le W hl
  | revoke hl hs =>
    rw [weigh_reclaimed W _ hl.lt]
    exact hs.weigh_le W
  | delete hl hs hl' hd =>
    refine Nat.le_trans (hd.weigh_le W hl') ?_
    rw [weigh_reclaimed W _ hl.lt]
    exact hs.weigh_le W
  | _ => exact absurd trivial hc

/-- **A grant moves a linear quantity** from one space to the other. -/
theorem grant_weigh {M : Nat} (W : Weight) {a a' : CSpace N} {b b' : CSpace M}
    {srcSlot dstSlot : Nat} {newRights : Rights} {badge : U64} {mode : GrantMode}
    (h : Granted a srcSlot b dstSlot newRights badge mode a' b') :
    a'.weigh W.w + b'.weigh W.w = a.weigh W.w + b.weigh W.w := by
  have hdst :=
    weigh_place W dstSlot ⟨{ (a.slot srcSlot).cap with rights := newRights, badge := badge }, NIL⟩
    h.inRange h.free
  rw [show W.w (Cte.mk { (a.slot srcSlot).cap with rights := newRights, badge := badge } NIL).cap =
    _ from W.w_narrowed (a.slot srcSlot).cap newRights badge] at hdst
  rw [h.dst, h.src]
  by_cases hm : mode = .move
  · have hsrc := weigh_put W.w a srcSlot .EMPTY h.live.lt
    rw [W.w_empty] at hsrc
    rw [if_pos hm]
    omega
  · -- a minted record is of a type that weighs nothing
    have hmint : mode = .mint := by cases mode <;> simp at hm ⊢
    have hty : (a.slot srcSlot).cap.capType ∉ linearTypes := by
      have h1 := h.transferable
      have h2 := h.mintable hmint
      simp only [List.mem_cons, List.not_mem_nil, or_false, not_or] at h1 h2 ⊢
      exact ⟨h2.1, h2.2.1, h1.1, h2.2.2, h1.2⟩
    rw [if_neg hm, hdst, W.plain _ hty]
    omega

end Praesidium
