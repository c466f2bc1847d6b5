import Mathlib.Algebra.GroupWithZero.Nat
import Mathlib.Order.Interval.Finset.Nat
import Mathlib.Tactic.Common

/-!
Lists of half-open ranges `(start, stop)` of numbers.

Ranges that are pairwise apart have as many numbers as their lengths add up to
(`sum_eq_card`).  A list is `Ordered` when its ranges are not empty and each one ends before the
next ones start; it is enough to look at neighbours (`ordered_of_chain`), and the first range and
the last one then bound them all.
-/

namespace Ranges

/-- `p` is in one of the ranges. -/
def Covers (l : List (Nat × Nat)) (p : Nat) : Prop := ∃ r ∈ l, r.1 ≤ p ∧ p < r.2

def Apart (a b : Nat × Nat) : Prop := a.2 ≤ b.1 ∨ b.2 ≤ a.1

structure Ordered (l : List (Nat × Nat)) : Prop where
  nonempty : ∀ r ∈ l, r.1 < r.2
  before : l.Pairwise fun a b => a.2 ≤ b.1

/-- The numbers in all, counted range by range. -/
def extent (l : List (Nat × Nat)) : Nat := (l.map fun r => r.2 - r.1).sum

variable {l : List (Nat × Nat)} {r q : Nat × Nat}

theorem extent_cons (r : Nat × Nat) (l : List (Nat × Nat)) :
    extent (r :: l) = (r.2 - r.1) + extent l := by
  unfold extent
  rw [List.map_cons, List.sum_cons]

theorem covers_cons {p : Nat} : Covers (r :: l) p ↔ (r.1 ≤ p ∧ p < r.2) ∨ Covers l p := by
  unfold Covers
  rw [List.exists_mem_cons_iff]

theorem sum_eq_card (hl : l.Pairwise Apart) (s : Finset Nat) (hs : ∀ p, p ∈ s ↔ Covers l p) :
    extent l = s.card := by
  induction l generalizing s with
  | nil =>
    have hempty : s = ∅ := Finset.eq_empty_of_forall_notMem fun p hp => by
      obtain ⟨r, hr, -⟩ := (hs p).mp hp
      cases hr
    rw [hempty]
    rfl
  | cons r l ih =>
    obtain ⟨hr, hrest⟩ := List.pairwise_cons.mp hl
    have hsub : Finset.Ico r.1 r.2 ⊆ s :=
      fun p hp => (hs p).mpr ⟨r, List.mem_cons_self, Finset.mem_Ico.mp hp⟩
    have hsplit := Finset.card_sdiff_add_card_eq_card hsub
    rw [extent_cons, ih hrest (s \ Finset.Ico r.1 r.2) fun p => ?_, ← hsplit, Nat.card_Ico,
      Nat.add_comm]
    rw [Finset.mem_sdiff, hs p, covers_cons, Finset.mem_Ico]
    constructor
    · rintro ⟨hp, hnot⟩
      exact hp.resolve_left hnot
    · rintro ⟨q, hq, h1, h2⟩
      refine ⟨.inr ⟨q, hq, h1, h2⟩, fun hc => ?_⟩
      have hap : r.2 ≤ q.1 ∨ q.2 ≤ r.1 := hr q hq
      omega

/-- **Neighbours are enough.** -/
theorem ordered_of_chain (hne : ∀ r ∈ l, r.1 < r.2) (hc : l.IsChain fun a b => a.2 ≤ b.1) :
    Ordered l := by
  refine ⟨hne, ?_⟩
  induction l with
  | nil => exact .nil
  | cons r l ih =>
    have hrest := ih (fun q hq => hne q (List.mem_cons_of_mem r hq)) hc.tail
    refine List.pairwise_cons.mpr ⟨fun q hq => ?_, hrest⟩
    cases l with
    | nil => cases hq
    | cons a l =>
      -- the next range starts after `r`, and the others after the next
      have hra : r.2 ≤ a.1 := (List.isChain_cons_cons.mp hc).1
      rcases List.mem_cons.mp hq with rfl | hq
      · exact hra
      · have haq : a.2 ≤ q.1 := (List.pairwise_cons.mp hrest).1 q hq
        have ha : a.1 < a.2 := hne a (List.mem_cons_of_mem r List.mem_cons_self)
        omega

theorem Ordered.apart (h : Ordered l) : l.Pairwise Apart := h.before.imp fun hab => .inl hab

theorem Ordered.tail (h : Ordered (r :: l)) : Ordered l :=
  ⟨fun q hq => h.nonempty q (List.mem_cons_of_mem r hq), (List.pairwise_cons.mp h.before).2⟩

theorem Ordered.le_of_mem (h : Ordered (r :: l)) (hq : q ∈ l) : r.2 ≤ q.1 :=
  (List.pairwise_cons.mp h.before).1 q hq

/-- The first range is the lowest. -/
theorem Ordered.head_le (h : Ordered (r :: l)) (hq : q ∈ r :: l) : r.1 ≤ q.1 := by
  rcases List.mem_cons.mp hq with rfl | hq
  · exact Nat.le_refl _
  · have := h.le_of_mem hq
    have := h.nonempty r List.mem_cons_self
    omega

/-- The last range is the highest. -/
theorem Ordered.le_last (h : Ordered l) (hq : q ∈ l) (d : Nat × Nat) : q.2 ≤ (l.getLastD d).2 := by
  induction l generalizing d q with
  | nil => cases hq
  | cons r l ih =>
    rw [List.getLastD_cons]
    cases l with
    | nil =>
      rw [List.mem_singleton.mp hq]
      exact Nat.le_refl _
    | cons a l =>
      rcases List.mem_cons.mp hq with rfl | hq
      · have hlast := ih h.tail List.mem_cons_self q
        have := h.le_of_mem List.mem_cons_self
        have := h.nonempty a (List.mem_cons_of_mem q List.mem_cons_self)
        omega
      · exact ih h.tail hq r

/-- A number is in one range. -/
theorem Ordered.eq_of_mem (h : Ordered l) (hr : r ∈ l) (hq : q ∈ l) {p : Nat}
    (hrp : r.1 ≤ p ∧ p < r.2) (hqp : q.1 ≤ p ∧ p < q.2) : r = q := by
  by_contra hne
  have hsymm : Std.Symm Apart := ⟨fun _ _ hab => Or.symm hab⟩
  have hap : r.2 ≤ q.1 ∨ q.2 ≤ r.1 := h.apart.forall hr hq hne
  omega

end Ranges
