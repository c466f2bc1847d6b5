import Mathlib.Tactic.Common

/-!
Words read as a field of flags beside an address.

`has e f`: `e` and the flag `f` share a bit.  A mask either keeps a flag (`f &&& m = f`) or
drops it (`f &&& m = 0`), and both are closed facts for constants:

    has (a ||| b) f = (has a f || has b f)             (has_or)
    f &&& m = f → has (a &&& m) f = has a f            (has_keep)
    f &&& m = 0 → has (a &&& m) f = false              (has_drop)
    a &&& m = a → c &&& m = 0 → (a ||| c) &&& m = a    (or_and_of_masked)
-/

namespace Flags

variable {w : Nat}

def has (e f : BitVec w) : Bool := e &&& f != 0

theorem has_eq_false (e f : BitVec w) : has e f = false ↔ e &&& f = 0 := by
  unfold has
  rw [bne_eq_false_iff_eq]

theorem or_and (a b m : BitVec w) : (a ||| b) &&& m = (a &&& m) ||| (b &&& m) := by
  rw [BitVec.and_comm, BitVec.and_or_distrib_left, BitVec.and_comm m a, BitVec.and_comm m b]

theorem or_eq_zero (a b : BitVec w) : a ||| b = 0 ↔ a = 0 ∧ b = 0 := by
  constructor
  · intro h
    have bit : ∀ i (hi : i < w), a[i] = false ∧ b[i] = false := fun i hi => by
      have := congrArg (fun x : BitVec w => x[i]) h
      simpa using this
    exact ⟨BitVec.eq_of_getElem_eq fun i
      hi => by simp [bit i hi], BitVec.eq_of_getElem_eq fun i hi => by simp [bit i hi]⟩
  · rintro ⟨rfl, rfl⟩
    exact BitVec.or_self

@[simp] theorem has_zero (f : BitVec w) : has 0 f = false := by
  rw [has_eq_false]
  exact BitVec.zero_and

@[simp] theorem has_or (a b f : BitVec w) : has (a ||| b) f = (has a f || has b f) := by
  rw [Bool.eq_iff_iff, ← not_iff_not, Bool.not_eq_true, has_eq_false, or_and, or_eq_zero,
    ← has_eq_false, ← has_eq_false]
  simp

variable {a f b m : BitVec w}

/-- A flag that one part of a word sets. -/
theorem has_or_left (b : BitVec w) (h : has a f = true) : has (a ||| b) f = true := by
  rw [has_or, h, Bool.true_or]

theorem has_or_right (a : BitVec w) (h : has b f = true) : has (a ||| b) f = true := by
  rw [has_or, h, Bool.or_true]

theorem has_keep (a : BitVec w) (h : f &&& m = f) : has (a &&& m) f = has a f := by
  unfold has
  rw [BitVec.and_assoc, BitVec.and_comm m f, h]

theorem has_drop (a : BitVec w) (h : f &&& m = 0) : has (a &&& m) f = false := by
  rw [has_eq_false, BitVec.and_assoc, BitVec.and_comm m f, h]
  exact BitVec.and_zero

/-- A word inside the mask has no flag outside it. -/
theorem has_of_masked (ha : a &&& m = a) (h : f &&& m = 0) : has a f = false := by
  rw [← ha]
  exact has_drop a h

theorem or_and_of_masked {c : BitVec w} (ha : a &&& m = a) (hc : c &&& m = 0) :
    (a ||| c) &&& m = a := by
  rw [or_and, ha, hc]
  exact BitVec.or_zero

theorem and_not_and (a m : BitVec w) : (a &&& ~~~m) &&& m = 0 := by
  rw [BitVec.and_assoc, BitVec.not_and_self]
  exact BitVec.and_zero

theorem and_and_self (a m : BitVec w) : (a &&& m) &&& m = a &&& m := by
  rw [BitVec.and_assoc, BitVec.and_self]

theorem or_masked (ha : a &&& m = a) (hb : b &&& m = b) : (a ||| b) &&& m = a ||| b := by
  rw [or_and, ha, hb]

/-- A single bit that is set can be set again. -/
theorem or_of_has_bit {e : BitVec w} (k : Nat) (h : has e (BitVec.twoPow w k) = true) :
    e ||| BitVec.twoPow w k = e := by
  have bit : e.getLsbD k = true := by
    by_contra hc
    have zero : has e (BitVec.twoPow w k) = false := by
      rw [has_eq_false, BitVec.and_twoPow, if_neg hc]
      rfl
    rw [zero] at h
    cases h
  have kept : e &&& BitVec.twoPow w k = BitVec.twoPow w k := by rw [BitVec.and_twoPow, if_pos bit]
  apply BitVec.eq_of_getLsbD_eq
  intro i _
  have at_i := congrArg (fun x : BitVec w => x.getLsbD i) kept
  simp only [BitVec.getLsbD_and, BitVec.getLsbD_or] at at_i ⊢
  rw [← at_i]
  cases e.getLsbD i <;> rfl

/-- A mask splits a word in two parts. -/
theorem toNat_split_mask (a m : BitVec w) : (a &&& ~~~m).toNat + (a &&& m).toNat = a.toNat := by
  have apart : (a &&& ~~~m) &&& (a &&& m) = 0 := by
    rw [BitVec.and_comm a m, ← BitVec.and_assoc, and_not_and]
    exact BitVec.zero_and
  have whole : (a &&& ~~~m) ||| (a &&& m) = a := by
    rw [← BitVec.and_or_distrib_left, BitVec.not_or_self, BitVec.and_allOnes]
  rw [← BitVec.toNat_add_of_and_eq_zero apart, BitVec.add_eq_or_of_and_eq_zero _ _ apart, whole]

end Flags
