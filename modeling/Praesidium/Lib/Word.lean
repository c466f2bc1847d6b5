import Mathlib.Algebra.Group.Nat.Defs
import Mathlib.Tactic.Common

/-!
Fixed-width unsigned arithmetic that refuses or clamps instead of wrapping.

`checkedAdd`, `checkedSub` and `checkedMul` are `none` exactly when the exact
result does not fit; `saturatingAdd` and `saturatingSub` clamp to the ends of
the range; `tryFrom` and `narrow` are the conversions; `trailingZeros` and `leadingZeros` count
bits.  Every lemma is about `toNat`, so that a caller's side conditions are plain arithmetic:

    checkedAdd a b = some c ↔ c.toNat = a.toNat + b.toNat         (checkedAdd_eq_some)
    (saturatingAdd a b).toNat = min (2 ^ w - 1) (a.toNat + b.toNat)   (saturatingAdd_toNat)
-/

namespace Word

/-! ## Operations -/

def checkedAdd {w : Nat} (a b : BitVec w) : Option (BitVec w) :=
  if a.toNat + b.toNat < 2 ^ w then some (a + b) else none

def checkedSub {w : Nat} (a b : BitVec w) : Option (BitVec w) :=
  if b.toNat ≤ a.toNat then some (a - b) else none

def checkedMul {w : Nat} (a b : BitVec w) : Option (BitVec w) :=
  if a.toNat * b.toNat < 2 ^ w then some (a * b) else none

def saturatingAdd {w : Nat} (a b : BitVec w) : BitVec w :=
  if a.toNat + b.toNat < 2 ^ w then a + b else BitVec.allOnes w

def saturatingSub {w : Nat} (a b : BitVec w) : BitVec w :=
  if b.toNat ≤ a.toNat then a - b else 0#w

/-- A number as a `w`-bit word, if it is one. -/
def tryFrom (w n : Nat) : Option (BitVec w) := if n < 2 ^ w then some (BitVec.ofNat w n) else none

/-- A number, if it fits `w` bits. -/
def narrow (w n : Nat) : Option Nat := if n < 2 ^ w then some n else none

/-- The zero bits below the lowest one that is set, of `w` bits. -/
def trailingZeros : Nat → Nat → Nat
  | 0, _ => 0
  | w + 1, n => if n % 2 = 1 then 0 else trailingZeros w (n / 2) + 1

/-- The zero bits above the highest one that is set, of `w` bits. -/
def leadingZeros (w n : Nat) : Nat := if n = 0 then w else w - 1 - n.log2

/-! ## What they compute -/

variable {w n : Nat}

theorem checkedAdd_eq_some (a b c : BitVec w) :
    checkedAdd a b = some c ↔ c.toNat = a.toNat + b.toNat := by
  unfold checkedAdd
  constructor
  · intro h
    split at h
    · next hlt => rw [← Option.some.inj h, BitVec.toNat_add, Nat.mod_eq_of_lt hlt]
    · cases h
  · intro h
    have hlt : a.toNat + b.toNat < 2 ^ w := by rw [← h]; exact c.isLt
    rw [if_pos hlt]
    congr 1
    apply BitVec.eq_of_toNat_eq
    rw [BitVec.toNat_add, Nat.mod_eq_of_lt hlt, h]

theorem checkedAdd_eq_none (a b : BitVec w) :
    checkedAdd a b = none ↔ 2 ^ w ≤ a.toNat + b.toNat := by
  unfold checkedAdd
  split <;> simp <;> omega

theorem checkedSub_eq_some (a b c : BitVec w) :
    checkedSub a b = some c ↔ b.toNat ≤ a.toNat ∧ c.toNat = a.toNat - b.toNat := by
  unfold checkedSub
  constructor
  · intro h
    split at h
    · next hle =>
        exact ⟨hle, by rw [← Option.some.inj h, BitVec.toNat_sub_of_le (BitVec.le_def.mpr hle)]⟩
    · cases h
  · rintro ⟨hle, hc⟩
    rw [if_pos hle]
    congr 1
    apply BitVec.eq_of_toNat_eq
    rw [BitVec.toNat_sub_of_le (BitVec.le_def.mpr hle), hc]

theorem checkedSub_eq_none (a b : BitVec w) : checkedSub a b = none ↔ a.toNat < b.toNat := by
  unfold checkedSub
  split <;> simp <;> omega

theorem checkedMul_eq_some (a b c : BitVec w) :
    checkedMul a b = some c ↔ c.toNat = a.toNat * b.toNat := by
  unfold checkedMul
  constructor
  · intro h
    split at h
    · next hlt => rw [← Option.some.inj h, BitVec.toNat_mul, Nat.mod_eq_of_lt hlt]
    · cases h
  · intro h
    have hlt : a.toNat * b.toNat < 2 ^ w := by rw [← h]; exact c.isLt
    rw [if_pos hlt]
    congr 1
    apply BitVec.eq_of_toNat_eq
    rw [BitVec.toNat_mul, Nat.mod_eq_of_lt hlt, h]

theorem checkedMul_eq_none (a b : BitVec w) :
    checkedMul a b = none ↔ 2 ^ w ≤ a.toNat * b.toNat := by
  unfold checkedMul
  split <;> simp <;> omega

theorem saturatingAdd_toNat (a b : BitVec w) :
    (saturatingAdd a b).toNat = min (2 ^ w - 1) (a.toNat + b.toNat) := by
  unfold saturatingAdd
  split
  · next h => rw [BitVec.toNat_add, Nat.mod_eq_of_lt h]; omega
  · next h => rw [BitVec.toNat_allOnes]; omega

theorem saturatingSub_toNat (a b : BitVec w) : (saturatingSub a b).toNat = a.toNat - b.toNat := by
  unfold saturatingSub
  split
  · next h => exact BitVec.toNat_sub_of_le (BitVec.le_def.mpr h)
  · next h => rw [BitVec.toNat_zero]; omega

theorem tryFrom_eq_some (c : BitVec w) : tryFrom w n = some c ↔ c.toNat = n := by
  unfold tryFrom
  constructor
  · intro h
    split at h
    · next hlt => rw [← Option.some.inj h, BitVec.toNat_ofNat, Nat.mod_eq_of_lt hlt]
    · cases h
  · intro h
    rw [if_pos (h ▸ c.isLt), ← h, BitVec.ofNat_toNat, BitVec.setWidth_eq]

theorem tryFrom_eq_none : tryFrom w n = none ↔ 2 ^ w ≤ n := by
  unfold tryFrom
  split <;> simp <;> omega

theorem narrow_eq_some {m : Nat} : narrow w n = some m ↔ n < 2 ^ w ∧ m = n := by
  unfold narrow
  split
  · next h => rw [Option.some.injEq]; exact ⟨fun e => ⟨h, e.symm⟩, fun e => e.2.symm⟩
  · next h => exact ⟨fun e => (by cases e), fun e => absurd e.1 h⟩

/-- The low `k` bits are zero. -/
theorem and_mask_eq_zero (a m : BitVec w) (k : Nat) (hm : m.toNat = 2 ^ k - 1) :
    a &&& m = 0 ↔ a.toNat % 2 ^ k = 0 := by
  have hand : (a &&& m).toNat = a.toNat % 2 ^ k := by
    rw [BitVec.toNat_and, hm, Nat.and_two_pow_sub_one_eq_mod]
  rw [← hand]
  exact ⟨fun h => by rw [h]; rfl, fun h => BitVec.eq_of_toNat_eq h⟩

theorem narrow_eq_none : narrow w n = none ↔ 2 ^ w ≤ n := by
  unfold narrow
  split <;> simp <;> omega

/-! ## Counting zeros -/

theorem two_pow_trailingZeros_dvd (w n : Nat) : 2 ^ trailingZeros w n ∣ n := by
  induction w generalizing n with
  | zero => exact Nat.one_dvd n
  | succ w ih =>
    unfold trailingZeros
    split
    · exact Nat.one_dvd n
    · next h =>
      have hn : n = n / 2 * 2 := by omega
      rw [Nat.pow_succ, hn, Nat.mul_div_cancel _ (by decide)]
      exact Nat.mul_dvd_mul_right (ih (n / 2)) 2

theorem le_trailingZeros {k : Nat} (hk : k ≤ w) (h : 2 ^ k ∣ n) : k ≤ trailingZeros w n := by
  induction w generalizing n k with
  | zero => exact hk
  | succ w ih =>
    cases k with
    | zero => exact Nat.zero_le _
    | succ k =>
      obtain ⟨m, rfl⟩ := h
      have heven : 2 ^ (k + 1) * m = 2 * (2 ^ k * m) := by
        rw [Nat.pow_succ, Nat.mul_comm (2 ^ k), Nat.mul_assoc]
      unfold trailingZeros
      rw [heven, if_neg (by omega), Nat.mul_div_cancel_left _ (by decide)]
      exact Nat.succ_le_succ (ih (Nat.le_of_succ_le_succ hk) (Nat.dvd_mul_right _ _))

/-- The position of the highest bit, as it is computed from the zeros above it. -/
theorem sub_leadingZeros (hn : n ≠ 0) (h : n < 2 ^ w) :
    leadingZeros w n ≤ w - 1 ∧ w - 1 - leadingZeros w n = n.log2 := by
  have hlog : n.log2 < w := (Nat.log2_lt hn).mpr h
  unfold leadingZeros
  rw [if_neg hn]
  omega

end Word
