import Mathlib.Data.List.Nodup
import Mathlib.Data.Set.Basic
import Mathlib.Tactic.Common

/-!
Bump allocation out of several regions.

A `Pool` is a set of blocks of cells and, for each region, the watermarks its
allocators stand at (none once the allocator is gone).  `Ok`: blocks lie in regions,
below the region's watermark, and two blocks are the same or share no cell.

* Blocks and watermarks may go (`Ok.shrink`).
* Blocks may be carved from a watermark up (`Ok.carve`).
* A watermark may be reset once no block starts in its region (`Ok.reset`).

No block shares a cell with what lies above a watermark (`Ok.fresh`).  What a shrinking
set of blocks loses is listed step by step (`Frees.trans`).
-/

namespace Bump

/-- `len` cells from `start`. -/
structure Block (τ : Type) where
  tag : τ
  start : Nat
  len : Nat
  deriving DecidableEq, Repr

variable {ρ τ : Type}

/-- No cell in common. -/
def Block.Disjoint (b b' : Block τ) : Prop :=
  b.start + b.len ≤ b'.start ∨ b'.start + b'.len ≤ b.start

theorem Block.Disjoint.symm {b b' : Block τ} (h : b.Disjoint b') : b'.Disjoint b :=
  h.elim Or.inr Or.inl

structure Pool (ρ τ : Type) where
  blocks : Set (Block τ)
  mark : ρ → Nat → Prop

structure Ok (base size : ρ → Nat) (P : Pool ρ τ) : Prop where
  marks : ∀ r w, P.mark r w → w ≤ size r
  placed : ∀ b ∈ P.blocks, 0 < b.len ∧ ∃ r, base r ≤ b.start ∧ b.start + b.len ≤ base r + size r ∧
    ∀ w, P.mark r w → b.start + b.len ≤ base r + w
  apart : ∀ b ∈ P.blocks, ∀ b' ∈ P.blocks, b = b' ∨ b.Disjoint b'

variable {base size : ρ → Nat} {P P' : Pool ρ τ}

theorem Ok.shrink (h : Ok base size P) (hb : P'.blocks ⊆ P.blocks)
    (hm : ∀ r w, P'.mark r w → P.mark r w) : Ok base size P' := by
  refine ⟨fun r w hw => h.marks r w (hm r w hw), fun b hb' => ?_, fun b hb1 b' hb2 =>
    h.apart b (hb hb1) b' (hb hb2)⟩
  obtain ⟨hpos, r, h1, h2, h3⟩ := h.placed b (hb hb')
  exact ⟨hpos, r, h1, h2, fun w hw => h3 w (hm r w hw)⟩

/-- A block is known by its first cell. -/
theorem Ok.same (h : Ok base size P) (b b' : Block τ) (hb : b ∈ P.blocks) (hb' : b' ∈ P.blocks)
    (hs : b.start = b'.start) : b = b' := by
  rcases h.apart b hb b' hb' with e | hd
  · exact e
  · have hpos := (h.placed b hb).1
    have hpos' := (h.placed b' hb').1
    unfold Block.Disjoint at hd
    omega

theorem mul_add_le (i n f : Nat) (h : i < n) : i * f + f ≤ n * f := by
  have hmul : (i + 1) * f ≤ n * f := Nat.mul_le_mul_right f h
  rwa [Nat.add_mul, Nat.one_mul] at hmul

section Regions

variable (hdis : ∀ r r', r ≠ r' → base r + size r ≤ base r' ∨ base r' + size r' ≤ base r)
include hdis

/-- What lies above a watermark is free. -/
theorem Ok.fresh (h : Ok base size P) (r : ρ) (w : Nat) (hw : P.mark r w) (b : Block τ)
    (hb : b ∈ P.blocks) (c : Block τ) (hc : base r + w ≤ c.start)
    (hc' : c.start + c.len ≤ base r + size r) : b.Disjoint c := by
  obtain ⟨-, r', h1, h2, h3⟩ := h.placed b hb
  by_cases e : r' = r
  · subst e
    have := h3 w hw
    exact Or.inl (by omega)
  · unfold Block.Disjoint
    have := hdis r' r e
    omega

/-- `n` blocks of `f` cells from watermark `w` up. -/
def carved (base : ρ → Nat) (r : ρ) (w f n : Nat) (t : τ) : Set (Block τ) :=
  {b | ∃ i, i < n ∧ b = ⟨t, base r + w + i * f, f⟩}

omit hdis in
theorem carved_bounds (r : ρ) (w f n : Nat) (t : τ) (b : Block τ) (hb : b ∈ carved base r w f n t) :
    b.len = f ∧ base r + w ≤ b.start ∧ b.start + b.len ≤ base r + w + n * f := by
  obtain ⟨i, hi, rfl⟩ := hb
  have hmul := mul_add_le i n f hi
  show f = f ∧ base r + w ≤ base r + w + i * f ∧ base r + w + i * f + f ≤ base r + w + n * f
  omega

omit hdis in
theorem carved_apart (r : ρ) (w f n : Nat) (t : τ) (b b' : Block τ) (hb : b ∈ carved base r w f n t)
    (hb' : b' ∈ carved base r w f n t) : b = b' ∨ b.Disjoint b' := by
  obtain ⟨i, hi, rfl⟩ := hb
  obtain ⟨j, hj, rfl⟩ := hb'
  have key : ∀ i j, i < j → base r + w + i * f + f ≤ base r + w + j * f := by
    intro i j hij
    have hmul := mul_add_le i j f hij
    omega
  rcases Nat.lt_trichotomy i j with h | rfl | h
  · exact Or.inr (Or.inl (key i j h))
  · exact Or.inl rfl
  · exact Or.inr (Or.inr (key j i h))

theorem Ok.carve (h : Ok base size P) (r : ρ) (w f n : Nat) (t : τ) (hw : P.mark r w) (hf : 0 < f)
    (hfit : w + n * f ≤ size r) (hb : P'.blocks ⊆ P.blocks ∪ carved base r w f n t)
    (hm : ∀ w', P'.mark r w' → w' = w + n * f)
    (hm' : ∀ r', r' ≠ r → ∀ w', P'.mark r' w' → P.mark r' w') : Ok base size P' := by
  refine ⟨fun r' w' hw' => ?_, fun b hb' => ?_, fun b hb1 b' hb2 => ?_⟩
  · by_cases e : r' = r
    · subst e
      rw [hm w' hw']
      exact hfit
    · exact h.marks r' w' (hm' r' e w' hw')
  · rcases hb hb' with hold | hnew
    · obtain ⟨hpos, r', h1, h2, h3⟩ := h.placed b hold
      refine ⟨hpos, r', h1, h2, fun w' hw' => ?_⟩
      by_cases e : r' = r
      · subst e
        have := h3 w hw
        rw [hm w' hw']
        omega
      · exact h3 w' (hm' r' e w' hw')
    · obtain ⟨h1, h2, h3⟩ := carved_bounds r w f n t b hnew
      refine ⟨by omega, r, by omega, by omega, fun w' hw' => ?_⟩
      rw [hm w' hw']
      omega
  · -- an old block is below the watermark, a new one above it
    have hmixed : ∀ b ∈ P.blocks, ∀ b' ∈ carved base r w f n t, b.Disjoint b' := by
      intro b hold b' hnew
      obtain ⟨h1, h2, h3⟩ := carved_bounds r w f n t b' hnew
      exact h.fresh hdis r w hw b hold b' h2 (by omega)
    rcases hb hb1 with h1 | h1
    · rcases hb hb2 with h2 | h2
      · exact h.apart b h1 b' h2
      · exact Or.inr (hmixed b h1 b' h2)
    · rcases hb hb2 with h2 | h2
      · exact Or.inr (hmixed b' h2 b h1).symm
      · exact carved_apart r w f n t b b' h1 h2

end Regions

theorem Ok.reset (h : Ok base size P) (r : ρ) (hb : P'.blocks ⊆ P.blocks)
    (hnone : ∀ b ∈ P'.blocks, ¬ (base r ≤ b.start ∧ b.start < base r + size r))
    (hm : ∀ w, P'.mark r w → w = 0) (hm' : ∀ r', r' ≠ r → ∀ w, P'.mark r' w → P.mark r' w) :
    Ok base size P' := by
  refine ⟨fun r' w hw => ?_, fun b hb' => ?_, fun b hb1 b' hb2 => h.apart b (hb hb1) b' (hb hb2)⟩
  · by_cases e : r' = r
    · subst e
      rw [hm w hw]
      exact Nat.zero_le _
    · exact h.marks r' w (hm' r' e w hw)
  · obtain ⟨hpos, r', h1, h2, h3⟩ := h.placed b (hb hb')
    refine ⟨hpos, r', h1, h2, fun w hw => ?_⟩
    by_cases e : r' = r
    · subst e
      exact absurd ⟨h1, by omega⟩ (hnone b hb')
    · exact h3 w (hm' r' e w hw)

/-! ## Freed blocks -/

/-- `L` lists, once each, the members of `A` that are not in `B`. -/
structure Frees {β : Type} (A B : Set β) (L : List β) : Prop where
  sub : B ⊆ A
  nodup : L.Nodup
  mem : ∀ b, b ∈ L ↔ b ∈ A ∧ b ∉ B

variable {β : Type}

theorem Frees.refl (A : Set β) : Frees A A [] := by
  refine ⟨fun b hb => hb, List.nodup_nil, fun b => ?_⟩
  simp

/-- What goes first and what goes next. -/
theorem Frees.trans {A B C : Set β} {L L' : List β} (h : Frees A B L) (h' : Frees B C L') :
    Frees A C (L ++ L') := by
  refine ⟨fun b hb => h.sub (h'.sub hb), ?_, fun b => ?_⟩
  · rw [List.nodup_append]
    refine ⟨h.nodup, h'.nodup, ?_⟩
    rintro b hb b' hb' rfl
    exact ((h.mem b).mp hb).2 ((h'.mem b).mp hb').1
  · rw [List.mem_append, h.mem, h'.mem]
    constructor
    · rintro (⟨hA, hB⟩ | ⟨hB, hC⟩)
      · exact ⟨hA, fun hC => hB (h'.sub hC)⟩
      · exact ⟨h.sub hB, hC⟩
    · rintro ⟨hA, hC⟩
      by_cases hB : b ∈ B
      · exact Or.inr ⟨hB, hC⟩
      · exact Or.inl ⟨hA, hB⟩

end Bump
