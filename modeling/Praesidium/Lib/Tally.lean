import Mathlib.Algebra.BigOperators.Group.Finset.Basic
import Mathlib.Tactic.Common

/-!
Sums over a finite set in which one or two terms change.

The equations are stated without subtraction: what the new sum gained at the
changed places, the old sum had there.
-/

namespace Tally

variable {α : Type} [DecidableEq α]

theorem sum_change_one (s : Finset α) (f g : α → Nat) (a : α) (ha : a ∈ s)
    (h : ∀ b ∈ s, b ≠ a → g b = f b) : ∑ b ∈ s, g b + f a = ∑ b ∈ s, f b + g a := by
  have hrest : ∑ b ∈ s.erase a, g b = ∑ b ∈ s.erase a, f b :=
    Finset.sum_congr rfl fun b hb => h b (Finset.mem_of_mem_erase hb) (Finset.ne_of_mem_erase hb)
  rw [← Finset.add_sum_erase s g ha, ← Finset.add_sum_erase s f ha, hrest]
  omega

theorem sum_change_two (s : Finset α) (f g : α → Nat) (a b : α) (ha : a ∈ s) (hb : b ∈ s)
    (hab : a ≠ b) (h : ∀ c ∈ s, c ≠ a → c ≠ b → g c = f c) :
    ∑ c ∈ s, g c + (f a + f b) = ∑ c ∈ s, f c + (g a + g b) := by
  -- change `a` first, then `b`
  have h1 := sum_change_one s f (fun c => if c = a then g a else f c) a ha (fun c _ hc => if_neg hc)
  have h2 := sum_change_one s (fun c => if c = a then g a else f c) g b hb (fun c hc hcb => by
    by_cases hca : c = a
    · rw [if_pos hca, hca]
    · rw [if_neg hca]; exact h c hc hca hcb)
  simp only [if_true, if_neg (fun e : b = a => hab e.symm)] at h1 h2
  omega

end Tally
