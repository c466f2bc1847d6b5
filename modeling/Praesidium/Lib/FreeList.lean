import Mathlib.Data.List.Nodup
import Mathlib.Data.List.Perm.Basic
import Mathlib.Data.List.Perm.Subperm
import Mathlib.Tactic.Common

/-!
Free lists: slots that are handed out and given back, last in, first out.

A `Pool slots` says which slots are free, in the order in which they will be handed out, and
which are live; every slot is one or the other.  A store keeps the free ones as a chain of links:
`Chain nil next h l` says that the links run from `h` through the slots of `l` to `nil`.  The
chain is a matter of the links of its own slots (`Chain.congr`).

    Chain nil next h l → x ∉ l → next' x = h → Chain nil next' x (x :: l)     (Chain.push)
    p.free.length + p.live.length = slots.length                            (Pool.length)
-/

namespace FreeList

variable {α : Type}

/-! ## Chains of links -/

section

variable {nil h x : α} {next next' : α → α} {l : List α}

def Chain (nil : α) (next : α → α) : α → List α → Prop
  | h, [] => h = nil
  | h, x :: l => h = x ∧ x ≠ nil ∧ Chain nil next (next x) l

/-- **Locality.** -/
theorem Chain.congr (hl : Chain nil next h l) (hn : ∀ y ∈ l, next' y = next y) :
    Chain nil next' h l := by
  induction l generalizing h with
  | nil => exact hl
  | cons y l ih =>
    obtain ⟨hy, hnil, hrest⟩ := hl
    refine ⟨hy, hnil, ?_⟩
    rw [hn y List.mem_cons_self]
    exact ih hrest fun z hz => hn z (List.mem_cons_of_mem y hz)

/-- The head is null exactly when the list is empty. -/
theorem Chain.head (hl : Chain nil next h l) :
    h = nil ∧ l = [] ∨ h ≠ nil ∧ ∃ l', l = h :: l' ∧ Chain nil next (next h) l' := by
  cases l with
  | nil => exact .inl ⟨hl, rfl⟩
  | cons y l =>
    obtain ⟨rfl, hnil, hrest⟩ := hl
    exact .inr ⟨hnil, l, rfl, hrest⟩

theorem Chain.push (hl : Chain nil next h l) (hx : x ≠ nil) (hlink : next' x = h)
    (hn : ∀ y ∈ l, next' y = next y) : Chain nil next' x (x :: l) := by
  refine ⟨rfl, hx, ?_⟩
  rw [hlink]
  exact hl.congr hn

end

/-! ## Pools -/

structure Pool (slots : List α) where
  free : List α
  live : List α
  parts : (free ++ live).Perm slots

namespace Pool

variable {slots : List α} (p : Pool slots)

def start (slots : List α) : Pool slots where
  free := slots
  live := []
  parts := by rw [List.append_nil]

/-- The next free slot is handed out. -/
def take {a : α} {rest : List α} (h : p.free = a :: rest) : Pool slots where
  free := rest
  live := a :: p.live
  parts := by
    have parts := p.parts
    rw [h] at parts
    exact List.perm_middle.trans parts

/-- A live slot is given back. -/
def give [DecidableEq α] {a : α} (h : a ∈ p.live) : Pool slots where
  free := a :: p.free
  live := p.live.erase a
  parts := by
    have back : (a :: p.free ++ p.live.erase a).Perm (p.free ++ a :: p.live.erase a) :=
      List.perm_middle.symm
    exact back.trans (((List.perm_cons_erase h).symm.append_left p.free).trans p.parts)

theorem length : p.free.length + p.live.length = slots.length := by
  rw [← List.length_append]
  exact p.parts.length_eq

variable {a : α}

theorem mem_iff : a ∈ slots ↔ a ∈ p.free ∨ a ∈ p.live := by
  rw [← p.parts.mem_iff, List.mem_append]

theorem nodup (h : slots.Nodup) : (p.free ++ p.live).Nodup := p.parts.nodup_iff.mpr h

theorem not_live (h : slots.Nodup) (ha : a ∈ p.free) : a ∉ p.live := fun hc =>
  (List.nodup_append.mp (p.nodup h)).2.2 a ha a hc rfl

theorem not_free (h : slots.Nodup) (ha : a ∈ p.live) : a ∉ p.free := fun hc => p.not_live h hc ha

/-- No slot is free exactly when all are live. -/
theorem free_nil_iff (h : slots.Nodup) : p.free = [] ↔ ∀ a ∈ slots, a ∈ p.live := by
  constructor
  · intro hf a ha
    rcases p.mem_iff.mp ha with hc | hc
    · rw [hf] at hc
      cases hc
    · exact hc
  · intro hall
    refine List.eq_nil_iff_forall_not_mem.mpr fun a ha => ?_
    exact p.not_live h ha (hall a (p.mem_iff.mpr (.inl ha)))

end Pool

end FreeList
