import Mathlib.Data.List.Nodup
import Mathlib.Tactic.Common

/-!
Doubly linked lists threaded through a store.

A node is an address; its record holds the links `next` and `prev`, and `nil` is the null
link.  `Linked nil next prev p h l`: from the head `h`, entered from `p`, the links run through
the nodes of `l` in order, and back.  The store may hold several lists; each is a matter of its
own nodes (`Linked.congr`).

    Linked … nil h l → x ∉ l → Linked … nil x (x :: l)          (Linked.push)
    Linked … p h l → x ∈ l → Linked … p h' (l.erase x)          (Linked.unlink)

The rules say how the links may change, not which writes change them.
-/

namespace Dll

variable {α : Type} {nil p h x : α} {next prev next' prev' : α → α} {l : List α}

def Linked (nil : α) (next prev : α → α) : α → α → List α → Prop
  | _, h, [] => h = nil
  | p, h, x :: l => h = x ∧ x ≠ nil ∧ prev x = p ∧ Linked nil next prev x (next x) l

section

variable (hl : Linked nil next prev p h l)

include hl

/-- **Locality.** -/
theorem Linked.congr (hn : ∀ y ∈ l, next' y = next y) (hp : ∀ y ∈ l, prev' y = prev y) :
    Linked nil next' prev' p h l := by
  induction l generalizing p h with
  | nil => exact hl
  | cons y l ih =>
    obtain ⟨hy, hnil, hpy, hrest⟩ := hl
    refine ⟨hy, hnil, (hp y List.mem_cons_self).trans hpy, ?_⟩
    rw [hn y List.mem_cons_self]
    exact ih hrest (fun z hz => hn z (List.mem_cons_of_mem y hz)) (fun z hz =>
      hp z (List.mem_cons_of_mem y hz))

theorem Linked.ne_nil (hx : x ∈ l) : x ≠ nil := by
  induction l generalizing p h with
  | nil => cases hx
  | cons y l ih =>
    obtain ⟨-, hnil, -, hrest⟩ := hl
    rcases List.mem_cons.mp hx with rfl | hx
    · exact hnil
    · exact ih hrest hx

/-- The head is null exactly when the list is empty. -/
theorem Linked.head : h = nil ∧ l = [] ∨ h ≠ nil ∧ ∃ l', l = h :: l' := by
  cases l with
  | nil => exact .inl ⟨hl, rfl⟩
  | cons y l =>
    obtain ⟨rfl, hnil, -, -⟩ := hl
    exact .inr ⟨hnil, l, rfl⟩

theorem Linked.next_mem (hx : x ∈ l) : next x = nil ∨ next x ∈ l := by
  induction l generalizing p h with
  | nil => cases hx
  | cons y l ih =>
    obtain ⟨-, -, -, hrest⟩ := hl
    rcases List.mem_cons.mp hx with rfl | hx
    · rcases hrest.head with ⟨hnil, -⟩ | ⟨-, l', rfl⟩
      · exact .inl hnil
      · exact .inr (List.mem_cons_of_mem x List.mem_cons_self)
    · exact (ih hrest hx).imp id (List.mem_cons_of_mem y)

theorem Linked.prev_mem (hx : x ∈ l) : x = h ∧ prev x = p ∨ prev x ∈ l := by
  induction l generalizing p h with
  | nil => cases hx
  | cons y l ih =>
    obtain ⟨rfl, -, hpy, hrest⟩ := hl
    rcases List.mem_cons.mp hx with rfl | hx
    · exact .inl ⟨rfl, hpy⟩
    · rcases ih hrest hx with ⟨-, hpx⟩ | hpx
      · rw [hpx]
        exact .inr List.mem_cons_self
      · exact .inr (List.mem_cons_of_mem h hpx)

end

variable [DecidableEq α]

/-- A list entered from elsewhere, with the back link of its head moved. -/
theorem Linked.enter {q : α} (hl : Linked nil next prev p h l) (hd : l.Nodup)
    (hn : ∀ y ∈ l, next' y = next y) (hp : ∀ y ∈ l, prev' y = if y = h then q else prev y) :
    Linked nil next' prev' q h l := by
  cases l with
  | nil => exact hl
  | cons y l =>
    obtain ⟨rfl, hnil, -, hrest⟩ := hl
    refine ⟨rfl, hnil, ?_, ?_⟩
    · rw [hp h List.mem_cons_self, if_pos rfl]
    · rw [hn h List.mem_cons_self]
      refine hrest.congr (fun z hz => hn z (List.mem_cons_of_mem h hz)) (fun z hz => ?_)
      have hne : z ≠ h := fun hzh => (List.nodup_cons.mp hd).1 (hzh ▸ hz)
      rw [hp z (List.mem_cons_of_mem h hz), if_neg hne]

/-- **A new head.** -/
theorem Linked.push (hl : Linked nil next prev nil h l) (hd : l.Nodup) (hx : x ≠ nil)
    (hnext : next' x = h) (hprev : prev' x = nil) (hn : ∀ y ∈ l, next' y = next y)
    (hp : ∀ y ∈ l, prev' y = if y = h then x else prev y) :
    Linked nil next' prev' nil x (x :: l) := by
  refine ⟨rfl, hx, hprev, ?_⟩
  rw [hnext]
  exact hl.enter hd hn hp

/-- **A node taken out**: its neighbours are linked to each other. -/
theorem Linked.unlink (hl : Linked nil next prev p h l) (hd : l.Nodup) (hpl : p ∉ l) (hx : x ∈ l)
    (hn : ∀ y ∈ l, y ≠ x → next' y = if y = prev x then next x else next y)
    (hp : ∀ y ∈ l, y ≠ x → prev' y = if y = next x then prev x else prev y) :
    Linked nil next' prev' p (if prev x = p then next x else h) (l.erase x) := by
  induction l generalizing p h with
  | nil => cases hx
  | cons y l ih =>
    obtain ⟨hyl, hdl⟩ := List.nodup_cons.mp hd
    obtain ⟨hph, hpl'⟩ := not_or.mp (fun hc => hpl (List.mem_cons.mpr hc))
    obtain ⟨rfl, hnil, hpy, hrest⟩ := hl
    have hn' : ∀ z ∈ l, z ≠ x → next' z = if z = prev x then next x else next z :=
      fun z hz => hn z (List.mem_cons_of_mem h hz)
    have hp' : ∀ z ∈ l, z ≠ x → prev' z = if z = next x then prev x else prev z :=
      fun z hz => hp z (List.mem_cons_of_mem h hz)
    by_cases hxh : x = h
    · -- the head: what follows is entered from `p`
      subst hxh
      rw [List.erase_cons_head, if_pos hpy]
      have hne : ∀ z ∈ l, z ≠ x := fun z hz hzx => hyl (hzx ▸ hz)
      refine hrest.enter hdl (fun z hz => ?_) (fun z hz => ?_)
      · have hzp : z ≠ prev x := fun hzp => hpl' (hpy ▸ hzp ▸ hz)
        rw [hn' z hz (hne z hz), if_neg hzp]
      · rw [hp' z hz (hne z hz), hpy]
    · -- further on: the head stays, and its forward link follows the induction
      have hxl : x ∈ l := (List.mem_cons.mp hx).resolve_left hxh
      have hpx : prev x ≠ p := by
        intro hc
        rcases hrest.prev_mem hxl with ⟨-, hxp⟩ | hmem
        · exact hph (hc ▸ hxp)
        · exact hpl' (hc ▸ hmem)
      have hnx : h ≠ next x := by
        intro hc
        rcases hrest.next_mem hxl with hnn | hmem
        · exact hnil (hc.trans hnn)
        · exact hyl (hc ▸ hmem)
      rw [if_neg hpx, List.erase_cons_tail (by simpa using fun hc => hxh hc.symm)]
      refine ⟨rfl, hnil, ?_, ?_⟩
      · rw [hp h List.mem_cons_self (fun hc => hxh hc.symm), if_neg hnx, hpy]
      · rw [hn h List.mem_cons_self (fun hc => hxh hc.symm)]
        have := ih hrest hdl hyl hxl hn' hp'
        simpa only [eq_comm] using this

end Dll
