import Praesidium.Kernel.PagingLevels

/-!
Reaping a dead process's page tables (`reap_process_space`, x86-64).

The model hands back the frames that are passed to `free_frames`, in order, beside the count
the function returns; `free_frames` itself does not touch the tables.
-/

namespace Praesidium

namespace X86

open Fallible Flags Paging Radix VSpace

/-! ## `reap_process_space` -/

/-- The frames passed to `free_frames` so far, and `freed`. -/
structure Freed where
  frames : List U64
  count : U32
  deriving DecidableEq, Repr

/-- `free_frames(frame); freed += 1` -/
def freeFrames (freed : Freed) (frame : U64) : Prog Regs Freed := do
  let count ← okOr (Word.checkedAdd freed.count 1) .overflow
  pure ⟨freed.frames ++ [frame], count⟩

/-- The body of the loop over `owned_leaf_vas`. -/
def reapLeaf (pd : U64) (freed : Freed) (va : U64) : Prog Regs Freed := do
  let e2 ← readEntry pd (idx va 1)
  if has e2 PRESENT && !has e2 HUGE then do
    let leaf ← readEntry (e2 &&& ADDR_MASK) (idx va 0)
    if has leaf PRESENT then freeFrames freed (leaf &&& ADDR_MASK) else pure freed
  else pure freed

/-- The body of the loop over the window PD. -/
def reapTable (pd : U64) (i : Nat) (freed : Freed) : Prog Regs Freed := do
  let e ← readEntry pd i
  if has e PRESENT && !has e HUGE then freeFrames freed (e &&& ADDR_MASK) else pure freed

/-- `for i in 0..512` -/
@[irreducible] def reapTables (pd : U64) (freed : Freed) : Prog Regs Freed :=
  foldRange (reapTable pd) 512 freed

def reapProcessSpace (space : AddressSpace) (ownedLeafVas : List U64) : Prog Regs Freed := do
  let pml4 := space.primary
  let e0 ← readEntry pml4 0
  let pdpt := e0 &&& ADDR_MASK
  let e1 ← readEntry pdpt 1
  let pd := e1 &&& ADDR_MASK
  let freed ← ownedLeafVas.foldlM (reapLeaf pd) ⟨[], 0⟩
  let freed ← reapTables pd freed
  let count ← okOr (Word.checkedAdd freed.count 3) .overflow
  pure ⟨freed.frames ++ [pd, pdpt, pml4], count⟩

/-! ## What it frees -/

/-- The frame of the page of `va` under the window PD. -/
def leafFrame (mem : Mem U64) (pd va : U64) : Option U64 :=
  if entries.isTable (mem pd (index va 1)) then
    if entries.present (mem (mem pd (index va 1) &&& ADDR_MASK) (index va 0)) then
      some (mem (mem pd (index va 1) &&& ADDR_MASK) (index va 0) &&& ADDR_MASK)
    else none
  else none

/-- The tables under the window PD. -/
def splitTables (mem : Mem U64) (pd : U64) (n : Nat) : List U64 :=
  (entries.tablesIn mem pd n).map fun j => mem pd j &&& ADDR_MASK

/-- The tables of a process. -/
def ownTables (mem : Mem U64) (root : U64) : List U64 :=
  splitTables mem (entries.windowPd mem root) 512 ++ [entries.windowPd mem root,
    entries.windowPdpt mem root, root]

/-- `freed` after the frames of `more`. -/
def Freed.After (freed : Freed) (more : List U64) (freed' : Freed) : Prop :=
  freed'.frames = freed.frames ++ more ∧ freed'.count.toNat = freed.count.toNat + more.length

section

variable {m : Machine Regs} {pd : U64} {freed : Freed}

theorem freeFrames_spec (frame : U64) (hcount : freed.count.toNat + 1 < 0x100000000) :
    Ends (freeFrames freed frame) m (fun freed' m' => m' = m ∧ freed.After [frame] freed')
      (fun _ _ => False) := by
  unfold freeFrames
  rw [ends_bind, ends_okOr]
  constructor
  · intro hnone
    have := (Word.checkedAdd_eq_none _ _).mp hnone
    have one : (1 : U32).toNat = 1 := rfl
    omega
  · intro count hsome
    rw [ends_pure]
    exact ⟨rfl, rfl, (Word.checkedAdd_eq_some _ _ _).mp hsome⟩

theorem reapLeaf_spec (va : U64) (hcount : freed.count.toNat + 1 < 0x100000000) :
    Ends (reapLeaf pd freed va) m (fun freed' m' => m' = m ∧
      freed.After (leafFrame m.mem pd va).toList freed')
      (fun _ _ => False) := by
  have none_freed : ∀ freed : Freed, freed.After [] freed :=
    fun freed => ⟨(List.append_nil _).symm, rfl⟩
  unfold reapLeaf leafFrame
  rw [ends_bind, ends_readEntry, ends_ite]
  constructor
  · intro (htable : entries.isTable (m.mem pd (index va 1)) = true)
    rw [if_pos htable, ends_bind, ends_readEntry, ends_ite]
    constructor
    · intro (hpresent : entries.present (m.mem (m.mem pd (index va 1) &&& ADDR_MASK) (index va 0)) =
        true)
      rw [if_pos hpresent]
      exact freeFrames_spec _ hcount
    · intro (habsent : ¬ entries.present (m.mem (m.mem pd (index va 1) &&& ADDR_MASK)
        (index va 0)) = true)
      rw [if_neg habsent, ends_pure]
      exact ⟨rfl, none_freed freed⟩
  · intro (hleaf : ¬ entries.isTable (m.mem pd (index va 1)) = true)
    rw [if_neg hleaf, ends_pure]
    exact ⟨rfl, none_freed freed⟩

theorem reapLeaves_spec (vas : List U64) (hcount : freed.count.toNat + vas.length < 0x100000000) :
    Ends (vas.foldlM (reapLeaf pd) freed) m
      (fun freed' m' => m' = m ∧ freed.After (vas.filterMap (leafFrame m.mem pd)) freed')
        (fun _ _ => False) := by
  induction vas generalizing freed with
  | nil => exact ⟨rfl, (List.append_nil _).symm, rfl⟩
  | cons va vas ih =>
    rw [List.length_cons] at hcount
    rw [List.foldlM_cons, ends_bind]
    refine (reapLeaf_spec va (by omega)).imp_ok fun freed1 m1 h1 => ?_
    obtain ⟨rfl, frames1, count1⟩ := h1
    have few : (leafFrame m1.mem pd va).toList.length ≤ 1 := by
      cases leafFrame m1.mem pd va with
      | none => exact Nat.zero_le 1
      | some f => exact Nat.le_refl 1
    refine (ih (by omega)).imp_ok fun freed2 m2 h2 => ?_
    obtain ⟨rfl, frames2, count2⟩ := h2
    have split : (va :: vas).filterMap (leafFrame m2.mem pd) =
        (leafFrame m2.mem pd va).toList ++ vas.filterMap (leafFrame m2.mem pd) := by
      rw [List.filterMap_cons]
      cases leafFrame m2.mem pd va with
      | none => rfl
      | some f => rfl
    refine ⟨rfl, ?_, ?_⟩
    · rw [split, frames2, frames1, List.append_assoc]
    · rw [split, count2, count1, List.length_append, Nat.add_assoc]

theorem splitTables_succ (mem : Mem U64) (pd : U64) (n : Nat) :
    splitTables mem pd (n + 1) = splitTables mem pd n ++ if entries.isTable (mem pd n)
      then [mem pd n &&& ADDR_MASK] else [] := by
  unfold splitTables
  rw [entries.tablesIn_succ, List.map_append]
  split
  · rfl
  · rfl

theorem splitTables_length (mem : Mem U64) (pd : U64) (n : Nat) :
    (splitTables mem pd n).length ≤ n := by
  unfold splitTables Entries.tablesIn
  rw [List.length_map]
  exact Nat.le_trans (List.length_filter_le _ _) (Nat.le_of_eq List.length_range)

theorem reapTableLoop_spec (n : Nat) (hcount : freed.count.toNat + n < 0x100000000) :
    Ends (foldRange (reapTable pd) n freed) m
      (fun freed' m' => m' = m ∧ freed.After (splitTables m.mem pd n) freed')
        (fun _ _ => False) := by
  refine ends_foldRange (fun i freed' m' => m' = m ∧ freed.After (splitTables m.mem pd i) freed')
    _ n freed ⟨rfl, (List.append_nil _).symm, rfl⟩ ?_
  intro i freed1 m1 hi h1
  obtain ⟨rfl, frames1, count1⟩ := h1
  have few := splitTables_length m1.mem pd i
  unfold reapTable
  rw [ends_bind, ends_readEntry, ends_ite, splitTables_succ]
  constructor
  · intro (htable : entries.isTable (m1.mem pd i) = true)
    rw [if_pos htable]
    refine (freeFrames_spec _ (by omega)).imp_ok fun freed2 m2 h2 => ?_
    obtain ⟨rfl, frames2, count2⟩ := h2
    refine ⟨rfl, ?_, ?_⟩
    · rw [frames2, frames1, List.append_assoc]
    · rw [count2, count1, List.length_append, Nat.add_assoc]
  · intro (hleaf : ¬ entries.isTable (m1.mem pd i) = true)
    rw [if_neg hleaf, List.append_nil, ends_pure]
    exact ⟨rfl, frames1, count1⟩

theorem reapTables_spec (hcount : freed.count.toNat + 512 < 0x100000000) :
    Ends (reapTables pd freed) m
      (fun freed' m' => m' = m ∧ freed.After (splitTables m.mem pd 512) freed')
        (fun _ _ => False) := by
  unfold reapTables
  generalize 512 = n at hcount ⊢
  exact reapTableLoop_spec n hcount

/-- **What is freed**, whatever the tables are. -/
theorem reapProcessSpace_spec (space : AddressSpace) (vas : List U64)
    (hcount : vas.length + 515 < 0x100000000) :
    Ends (reapProcessSpace space vas) m
      (fun freed m' => m' = m ∧ freed.count.toNat = freed.frames.length ∧
        freed.frames = vas.filterMap (leafFrame m.mem (entries.windowPd m.mem space.primary)) ++
          ownTables m.mem space.primary)
      (fun _ _ => False) := by
  unfold reapProcessSpace
  rw [ends_bind, ends_readEntry, ends_bind, ends_readEntry, ends_bind]
  change Ends (vas.foldlM (reapLeaf (entries.windowPd m.mem space.primary)) ⟨[], 0⟩) m _ _
  have zero : (0 : U32).toNat = 0 := rfl
  refine (reapLeaves_spec vas (by dsimp only; omega)).imp_ok fun freed1 m1 h1 => ?_
  obtain ⟨rfl, frames1, count1⟩ := h1
  have fewLeaves : (vas.filterMap (leafFrame m1.mem (entries.windowPd m1.mem space.primary))).length
    ≤ vas.length := List.length_filterMap_le ..
  dsimp only at count1
  rw [ends_bind]
  refine (reapTables_spec (by omega)).imp_ok fun freed2 m2 h2 => ?_
  obtain ⟨rfl, frames2, count2⟩ := h2
  change freed2.frames = _ ++ splitTables m2.mem (entries.windowPd m2.mem space.primary)
    512 at frames2
  change _ = _ + (splitTables m2.mem (entries.windowPd m2.mem space.primary) 512).length at count2
  have fewTables := splitTables_length m2.mem (entries.windowPd m2.mem space.primary) 512
  have three : (3 : U32).toNat = 3 := rfl
  rw [ends_bind, ends_okOr]
  constructor
  · intro hnone
    have := (Word.checkedAdd_eq_none _ _).mp hnone
    omega
  · intro count hsome
    have sum := (Word.checkedAdd_eq_some _ _ _).mp hsome
    rw [ends_pure]
    have frames : freed2.frames ++ [entries.windowPd m2.mem space.primary,
      entries.windowPdpt m2.mem space.primary, space.primary] =
        vas.filterMap (leafFrame m2.mem (entries.windowPd m2.mem space.primary)) ++ ownTables m2.mem
        space.primary := by
      rw [frames2, frames1, List.nil_append, ownTables, List.append_assoc]
    refine ⟨rfl, ?_, frames⟩
    show count.toNat = (freed2.frames ++ [_, _, _]).length
    rw [sum, frames2, frames1]
    simp only [List.length_append, List.length_cons, List.length_nil]
    omega

end

end X86

end Praesidium
