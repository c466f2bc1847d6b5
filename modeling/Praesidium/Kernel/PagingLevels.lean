import Praesidium.Kernel.DomainExcluding
import Praesidium.Lib.RadixReach

/-!
What a call leaves to tables that are typed by their levels (x86-64).

`Left lv m lv' m'`: the typing `lv` grows to `lv'`, memory without a level stays as it is
unless it is one of the frames to come, and the two upper levels change by `USER` only.
With a root of the typing active, every call leaves that (`exec_left`): a call cannot reach
what its space does not lead to.

`newProcessSpace` leaves a copy of the window besides, with one frame for each table of it
(`newProcessSpace_copied`).

`Levelled` says that all tables some spaces lead to are typed.  A call in one of them keeps that
(`Levelled.call`), and tables that none of them reaches may be forgotten (`Levelled.prune`).
-/

namespace Praesidium

namespace X86

open Fallible Flags Paging Radix VSpace

section

variable {lv lv' : U64 → Option Nat} {m m' : Machine Regs} {root v e : U64}

structure Left (lv : U64 → Option Nat) (m : Machine Regs)
    (lv' : U64 → Option Nat) (m' : Machine Regs) : Prop where
  grown : Grows entries backend.shape lv m lv' m'
  away : ∀ t, t ∉ m.supply → lv t = none → m'.mem t = m.mem t
  upper : ∀ t n i, lv t = some n → 2 ≤ n → m'.mem t i = m.mem t i ∨ m'.mem t i = m.mem t i ||| USER

/-- Nothing but frames to come is written. -/
theorem Left.of_fresh (h : Heap entries backend.shape lv m)
    (grown : Grows entries backend.shape lv m lv' m')
    (same : ∀ t, t ∉ m.supply → m'.mem t = m.mem t) : Left lv m lv' m' where
  grown := grown
  away t ht _ := same t ht
  upper t n i hn _ := .inl (by rw [same t (h.not_free hn)])

/-! ## The window -/

variable {base x : U64}

section

variable (h : Heap entries backend.shape lv m) (hbase : lv base = some 3)
  (hw : Windowed entries base m.mem)

include h hbase hw

/-- The levels of the tables of a window. -/
theorem windowed_levels :
    lv (entries.windowPdpt m.mem base) = some 2 ∧ lv (entries.windowPd m.mem base) = some 1 ∧
      ∀ j, j < 512 → entries.isTable (m.mem (entries.windowPd m.mem base) j) = true →
        lv (m.mem (entries.windowPd m.mem base) j &&& ADDR_MASK) = some 0 := by
  have pdpt : lv (entries.windowPdpt m.mem base) = some 2 :=
    ((h.typed base 3 hbase 0 (by decide)).uniform_link hw.pml4e rfl).2
  have table := hw.pdpte
  rw [lawful.isTable_eq 2 _ (.inr rfl), Bool.and_eq_true, Bool.not_eq_true'] at table
  have pd : lv (entries.windowPd m.mem base) = some 1 :=
    ((h.typed _ 2 pdpt 1 (by decide)).uniform_link table.1 table.2).2
  refine ⟨pdpt, pd, fun j hj htab => ?_⟩
  rw [lawful.isTable_eq 1 _ (.inl rfl), Bool.and_eq_true, Bool.not_eq_true'] at htab
  exact ((h.typed _ 1 pd j hj).uniform_link htab.1 htab.2).2

theorem windowed_settled : WindowSettled entries base m := by
  obtain ⟨pdpt, pd, pts⟩ := windowed_levels h hbase hw
  exact ⟨h.not_free hbase, h.not_free pdpt, fun _ => h.not_free pd, fun j hj =>
    h.not_free (pts j hj.2.1 hj.2.2)⟩

/-- The kernel keeps its window. -/
theorem Left.windowed (hl : Left lv m lv' m') :
    Windowed entries base m'.mem := by
  obtain ⟨pdptLevel, _, _⟩ := windowed_levels h hbase hw
  have root := hl.upper base 3 0 hbase (by decide)
  have pdpt := hl.upper _ 2 1 pdptLevel (by decide)
  have next : entries.windowPdpt m'.mem base = entries.windowPdpt m.mem base := by
    unfold Entries.windowPdpt
    rcases root with root | root
    · rw [root]
    · rw [root]
      exact next_or_user _
  constructor
  · rcases root with root | root
    · rw [root]
      exact hw.pml4e
    · rw [root]
      exact (has_or_user _ (by decide)).trans hw.pml4e
  · rw [next]
    rcases pdpt with pdpt | pdpt
    · rw [pdpt]
      exact hw.pdpte
    · rw [pdpt]
      show (has (_ ||| USER) PRESENT && !has (_ ||| USER) HUGE) = true
      rw [has_or_user _ (by decide), has_or_user _ (by decide)]
      exact hw.pdpte

end

/-! ## Edits -/

/-- What `granted` writes. -/
theorem granted_cases (m : Machine Regs) (root v x : U64) (i : Nat) :
    (granted root v m).mem x i = m.mem x i ∨
      ((granted root v m).mem x i = m.mem x i ||| USER ∧
        (x = root ∨ x = entries.pdptOf m.mem root v)) := by
  have twice : ∀ e : U64, e ||| USER ||| USER = e ||| USER := fun e => by
    rw [BitVec.or_assoc, BitVec.or_self]
  unfold granted
  by_cases h2 : x = entries.pdptOf m.mem root v ∧ i = index v 2
  · obtain ⟨rfl, rfl⟩ := h2
    rw [grant_self]
    by_cases h1 : entries.pdptOf m.mem root v = root ∧ index v 2 = index v 3
    · rw [h1.1, h1.2, grant_self, twice]
      exact .inr ⟨rfl, .inl rfl⟩
    · rw [grant_of_ne _ h1]
      exact .inr ⟨rfl, .inr rfl⟩
  · rw [grant_of_ne _ h2]
    by_cases h1 : x = root ∧ i = index v 3
    · obtain ⟨rfl, rfl⟩ := h1
      rw [grant_self]
      exact .inr ⟨rfl, .inl rfl⟩
    · rw [grant_of_ne _ h1]
      exact .inl rfl

section

variable (h : Heap entries backend.shape lv m) (hroot : lv root = some 3)

include h hroot

/-- An edit stays below the two upper levels of its space. -/
theorem edited_same (he : Edited entries root v e m m') (hx : x ∉ m.supply)
    (hl : ∀ n, lv x = some n → 2 ≤ n) :
    m'.mem x = m.mem x := by
  obtain ⟨hm, pt, t, hens, rfl⟩ := he
  have pd : lv (entries.pdOf m.mem root v) = some 1 :=
    pdOf_typed lawful keeps h.typed hroot rfl hm.pml4e hm.pdpte
  have x_pd : x ≠ entries.pdOf m.mem root v := by
    rintro rfl
    have := hl 1 pd
    omega
  cases hens with
  | found hleaf =>
    have level := ((h.typed _ 1 pd _ (index_lt v 1)).uniform_link hm.pde hleaf).2
    have x_pt : x ≠ entries.pdeOf m.mem root v &&& ADDR_MASK := by
      rintro rfl
      have := hl 0 level
      omega
    exact Mem.set_table_ne _ x_pt _ _
  | split hleaf hs =>
    have x_pt : x ≠ pt := fun hc => hx (by rw [hs, hc]; exact List.mem_cons_self)
    refine (Mem.set_table_ne _ x_pt _ _).trans ?_
    dsimp only
    rw [Mem.set_table_ne _ x_pd, Mem.fill_ne _ x_pt]

theorem edited_left (he : Edited entries root v e m m')
    (grown : Grows entries backend.shape lv m lv' m') :
    Left lv m lv' m' where
  grown := grown
  away t ht hnone := edited_same h hroot he ht fun n hn => by
    rw [hnone] at hn
    cases hn
  upper t n i hn h2 := by
    refine .inl (congrFun (edited_same h hroot he (h.not_free hn) fun k hk => ?_) i)
    have same : n = k := Option.some.inj (hn.symm.trans hk)
    omega

theorem userMapped_same (hu : UserMapped root v e m m') (hx : x ∉ m.supply)
    (hl : ∀ n, lv x = some n → 2 ≤ n) :
    m'.mem x = (granted root v m).mem x := by
  obtain ⟨hm, m1, he, rfl⟩ := hu
  have pd : lv (entries.pdOf m.mem root v) = some 1 :=
    pdOf_typed lawful keeps h.typed hroot rfl hm.pml4e hm.pdpte
  have x_pd : x ≠ entries.pdOf m.mem root v := by
    rintro rfl
    have := hl 1 pd
    omega
  have edited := edited_same (granted_grows permits h root v).heap hroot he hx hl
  rw [← edited]
  funext i
  exact grant_of_ne m1 fun hc => x_pd hc.1

theorem userMapped_left (hu : UserMapped root v e m m')
    (grown : Grows entries backend.shape lv m lv' m') :
    Left lv m lv' m' where
  grown := grown
  away t ht hnone := by
    have none_level : ∀ n, lv t = some n → 2 ≤ n := fun n hn => by
      rw [hnone] at hn
      cases hn
    rw [userMapped_same h hroot hu ht none_level]
    funext i
    rcases granted_cases m root v t i with same | ⟨_, rfl | rfl⟩
    · exact same
    · rw [hnone] at hroot
      cases hroot
    · have pdpt := pdptOf_typed keeps h.typed hroot rfl hu.1.pml4e
      rw [hnone] at pdpt
      cases pdpt
  upper t n i hn h2 := by
    have level : ∀ k, lv t = some k → 2 ≤ k := fun k hk => by
      have same : n = k := Option.some.inj (hn.symm.trans hk)
      omega
    rw [userMapped_same h hroot hu (h.not_free hn) level]
    rcases granted_cases m root v t i with same | ⟨user, _⟩
    · exact .inl same
    · exact .inr user

end

/-! ## New spaces -/

/-- A space that a call made: its root was a frame to come. -/
structure Made (lv' : U64 → Option Nat) (m : Machine Regs) (space : AddressSpace) : Prop where
  secondary : space.secondary = 0
  root : IsRoot entries lv' space.primary
  taken : space.primary ∈ m.supply

/-- A call that builds no space. -/
theorem left_edit {p : Prog Regs Unit} {Q : Unit → Machine Regs → Prop}
    {E : Paging.Halt → Machine Regs → Prop}
    (typed : Ends p m (fun _ m' => ∃ lv', Grows entries backend.shape lv m lv' m')
      (fun _ _ => True)) (spec : Ends p m Q E)
    (hleft : ∀ lv' m', Grows entries backend.shape lv m lv' m' → Q () m' → Left lv m lv' m') :
    Ends (do p; pure none) m (fun made m' => ∃ lv', Left lv m lv' m' ∧ ∀ space ∈ made,
      Made lv' m space) (fun _ _ => True) := by
  rw [ends_bind]
  refine (typed.and spec).imp_any fun _ m' hQ => ?_
  obtain ⟨⟨lv', grown⟩, hq⟩ := hQ
  rw [ends_pure]
  exact ⟨lv', hleft lv' m' grown hq, fun space hc => by cases hc⟩

variable (h : Heap entries backend.shape lv m) (hkernel : lv m.regs.kernelPml4 = some 3)
  (hw : Windowed entries m.regs.kernelPml4 m.mem)

include h hkernel hw

/-- **A process space** is a copy of the window, with one frame for each table of it. -/
theorem newProcessSpace_copied :
    Ends (exec .newProcessSpace) m
      (fun made m' => ∃ root pdpt pd pts used, made = some ⟨root, 0⟩ ∧
        WindowCopied entries m.regs.kernelPml4 m root pdpt pd pts used m' ∧
        used.length = (entries.tablesIn m.mem (entries.windowPd m.mem m.regs.kernelPml4)
          512).length)
      (fun _ _ => True) := by
  refine ends_newProcessSpace ?_
  refine (cloneWindow_counted h.nodup (windowed_settled h hkernel hw)).imp_any fun root m' hQ => ?_
  obtain ⟨pdpt, pd, pts, used, copied, count⟩ := hQ
  exact ⟨root, pdpt, pd, pts, used, rfl, copied, count (hw.topped lawful).2⟩

/-- It is made of the kernel's tables, whatever is active. -/
theorem newProcessSpace_left :
    Ends (exec .newProcessSpace) m (fun made m' => ∃ lv', Left lv m lv' m' ∧ ∀ space ∈ made,
      Made lv' m space)
      (fun _ _ => True) := by
  have typed : Ends (exec .newProcessSpace) m
      (fun made m' => ∃ lv', Grows entries backend.shape lv m lv' m' ∧ ∀ space ∈ made,
      IsRoot entries lv' space.primary) (fun _ _ => True) := by
    refine ends_newProcessSpace ((cloneWindow_typed lawful keeps h hkernel).imp_any fun _ _ hQ =>
      ?_)
    obtain ⟨frame, lv', grown, hroot⟩ := hQ
    refine ⟨lv', grown, fun space hc => ?_⟩
    cases hc
    exact ⟨frame, hroot⟩
  refine (typed.and (newProcessSpace_copied h hkernel hw)).imp_any fun made m' hQ => ?_
  obtain ⟨⟨lv', grown, roots⟩, root, pdpt, pd, pts, used, rfl, copied, _⟩ := hQ
  refine ⟨lv', .of_fresh h grown copied.other, fun space hc => ?_⟩
  have isRoot := roots space hc
  cases hc
  exact ⟨rfl, isRoot, by rw [copied.supply]; exact List.mem_cons_self⟩

/-- **What a call leaves.** -/
theorem exec_left (call : VSpace.Call) (hcall : ∀ space, call ≠ .activate space)
    (hcr3 : call ≠ .newProcessSpace → IsRoot entries lv m.regs.cr3) :
    Ends (exec call) m (fun made m' => ∃ lv', Left lv m lv' m' ∧ ∀ space ∈ made, Made lv' m space)
      (fun _ _ => True) := by
  have edits : call ≠ .newProcessSpace → m.regs.cr3 &&& ADDR_MASK = m.regs.cr3 :=
    fun hc => (hcr3 hc).frame
  cases call with
  | activate space => exact absurd rfl (hcall space)
  | newProcessSpace => exact newProcessSpace_left h hkernel hw
  | mapPage vaddr phys prot =>
    have root := hcr3 (by simp)
    refine left_edit (mapPage_typed permits h root.rooted rfl vaddr phys prot)
      (mapPage_spec (edits (by simp)) vaddr phys prot) ?_
    intro lv' m' grown edited
    exact edited_left h root.level edited grown
  | mapUserPage vaddr phys prot domain =>
    have root := hcr3 (by simp)
    refine left_edit (mapUserPage_typed permits h root.rooted rfl vaddr phys prot domain)
      (mapUserPage_tiered vaddr phys prot domain (tiered keeps h root.level rfl _)
      (edits (by simp))) ?_
    intro lv' m' grown mapped
    exact userMapped_left h root.level mapped grown
  | installGuardPage vaddr =>
    have root := hcr3 (by simp)
    refine left_edit (installGuardPage_typed permits h root.rooted rfl vaddr)
      (installGuardPage_spec (edits (by simp)) vaddr) ?_
    intro lv' m' grown edited
    exact edited_left h root.level edited grown
  | isolate vaddr =>
    have root := hcr3 (by simp)
    show Ends (do return some (⟨← buildDomainExcluding vaddr, 0⟩ : AddressSpace)) m _ _
    rw [ends_bind]
    refine ((buildDomainExcluding_typed keeps h root.rooted rfl vaddr).and
      (buildDomainExcluding_spec keeps h root.rooted rfl vaddr)).imp_any fun root m' hQ => ?_
    obtain ⟨⟨frame, lv', grown, hroot⟩, pdpt, pd, pt, excluded⟩ := hQ
    rw [ends_pure]
    refine ⟨lv', .of_fresh h grown excluded.same, fun space hc => ?_⟩
    cases hc
    exact ⟨rfl, ⟨frame, hroot⟩, excluded.taken root List.mem_cons_self⟩

end

/-! ## Spaces -/

/-- A walk from the root of `space` may read table `f`. -/
def Reaches (mem : Mem U64) (space : AddressSpace) (f : U64) : Prop :=
  ∃ n, Reached entries.format 512 mem (fun t => t = space.primary) 3 n f

section

variable {lv lv' : U64 → Option Nat} {m m' : Machine Regs} {spaces : List AddressSpace}

/-- The tables that the spaces lead to are typed. -/
structure Levelled (lv : U64 → Option Nat) (m : Machine Regs) (spaces : List AddressSpace) :
    Prop where
  heap : Heap entries backend.shape lv m
  secondary : ∀ space ∈ spaces, space.secondary = 0
  roots : ∀ space ∈ spaces, IsRoot entries lv space.primary

section

variable (h : Levelled lv m spaces)

include h

theorem Levelled.reached {space : AddressSpace} (hs : space ∈ spaces) {f : U64}
    (hr : Reaches m.mem space f) : lv f ≠ none := by
  obtain ⟨n, reached⟩ := hr
  have level : lv f = some n := reached.level h.heap.typed fun t ht => by
    rw [ht]
    exact (h.roots space hs).level
  rw [level]
  exact Option.some_ne_none n

theorem Levelled.mono {fewer : List AddressSpace} (hsub : ∀ space ∈ fewer, space ∈ spaces) :
    Levelled lv m fewer :=
  ⟨h.heap, fun space hs => h.secondary space (hsub space hs), fun space hs =>
  h.roots space (hsub space hs)⟩

/-- Typed tables that stay as they are stay typed. -/
theorem Levelled.same (hmem : ∀ t n, lv t = some n → m'.mem t = m.mem t)
    (hnodup : m'.supply.Nodup) (hsub : ∀ f ∈ m'.supply, f ∈ m.supply) : Levelled lv m' spaces where
  heap :=
    { typed := fun t n hn i hi => by
        rw [hmem t n hn]
        exact h.heap.typed t n hn i hi
      nodup := hnodup
      free := fun f hf => h.heap.free f (hsub f hf)
      frame := fun f hf => h.heap.frame f (hsub f hf) }
  secondary := h.secondary
  roots := h.roots

/-- **A call**, made with a space that leads to typed tables. -/
theorem Levelled.call {call : VSpace.Call} (hcall : ∀ space, call ≠ .activate space)
    (hcr3 : call ≠ .newProcessSpace → ⟨m.regs.cr3, 0⟩ ∈ spaces)
    (hkernel : ⟨m.regs.kernelPml4, 0⟩ ∈ spaces) (hw : Windowed entries m.regs.kernelPml4 m.mem)
    {made : Option AddressSpace} (hexec : exec call m = .ok made m') :
    ∃ lv', Left lv m lv' m' ∧ Levelled lv' m' (made.toList ++ spaces) ∧ ∀ space ∈ made,
      space.primary ∈ m.supply := by
  have spec :=
    exec_left h.heap (h.roots _ hkernel).level hw call hcall fun hc => h.roots _ (hcr3 hc)
  obtain ⟨lv', left, hmade⟩ := spec.ok hexec
  refine ⟨lv', left, ⟨left.grown.heap, fun space hs => ?_, fun space hs => ?_⟩, fun space hs =>
    (hmade space hs).taken⟩
  · rcases List.mem_append.mp hs with hnew | hold
    · exact (hmade space (Option.mem_toList.mp hnew)).secondary
    · exact h.secondary space hold
  · rcases List.mem_append.mp hs with hnew | hold
    · exact (hmade space (Option.mem_toList.mp hnew)).root
    · exact (h.roots space hold).mono (left.grown.keeps h.heap)

/-- Tables that no space leads to are forgotten, and may be allocated. -/
theorem Levelled.prune {supply : List U64} (hnodup : supply.Nodup)
    (hframe : ∀ f ∈ supply, entries.IsFrame f)
    (hfree : ∀ f ∈ supply, ∀ space ∈ spaces, ¬ Reaches m.mem space f) :
    ∃ lv', Levelled lv' { m with supply := supply } spaces ∧ ∀ f, lv f = none → lv' f = none := by
  have roots : ∀ t, (∃ space ∈ spaces, t = space.primary) → lv t = some 3 := by
    rintro t ⟨space, hs, rfl⟩
    exact (h.roots space hs).level
  refine ⟨Radix.prune entries.format 512 m.mem (fun t => ∃ space ∈ spaces, t = space.primary) 3 lv,
    ⟨⟨?_, hnodup, ?_, hframe⟩, h.secondary, ?_⟩, ?_⟩
  · exact h.heap.typed.prune roots
  · intro f hf
    refine prune_of_not fun n hn => ?_
    obtain ⟨_, ⟨space, hs, rfl⟩, hr⟩ := hn.of_root
    exact hfree f hf space hs ⟨n, hr⟩
  · intro space hs
    refine ⟨(h.roots space hs).frame, ?_⟩
    rw [prune_of_reached (.root ⟨space, hs, rfl⟩)]
    exact (h.roots space hs).level
  · intro f hf
    by_contra hc
    obtain ⟨n, hn⟩ := Option.ne_none_iff_exists'.mp hc
    rw [(prune_eq_some hn).1] at hf
    cases hf

end

end

end X86

end Praesidium
