import Praesidium.Kernel.Isolation
import Praesidium.Kernel.PagingCalls

/-!
No page is both writable and executable, in any address space a backend builds.

The tables of a backend are typed by their levels, with leaves that are not both writable and
executable.  `Guarded` says what a backend owes for that: building and every call keep the
typing, and a walk in a space starts at one of its roots.  Both backends have it, by the bits
each call writes, and the run rule does the rest:

    every leaf that a walk finds in a built space, after any calls: ¬ (writable ∧ executable)
        (write_xor_exec)
-/

namespace Praesidium

open Fallible Flags Paging Radix VSpace

/-! ## What a backend owes -/

/-- A root table. -/
structure IsRoot (d : Entries) (lv : U64 → Option Nat) (t : U64) : Prop where
  frame : d.IsFrame t
  level : lv t = some 3

variable {d : Entries} {lv : U64 → Option Nat} {t : U64}

theorem IsRoot.mono {lv' : U64 → Option Nat} (h : IsRoot d lv t) (hlv : Extends lv lv') :
    IsRoot d lv' t := ⟨h.frame, hlv t 3 h.level⟩

theorem IsRoot.rooted (h : IsRoot d lv t) : TypedRoot d lv t 3 :=
  ⟨h.frame, h.level⟩

/-- All tables and all roots still typed: those in the registers, and those of the space a call
built. -/
def Kept {R : Type} (d : Entries) (S : Shape U64 Nat)
    (regRoots : R → List U64) (spaceRoots : AddressSpace → List U64)
    (lv : U64 → Option Nat) (made : Option AddressSpace) (m : Machine R) : Prop :=
  ∃ lv', Extends lv lv' ∧ Heap d S lv' m ∧ (∀ t ∈ regRoots m.regs, IsRoot d lv' t) ∧
    ∀ space ∈ made, ∀ t ∈ spaceRoots space, IsRoot d lv' t

namespace VSpace.Backend

/-- The leaves of the tables; there are none in a root. -/
def Allowed (b : Backend) (level : Nat) (e : U64) : Prop :=
  level ≠ 3 ∧ ¬ (b.writable e = true ∧ b.executable e = true)

abbrev shape (b : Backend) : Shape U64 Nat := Shape.uniform b.Allowed fun _ _ => True

structure Guarded (b : Backend) where
  regRoots : b.Regs → List U64
  spaceRoots : AddressSpace → List U64
  setup : ∀ (km : KernelMap) (m : Machine b.Regs), km.Admitted → b.Supplied m →
    Ends (b.setup km) m (fun space m' => ∃ lv, Heap b.entries b.shape lv m' ∧
      (∀ t ∈ regRoots m'.regs, IsRoot b.entries lv t) ∧ ∀ t ∈ spaceRoots space,
      IsRoot b.entries lv t) (fun _ _ => True)
  exec : ∀ (call : VSpace.Call) (lv : U64 → Option Nat) (m : Machine b.Regs),
    Heap b.entries b.shape lv m → (∀ t ∈ regRoots m.regs, IsRoot b.entries lv t) →
    (∀ space, call = .activate space → ∀ t ∈ spaceRoots space, IsRoot b.entries lv t) →
    Ends (b.exec call) m (Kept b.entries b.shape regRoots spaceRoots lv) (fun _ _ => True)
  walk : ∀ (m : Machine b.Regs) (space : AddressSpace) (v leaf mask : U64),
    b.walkIn m space v = some (leaf, mask) →
    ∃ t ∈ spaceRoots space, b.entries.walkFrom m.mem (t &&& b.entries.addrMask) v =
    some (leaf, mask)

end VSpace.Backend

/-- The tables and all roots of a state are typed. -/
def VSpace.Backend.Guarded.Inv {b : Backend} (g : b.Guarded) (s : b.State) : Prop :=
  ∃ lv, Heap b.entries b.shape lv s.machine ∧
    (∀ t ∈ g.regRoots s.machine.regs, IsRoot b.entries lv t) ∧
    ∀ space ∈ s.spaces, ∀ t ∈ g.spaceRoots space, IsRoot b.entries lv t

namespace VSpace.Backend.Guarded

variable {b : Backend} (g : b.Guarded)

variable {s t : b.State}

theorem boots_inv {km : KernelMap} {m : Machine b.Regs} (hkm : km.Admitted) (hm : b.Supplied m)
    (hs : b.Boots km m s) : g.Inv s := by
  obtain ⟨space, m', hrun, rfl⟩ := hs
  obtain ⟨lv, heap, regs, roots⟩ := (g.setup km m hkm hm).ok hrun
  refine ⟨lv, heap, regs, fun space' hmem => ?_⟩
  rw [List.mem_singleton.mp hmem]
  exact roots

theorem step_inv {ev : VSpace.Event} (h : g.Inv s) (hs : b.Step s ev t) : g.Inv t := by
  obtain ⟨lv, heap, regs, roots⟩ := h
  obtain ⟨_, hact, made, m', hrun, rfl⟩ := hs
  have spec := g.exec ev.call lv s.machine heap regs fun space hc => roots space (hact space hc)
  obtain ⟨lv', ext, heap', regs', made'⟩ := spec.ok hrun
  refine ⟨lv', heap', regs', fun space hmem => ?_⟩
  rcases List.mem_append.mp hmem with hnew | hold
  · exact made' space (Option.mem_toList.mp hnew)
  · exact fun t ht => (roots space hold t ht).mono ext

/-- What a walk in a built space finds is an allowed leaf. -/
theorem Inv.walk {g : b.Guarded} (h : g.Inv s) {space : AddressSpace} (hspace : space ∈ s.spaces)
    {v leaf mask : U64} (hw : b.walkIn s.machine space v = some (leaf, mask)) :
    ¬ (b.writable leaf = true ∧ b.executable leaf = true) := by
  obtain ⟨lv, heap, _, roots⟩ := h
  obtain ⟨t, ht, hwalk⟩ := g.walk s.machine space v leaf mask hw
  have root := roots space hspace t ht
  have frame : t &&& b.entries.addrMask = t := root.frame
  rw [frame, Entries.walkFrom, Option.map_eq_some_iff] at hwalk
  obtain ⟨⟨level, e⟩, hradix, he⟩ := hwalk
  obtain ⟨level', _, allowed, _⟩ := heap.typed.walk (index_lt v) root.level hradix
  have hleaf : e = leaf := congrArg Prod.fst he
  rw [← hleaf]
  exact allowed.2

theorem run_inv {tr : List VSpace.Event} (h : g.Inv s) (hr : Run b.Step s tr t) : g.Inv t :=
  hr.inv g.Inv h fun _ _ _ => g.step_inv

end VSpace.Backend.Guarded

/-! ## Roots by their level -/

theorem isRoot_iff {roots : List (U64 × Bool)} :
    (∀ t ∈ roots.map Prod.fst, IsRoot d lv t) ↔ ∀ p ∈ roots, TypedRoot d lv p.1 3 := by
  rw [List.forall_mem_map]
  exact forall₂_congr fun p _ => ⟨fun h => ⟨h.frame, h.level⟩, fun h => ⟨h.frame, h.role⟩⟩

section

variable {b : Backend} {H : Halves b.Regs}

variable {m : Machine b.Regs}

theorem VSpace.Backend.Typable.setup_roots (hb : b.Typable b.shape H fun _ => 3) {km : KernelMap}
    (hkm : km.Admitted) (hm : b.Supplied m) :
    Ends (b.setup km) m (fun space m' => ∃ lv, Heap b.entries b.shape lv m' ∧
      (∀ t ∈ (H.regs m'.regs).map Prod.fst, IsRoot b.entries lv t) ∧
      ∀ t ∈ (H.space space).map Prod.fst, IsRoot b.entries lv t) (fun _ _ => True) := by
  refine (hb.setup km m hkm hm).imp_any fun space m' hQ => ?_
  obtain ⟨lv, heap, regs, spaces⟩ := hQ
  exact ⟨lv, heap, isRoot_iff.mpr regs, isRoot_iff.mpr (spaces space List.mem_cons_self)⟩

theorem VSpace.Backend.Typable.exec_roots (hb : b.Typable b.shape H fun _ => 3) (call : VSpace.Call)
    {lv : U64 → Option Nat} (h : Heap b.entries b.shape lv m)
    (hregs : ∀ t ∈ (H.regs m.regs).map Prod.fst, IsRoot b.entries lv t)
    (hact : ∀ space, call = .activate space → ∀ t ∈ (H.space space).map Prod.fst,
      IsRoot b.entries lv t) :
    Ends (b.exec call) m (Kept b.entries b.shape (fun regs => (H.regs regs).map Prod.fst)
      (fun space => (H.space space).map Prod.fst) lv) (fun _ _ => True) := by
  -- the one space that the call needs
  obtain ⟨spaces, hin, hall⟩ : ∃ spaces : List AddressSpace, (∀ space, call = .activate space →
    space ∈ spaces) ∧ ∀ space ∈ spaces, call = .activate space := by
    cases call with
    | activate space => exact ⟨[space], by simp, by simp⟩
    | _ => exact ⟨[], by simp, by simp⟩
  have typed : RootsTyped b.entries b.shape H (fun _ => 3) spaces lv m :=
    ⟨h, isRoot_iff.mp hregs, fun space hs => isRoot_iff.mp (hact space (hall space hs))⟩
  refine (hb.exec call spaces lv m typed hin).imp_any fun made m' hQ => ?_
  obtain ⟨lv', ext, kept⟩ := hQ
  refine ⟨lv', ext, kept.heap, isRoot_iff.mpr kept.regs, fun space hs =>
    isRoot_iff.mpr (kept.spaces space ?_)⟩
  exact List.mem_append_left _ (Option.mem_toList.mpr hs)

end

/-! ## x86-64 -/

namespace X86

theorem allowed_iff (level : Nat) (e : U64) :
    backend.Allowed level e ↔ level ≠ 3 ∧ (has e WRITABLE = true → has e NX = true) := by
  show level ≠ 3 ∧ ¬ (has e WRITABLE = true ∧ (!has e NX) = true) ↔ _
  rw [Bool.not_eq_true', not_and, Bool.not_eq_false]

/-- Entries with the same two bits are allowed alike. -/
theorem allowed_congr {level level' : Nat} {e e' : U64} (hl : level' ≠ 3)
    (hw : has e' WRITABLE = has e WRITABLE) (hx : has e' NX = has e NX)
    (h : backend.Allowed level e) : backend.Allowed level' e' := by
  rw [allowed_iff] at h ⊢
  exact ⟨hl, by rw [hw, hx]; exact h.2⟩

theorem keeps : entries.Keeps backend.shape where
  root_leaf _ _ _ hl _ h := h.1 hl
  link_table _ _ _ _ := trivial
  link_moved _ _ _ _ _ _ := trivial
  leaf_moved _ _ f e hf h :=
    allowed_congr h.1 (Entries.has_moved e hf (by decide) (by decide))
    (Entries.has_moved e hf (by decide) (by decide)) h
  leaf_split n _ e j hl hj h :=
    allowed_congr (show n - 1 ≠ 3 by have hn : n = 1 := hl; omega)
    (has_split e hj (by decide) (by decide)) (has_split e hj (by decide) (by decide)) h

variable {pa : U64}

theorem allowed_leafBits {rest : U64} (prot : Prot) (hpa : has pa WRITABLE = false)
    (hrest : has rest WRITABLE = false) : backend.Allowed 0 (pa ||| leafBits prot ||| rest) := by
  rw [allowed_iff]
  refine ⟨by decide, fun hw => ?_⟩
  rw [has_or, has_or, hpa, hrest, Bool.or_false, Bool.false_or] at hw
  cases prot with
  | rx => exact absurd hw (by decide)
  | ro => exact absurd hw (by decide)
  | rw =>
    exact has_or_left _ (has_or_right pa (by decide))

theorem allowed_page (prot : Prot) (hpa : has pa WRITABLE = false) :
    backend.Allowed 0 (entries.page pa prot) := by
  have h := allowed_leafBits prot hpa (has_zero WRITABLE)
  have zero : pa ||| leafBits prot ||| 0 = pa ||| leafBits prot := BitVec.or_zero
  rw [zero] at h
  exact h

theorem allowed_userLeaf (phys : U64) (prot : Prot) (domain : U64) :
    backend.Allowed 0 (userLeaf phys prot domain) := by
  unfold userLeaf
  rw [BitVec.or_assoc]
  apply allowed_leafBits prot (has_drop phys (by decide))
  have user : has USER WRITABLE = false := by decide
  rw [has_or, user, has_pkeyBits (by decide), Bool.or_false]

theorem allowed_block (pa : U64) : backend.Allowed 1 (entries.block pa) := by
  rw [allowed_iff]
  refine ⟨by decide, fun _ => ?_⟩
  show has (pa ||| PRESENT ||| WRITABLE ||| HUGE ||| NX) NX = true
  exact has_or_right _ (by decide)

theorem permits : Permits backend.shape where
  keeps := keeps
  block n _ pa hl := (show n = 1 from hl) ▸ allowed_block pa
  page n _ pa prot hl hpa := (show n = 0 from hl) ▸ allowed_page prot (has_aligned hpa (by decide))
  userPage n _ phys prot domain hl := (show n = 0 from hl) ▸ allowed_userLeaf phys prot domain
  leaf_user _ _ e h := allowed_congr h.1 (has_or_user e (by decide)) (has_or_user e (by decide)) h
  link_user _ _ _ _ := trivial

theorem typed : backend.Typable backend.shape halves fun _ => 3 := typable permits rfl

def regRoots (regs : Regs) : List U64 := [regs.cr3, regs.kernelPml4]

def spaceRoots (space : AddressSpace) : List U64 := [space.primary]

theorem walkIn_root {m : Machine Regs} (space : AddressSpace) (v leaf mask : U64)
    (hw : walk { m with regs := m.regs.load space } v = some (leaf, mask)) :
    ∃ t ∈ spaceRoots space, entries.walkFrom m.mem (t &&& ADDR_MASK) v = some (leaf, mask) := by
  refine ⟨space.primary, List.mem_singleton.mpr rfl, ?_⟩
  rw [← walkFrom_eq]
  exact hw

def guarded : backend.Guarded where
  regRoots := regRoots
  spaceRoots := spaceRoots
  setup _ _ hkm hm := typed.setup_roots hkm hm
  exec call _ _ h hregs hact := typed.exec_roots call h hregs hact
  walk _ space v leaf mask hw := walkIn_root space v leaf mask hw

end X86

/-! ## aarch64 -/

namespace Aarch64

theorem allowed_iff (level : Nat) (e : U64) :
    backend.Allowed level e ↔ level ≠ 3 ∧
      (has e AP_RO = false → has e PXN = true ∧ has e UXN = true) := by
  show level ≠ 3 ∧ ¬ ((!has e AP_RO) = true ∧ (!has e PXN || !has e UXN) = true) ↔ _
  rw [Bool.not_eq_true', not_and, Bool.or_eq_true, not_or, Bool.not_eq_true', Bool.not_eq_true',
    Bool.not_eq_false, Bool.not_eq_false]

variable {level : Nat} {e : U64}

theorem allowed_congr {level' : Nat} {e' : U64} (hl : level' ≠ 3) (hro : has e' AP_RO = has e AP_RO)
    (hp : has e' PXN = has e PXN) (hu : has e' UXN = has e UXN) (h : backend.Allowed level e) :
    backend.Allowed level' e' := by
  rw [allowed_iff] at h ⊢
  exact ⟨hl, by rw [hro, hp, hu]; exact h.2⟩

theorem allowed_readOnly (hl : level ≠ 3) (h : has e AP_RO = true) : backend.Allowed level e := by
  rw [allowed_iff]
  exact ⟨hl, fun hc => by rw [h] at hc; cases hc⟩

theorem allowed_noExec (hl : level ≠ 3) (hp : has e PXN = true) (hu : has e UXN = true) :
    backend.Allowed level e := by
  rw [allowed_iff]
  exact ⟨hl, fun _ => ⟨hp, hu⟩⟩

theorem keeps : entries.Keeps backend.shape where
  root_leaf _ _ _ hl _ h := h.1 hl
  link_table _ _ _ _ := trivial
  link_moved _ _ _ _ _ _ := trivial
  leaf_moved _ _ f e hf h :=
    allowed_congr h.1 (Entries.has_moved e hf (by decide) (by decide))
    (Entries.has_moved e hf (by decide) (by decide))
      (Entries.has_moved e hf (by decide) (by decide)) h
  leaf_split n _ e j hl hj h :=
    allowed_congr (show n - 1 ≠ 3 by have hn : n = 1 := hl; omega)
    (has_split e hj (by decide) (by decide) (by decide))
      (has_split e hj (by decide) (by decide) (by decide))
      (has_split e hj (by decide) (by decide) (by decide)) h

theorem allowed_pageDesc (pa : U64) (prot : Prot) : backend.Allowed 0 (pageDesc pa prot) := by
  cases prot with
  | rx => exact allowed_readOnly (by decide) (has_or_right _ (by decide))
  | ro => exact allowed_readOnly (by decide) (has_or_left _ (has_or_right _ (by decide)))
  | rw =>
    exact allowed_noExec (by decide) (has_or_right _ (by decide))
      (has_or_left _ (has_or_right _ (by decide)))

theorem allowed_userPageDesc (pa : U64) (prot : Prot) :
    backend.Allowed 0 (userPageDesc pa prot) := by
  cases prot with
  | rx => exact allowed_readOnly (by decide) (has_or_right _ (by decide))
  | ro => exact allowed_readOnly (by decide) (has_or_left _ (has_or_right _ (by decide)))
  | rw =>
    exact allowed_noExec (by decide) (has_or_left _ (has_or_right _ (by decide)))
      (has_or_right _ (by decide))

theorem allowed_userLeaf (phys : U64) (prot : Prot) (domain : U64) :
    backend.Allowed 0 (userLeaf phys prot domain) := by
  have desc := allowed_userPageDesc (phys &&& ADDR_MASK) prot
  unfold userLeaf
  by_cases h : domain ≠ 0
  · rw [if_pos h]
    -- the tag replaces the memory type only
    have keep : ∀ (e c : U64), c &&& ~~~(7 <<< 2 : U64) = c → has ATTR_TAGGED c = false →
        has ((e &&& ~~~(7 <<< 2 : U64)) ||| ATTR_TAGGED) c = has e c := fun e c hc ht => by
      rw [has_or, has_keep e hc, ht, Bool.or_false]
    exact allowed_congr (by decide) (keep _ _ (by decide) (by decide))
      (keep _ _ (by decide) (by decide)) (keep _ _ (by decide) (by decide)) desc
  · rw [if_neg h]
    exact desc

theorem allowed_blockDesc (pa : U64) : backend.Allowed 1 (blockDesc pa) := by
  unfold blockDesc
  by_cases h : pa < RAM_BASE
  · rw [if_pos h]
    exact allowed_noExec (by decide) (has_or_left _ (has_or_right _ (by decide)))
      (has_or_right _ (by decide))
  · rw [if_neg h]
    exact allowed_noExec (by decide) (has_or_left _ (has_or_right _ (by decide)))
      (has_or_right _ (by decide))

theorem permits : Permits backend.shape where
  keeps := keeps
  block n _ pa hl := (show n = 1 from hl) ▸ allowed_blockDesc pa
  page n _ pa prot hl := (show n = 0 from hl) ▸ allowed_pageDesc pa prot
  userPage n _ phys prot domain hl := (show n = 0 from hl) ▸ allowed_userLeaf phys prot domain
  tagged n _ _ hl :=
    allowed_noExec (show n ≠ 3 by have h : n = 0 := hl; omega) (has_or_right _ (by decide))
    (has_or_left _ (has_or_right _ (by decide)))

theorem typed : backend.Typable backend.shape halves fun _ => 3 := typable permits fun _ => rfl

def regRoots (regs : Regs) : List U64 :=
  [regs.ttbr0, regs.ttbr1, regs.kernelTtbr0, regs.kernelTtbr1]

def spaceRoots (space : AddressSpace) : List U64 := [space.primary, space.secondary]

theorem walkIn_root {m : Machine Regs} (space : AddressSpace) (v leaf mask : U64)
    (hw : walk { m with regs := m.regs.load space } v = some (leaf, mask)) :
    ∃ t ∈ spaceRoots space, entries.walkFrom m.mem (t &&& ADDR_MASK) v = some (leaf, mask) := by
  rw [walk_eq] at hw
  by_cases hv : has v (1 <<< 63) = true
  · refine ⟨space.primary, List.mem_cons_self, ?_⟩
    unfold rootFor at hw
    rw [if_pos hv] at hw
    exact hw
  · refine ⟨space.secondary, List.mem_cons_of_mem _ List.mem_cons_self, ?_⟩
    unfold rootFor at hw
    rw [if_neg hv] at hw
    exact hw

def guarded : backend.Guarded where
  regRoots := regRoots
  spaceRoots := spaceRoots
  setup _ _ hkm hm := typed.setup_roots hkm hm
  exec call _ _ h hregs hact := typed.exec_roots call h hregs hact
  walk _ space v leaf mask hw := walkIn_root space v leaf mask hw

end Aarch64

/-! ## Both backends -/

def VSpace.Arch.guarded : (arch : Arch) → arch.backend.Guarded
  | .x86_64 => X86.guarded
  | .aarch64 => Aarch64.guarded

/-- **W^X.**  From `setup_kernel_paging` on, through any calls with any built space active, a
walk of any address in any built space ends in no leaf that is writable and executable. -/
theorem write_xor_exec (arch : Arch) (km : KernelMap) (hkm : km.Admitted)
    (m : Machine arch.backend.Regs) (hm : arch.backend.Supplied m) (s t : arch.backend.State)
    (tr : List VSpace.Event) (hboot : arch.backend.Boots km m s)
    (hrun : Run arch.backend.Step s tr t) :
    ∀ space ∈ t.spaces, ∀ v leaf mask, arch.backend.walkIn t.machine space v = some (leaf, mask) →
      ¬ (arch.backend.writable leaf = true ∧ arch.backend.executable leaf = true) := by
  intro space hspace v leaf mask hw
  have inv := arch.guarded.run_inv (arch.guarded.boots_inv hkm hm hboot) hrun
  exact inv.walk hspace hw

theorem write_xor_exec_plain :
    ∃ (s t : X86.backend.State) (space : AddressSpace),
    X86.plainMap.Admitted ∧ X86.backend.Boots X86.plainMap X86.plainMachine s ∧ space ∈ t.spaces ∧
      space ≠ X86.kernelSpace s.machine ∧ ∀ v leaf mask, X86.backend.walkIn t.machine space v =
        some (leaf, mask) →
        ¬ (X86.backend.writable leaf = true ∧ X86.backend.executable leaf = true) := by
  obtain ⟨s, t, space, hboot, hmem, hother, hrun⟩ := X86.plain_run
  exact ⟨s, t, space, X86.plainMap_admitted, hboot, hmem, hother,
    write_xor_exec .x86_64 X86.plainMap X86.plainMap_admitted X86.plainMachine
    X86.plainMachine_supplied s t _
    hboot hrun space hmem⟩

end Praesidium
