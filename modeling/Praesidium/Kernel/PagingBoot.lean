import Praesidium.Kernel.PagingArm
import Praesidium.Kernel.PagingBuild
import Praesidium.Kernel.PagingX86

/-!
The kernel's own space at boot.

`buildAddressSpace` returns when the supply has the frames and no address of the image runs
over, and leaves the low physical map in place under entry 0 of the root it returns, on aarch64
of the root for the low half (`buildAddressSpace_spec`).  The tables it makes fit every shape
that allows the leaves of the physical map and of the image (`buildAddressSpace_grown`).
-/

namespace Praesidium

namespace X86

open Fallible Flags Paging Radix

/-- The entries of the root for the direct map and for the image are their own. -/
structure Slots (km : KernelMap) : Prop where
  hhdm : index km.hhdmOffset 3 ≠ 0
  kernel : index km.kernelVbase 3 ≠ 0
  apart : index km.hhdmOffset 3 ≠ index km.kernelVbase 3

/-- The gibibytes of the low physical map. -/
def lowGibs (km : KernelMap) : Nat := (km.identityBytes.toNat + GIB - 1) / GIB

end X86

/-! ## The direct map and the image -/

namespace Paging

open Fallible
open X86 (lowGibs)

variable {R : Type} {d : Entries}

/-- A new root, with the low physical map under its first entry. -/
structure LowRoot (d : Entries) (km : KernelMap) (root : U64) (m : Machine R) (pdpt : U64)
    (pds : List U64) (m' : Machine R) : Prop where
  supply : m.supply = root :: (pdpt :: pds ++ m'.supply)
  nodup : (root :: (pdpt :: pds ++ m'.supply)).Nodup
  gibs : pds.length = lowGibs km
  regs : m'.regs = m.regs
  tables : LowTables d root 0 pdpt pds m'.mem
  rest : ∀ i, i ≠ 0 → m'.mem root i = 0
  other : ∀ t, t ∉ m.supply → m'.mem t = m.mem t

section

variable {km : KernelMap} {root pdpt : U64} {pds : List U64} {m m' : Machine R}

/-- The tables are not frames to come. -/
theorem LowRoot.away (h : LowRoot d km root m pdpt pds m') :
    root ∉ m'.supply ∧ root ∉ pdpt :: pds ∧ ∀ t ∈ pdpt :: pds, t ∉ m'.supply := by
  obtain ⟨fresh, nodup⟩ := List.nodup_cons.mp h.nodup
  rw [List.mem_append, not_or] at fresh
  exact ⟨fresh.2, fresh.1, fun t ht hc => (List.nodup_append.mp nodup).2.2 t ht t hc rfl⟩

theorem LowRoot.nodup_left (h : LowRoot d km root m pdpt pds m') : m'.supply.Nodup :=
  (List.nodup_append.mp (List.nodup_cons.mp h.nodup).2).2.1

theorem LowRoot.length (h : LowRoot d km root m pdpt pds m') :
    m.supply.length = lowGibs km + 2 + m'.supply.length := by
  rw [h.supply, List.length_cons, List.length_append, List.length_cons, h.gibs]
  omega

/-- Both builders make such a root first. -/
theorem ends_lowRoot {α : Type} {k : U64 → Prog R α} {Q : α → Machine R → Prop}
    {E : Halt → Machine R → Prop} (hnodup : m.supply.Nodup)
    (hfew : m.supply.length < lowGibs km + 2 → ∀ m', E .outOfFrames m')
    (hk : ∀ root pdpt pds m1, LowRoot d km root m pdpt pds m1 → Ends (k root) m1 Q E) :
    Ends (do let root ← allocTable; mapLow d root 0 km.identityBytes; k root) m Q E := by
  rw [ends_bind, ends_allocTable]
  refine ⟨fun hs => hfew (by rw [hs]; exact Nat.succ_pos _) _, fun root rest hs => ?_⟩
  have hall := hnodup
  rw [hs] at hall
  obtain ⟨hroot, hrest⟩ := List.nodup_cons.mp hall
  rw [ends_bind]
  refine (mapLow_spec (m := { m with mem := m.mem.fill root fun _ => 0, supply := rest }) hrest
    hroot 0 _).imp (fun _ m1 h1 => ?_) (fun e _ he => ?_)
  · obtain ⟨pdpt, pds, gibs, low⟩ := h1
    have supply : m.supply = root :: (pdpt :: pds ++ m1.supply) :=
      hs.trans (congrArg (root :: ·) low.supply)
    refine hk root pdpt pds m1 ⟨supply, supply ▸ hnodup, gibs, low.regs, low.tables,
      fun i hi => ?_, fun t ht => ?_⟩
    · rw [low.root_other i hi]
      exact congrFun (Radix.Mem.fill_self ..) i
    · rw [hs, List.mem_cons, not_or] at ht
      rw [low.other t ht.2 ht.1]
      exact Radix.Mem.fill_ne _ ht.1 _
  · have few : rest.length < _ := he.2
    rw [he.1]
    refine hfew ?_ _
    rw [hs, List.length_cons]
    exact Nat.succ_lt_succ few

end

/-- Under `root`: the direct map, the image, and what was there. -/
structure HighBuilt (d : Entries) (root : U64) (km : KernelMap) (m : Machine R) (used : List U64)
    (m' : Machine R) : Prop where
  supply : m.supply = used ++ m'.supply
  count : used.length = lowGibs km + 4
  regs : m'.regs = m.regs
  hhdm : LowArea d root (index km.hhdmOffset 3) (lowGibs km) used m'.mem
  image : ImageArea d root km used m'.mem
  root_other : ∀ i, i ≠ index km.hhdmOffset 3 → i ≠ index km.kernelVbase 3 →
    m'.mem root i = m.mem root i
  other : ∀ t, t ∉ m.supply → t ≠ root → m'.mem t = m.mem t

theorem mapHigh_spec {m : Machine R} {root : U64} (hnodup : m.supply.Nodup)
    (hroot : root ∉ m.supply) (km : KernelMap)
    (hkm : index km.hhdmOffset 3 ≠ index km.kernelVbase 3) :
    Ends (do mapLow d root (index km.hhdmOffset 3) km.identityBytes; mapKernel d root km) m
      (fun _ m' => ∃ used, HighBuilt d root km m used m')
      (fun e _ => (e = .outOfFrames ∧ m.supply.length < lowGibs km + 4) ∨
        (e = .overflow ∧ ¬ ImageFits km)) := by
  rw [ends_bind]
  refine (mapLow_spec hnodup hroot _ _).imp (fun _ m1 h1 => ?_) (fun e _ he => .inl ⟨he.1, ?_⟩)
  case refine_2 =>
    have few := he.2
    unfold lowGibs
    omega
  obtain ⟨pdpt, pds, gibs, low⟩ := h1
  have supply : m.supply = pdpt :: pds ++ m1.supply := low.supply
  rw [supply, List.mem_append, not_or] at hroot
  rw [supply, List.nodup_append] at hnodup
  obtain ⟨_, hnodup1, away⟩ := hnodup
  refine (mapKernel_spec hnodup1 hroot.2 km).imp (fun _ m2 h2 => ?_) (fun e _ he => ?_)
  case refine_2 =>
    rcases he with ⟨he, few⟩ | he
    · refine .inl ⟨he, ?_⟩
      rw [supply, List.length_append, List.length_cons, gibs]
      unfold lowGibs
      omega
    · exact .inr he
  obtain ⟨p3, p2, p1, image⟩ := h2
  refine ⟨pdpt :: pds ++ [p3, p2, p1], ?_⟩
  constructor
  case supply => rw [supply, image.supply]; simp
  case count =>
    rw [List.length_append, List.length_cons, gibs]
    rfl
  case regs => rw [image.regs, low.regs]
  case hhdm =>
    refine ⟨pdpt, pds, gibs, fun t ht => List.mem_append_left _ ht,
      low.tables.kept (image.root_other _ hkm) fun t ht => ?_⟩
    exact image.other t (fun hc => away t ht t hc rfl) fun hc => hroot.1 (hc ▸ ht)
  case image => exact ⟨p3, p2, p1, by simp, image.tables⟩
  case root_other =>
    intro i hh hk
    rw [image.root_other i hk, low.root_other i hh]
  case other =>
    intro t ht hne
    have ht1 : t ∉ m1.supply := fun hc => ht (by rw [supply]; exact List.mem_append_right _ hc)
    rw [image.other t ht1 hne, low.other t ht hne]

end Paging

/-! ## x86-64 -/

namespace X86

open Fallible Flags Paging Radix

/-- The frames that a space takes. -/
def bootFrames (km : KernelMap) : Nat := 1 + 2 * (lowGibs km + 1) + 3

structure Built (km : KernelMap) (m : Machine Regs) (pml4 pdpt : U64) (pds used : List U64)
    (m' : Machine Regs) : Prop where
  supply : m.supply = used ++ m'.supply
  count : used.length = bootFrames km
  regs : m'.regs = { m.regs with kernelPml4 := pml4 }
  gibs : pds.length = lowGibs km
  tables : ∀ t ∈ pml4 :: pdpt :: pds, t ∈ used
  low : LowTables entries pml4 0 pdpt pds m'.mem

/-- What the root leads to: the low physical map, twice, the image, and nothing else. -/
structure BootTables (km : KernelMap) (pml4 : U64) (used : List U64) (mem : Mem U64) : Prop where
  low : LowArea entries pml4 0 (lowGibs km) used mem
  hhdm : LowArea entries pml4 (index km.hhdmOffset 3) (lowGibs km) used mem
  image : ImageArea entries pml4 km used mem
  rest : ∀ i, i ≠ 0 → i ≠ index km.hhdmOffset 3 → i ≠ index km.kernelVbase 3 → mem pml4 i = 0

theorem buildAddressSpace_spec {m : Machine Regs} (hnodup : m.supply.Nodup) (km : KernelMap)
    (hkm : Slots km) :
    Ends (buildAddressSpace km) m
      (fun space m' => ∃ pml4 pdpt pds used, space = ⟨pml4, 0⟩ ∧ Built km m pml4 pdpt pds used m' ∧
        BootTables km pml4 used m'.mem ∧ ∀ t, t ∉ m.supply → m'.mem t = m.mem t)
      (fun e _ => (e = .outOfFrames ∧ m.supply.length < bootFrames km) ∨
        (e = .overflow ∧ ¬ ImageFits km)) := by
  unfold buildAddressSpace mapLow mapKernel
  refine ends_lowRoot hnodup (fun few _ => .inl ⟨rfl, ?_⟩) fun pml4 pdpt pds m1 low => ?_
  · unfold bootFrames
    omega
  obtain ⟨root_left, root_apart, away⟩ := low.away
  rw [← bind_assoc, ends_bind]
  refine (mapHigh_spec low.nodup_left root_left km hkm.apart).imp (fun _ m2 h2 => ?_)
    (fun e _ he => ?_)
  case refine_2 =>
    rcases he with ⟨he, few⟩ | he
    · refine .inl ⟨he, ?_⟩
      rw [low.length]
      unfold bootFrames
      omega
    · exact .inr he
  obtain ⟨used, high⟩ := h2
  have lowTables : LowTables entries pml4 0 pdpt pds m2.mem := by
    refine low.tables.kept (high.root_other 0 hkm.hhdm.symm hkm.kernel.symm) fun t ht => ?_
    exact high.other t (away t ht) fun hc => root_apart (hc ▸ ht)
  rw [ends_bind, ends_modify, ends_pure]
  refine ⟨pml4, pdpt, pds, pml4 :: (pdpt :: pds ++ used), rfl, ?_, ?_, fun t ht => ?_⟩
  · constructor
    case supply => rw [low.supply, high.supply]; simp
    case count =>
      rw [List.length_cons, List.length_append, List.length_cons, low.gibs, high.count]
      unfold bootFrames
      omega
    case regs => rw [high.regs, low.regs]
    case gibs => exact low.gibs
    case tables =>
      intro t ht
      simp only [List.mem_cons, List.mem_append] at ht ⊢
      tauto
    case low => exact lowTables
  · constructor
    case low =>
      exact ⟨pdpt, pds, low.gibs, fun t ht => List.mem_cons_of_mem _ (List.mem_append_left _ ht),
        lowTables⟩
    case hhdm => exact high.hhdm.mono fun t ht => List.mem_cons_of_mem _ (by simp [ht])
    case image => exact high.image.mono fun t ht => List.mem_cons_of_mem _ (by simp [ht])
    case rest =>
      intro i h0 hh hk
      show m2.mem pml4 i = 0
      rw [high.root_other i hh hk, low.rest i h0]
  · have ht' := ht
    rw [low.supply, List.mem_cons, List.mem_append, not_or, not_or] at ht'
    show m2.mem t = m.mem t
    rw [high.other t ht'.2.2 ht'.1, low.other t ht]

/-- A leaf of the physical map. -/
theorem isLeaf_block (pa : U64) : entries.isLeaf 1 (entries.block pa) = true := by
  show has (pa ||| PRESENT ||| WRITABLE ||| HUGE ||| NX) HUGE = true
  exact has_or_left _ (has_or_right _ (by decide))

theorem present_block (pa : U64) : entries.present (entries.block pa) = true := by
  show has (pa ||| PRESENT ||| WRITABLE ||| HUGE ||| NX) PRESENT = true
  exact has_or_left _ (has_or_left _ (has_or_left _ (has_or_right _ (by decide))))

section

variable {ρ : Type} {S : Shape U64 ρ} {ty : U64 → Option ρ} {r : ρ} {m : Machine Regs}

/-- Tables are made of the frames of the supply. -/
theorem buildAddressSpace_grown (hk : entries.Keeps S) (hl : S.level r = 3)
    (h : Heap entries S ty m) (km : KernelMap)
    (hblock : ∀ i g j, j < 512 → S.leaf (S.child (S.child r i) g) j
      (entries.block (BitVec.ofNat 64 g <<< 30 ||| BitVec.ofNat 64 j <<< 21)))
    (hpage : ∀ i pa prot, ImageAddr km pa →
      S.leaf (S.child (S.child (S.child r (index km.kernelVbase 3)) (index km.kernelVbase 2))
      (index km.kernelVbase 1)) i (entries.page pa prot)) :
    Ends (buildAddressSpace km) m
      (fun space m' => entries.IsFrame space.primary ∧
        m'.regs = { m.regs with kernelPml4 := space.primary } ∧
        (∀ f ∈ m'.supply, f ∈ m.supply) ∧
        ∃ ty', Heap entries S ty' m' ∧ ty' space.primary = some r ∧ ∀ t, t ∉ m.supply →
          ty' t = ty t)
      (fun _ _ => True) := by
  have blocks : ∀ i g j, g < (km.identityBytes.toNat + GIB - 1) / GIB → j < 512 →
      entries.isLeaf 1 (entries.block (BitVec.ofNat 64 g <<< 30 ||| BitVec.ofNat 64 j <<< 21)) =
      true ∧ S.leaf (S.child (S.child r i) g) j
      (entries.block (BitVec.ofNat 64 g <<< 30 ||| BitVec.ofNat 64 j <<< 21)) :=
    fun i g j _ hj => ⟨isLeaf_block _, hblock i g j hj⟩
  unfold buildAddressSpace mapLow mapKernel
  rw [ends_bind, ends_allocTable]
  refine ⟨fun _ => trivial, fun f rest hs => ?_⟩
  have frame := (h.allots hs fun _ => 0).frame
  have g1 := h.build hs (fun _ => 0) (some r) fun _ _ _ _ => .absent lawful.present_zero
  have root1 : Function.update ty f (some r) f = some r := Function.update_self ..
  rw [ends_bind]
  refine (mapLow_typed lawful hk g1.heap root1 hl 0 _ (blocks 0)).imp_any fun _ m2 hQ => ?_
  obtain ⟨ty2, g2⟩ := hQ
  have root2 := g2.keeps g1.heap _ _ root1
  rw [ends_bind]
  refine (mapLow_typed lawful hk g2.heap root2 hl _ _ (blocks _)).imp_any fun _ m3 hQ => ?_
  obtain ⟨ty3, g3⟩ := hQ
  have root3 := g3.keeps g2.heap _ _ root2
  rw [ends_bind]
  refine (mapKernel_typed lawful hk g3.heap root3 hl km hpage).imp_any fun _ m4 hQ => ?_
  obtain ⟨ty4, g4⟩ := hQ
  have all := ((g1.trans g2).trans g3).trans g4
  rw [ends_bind, ends_modify, ends_pure]
  refine ⟨frame, ?_, all.spends, ty4, g4.heap.setRegs _, g4.keeps g3.heap _ _ root3, all.same⟩
  dsimp only
  rw [all.regs]

end

end X86

/-! ## aarch64 -/

namespace Aarch64

open Fallible Flags Paging Radix
open X86 (lowGibs)

/-- The frames that a space takes. -/
def bootFrames (km : KernelMap) : Nat := 2 + 2 * (lowGibs km + 1) + 3

/-- What the roots lead to: the low physical map in each half, the image in the high one, and
nothing else. -/
structure BootTables (km : KernelMap) (space : AddressSpace) (used : List U64) (mem : Mem U64) :
    Prop where
  low : LowArea entries space.secondary 0 (lowGibs km) used mem
  low_rest : ∀ i, i ≠ 0 → mem space.secondary i = 0
  hhdm : LowArea entries space.primary (index km.hhdmOffset 3) (lowGibs km) used mem
  image : ImageArea entries space.primary km used mem
  rest : ∀ i, i ≠ index km.hhdmOffset 3 → i ≠ index km.kernelVbase 3 → mem space.primary i = 0

structure Built (km : KernelMap) (m : Machine Regs) (space : AddressSpace) (used : List U64)
    (m' : Machine Regs) : Prop where
  supply : m.supply = used ++ m'.supply
  count : used.length = bootFrames km
  regs : m'.regs = { m.regs with kernelTtbr0 := space.secondary, kernelTtbr1 := space.primary }
  roots : space.primary ∈ used ∧ space.secondary ∈ used
  tables : BootTables km space used m'.mem
  other : ∀ t, t ∉ m.supply → m'.mem t = m.mem t

theorem buildAddressSpace_spec {m : Machine Regs} (hnodup : m.supply.Nodup) (km : KernelMap)
    (hkm : index km.hhdmOffset 3 ≠ index km.kernelVbase 3) :
    Ends (buildAddressSpace km) m (fun space m' => ∃ used, Built km m space used m')
      (fun e _ => (e = .outOfFrames ∧ m.supply.length < bootFrames km) ∨
        (e = .overflow ∧ ¬ ImageFits km)) := by
  unfold buildAddressSpace mapLow mapKernel
  refine ends_lowRoot hnodup (fun few _ => .inl ⟨rfl, ?_⟩) fun ttbr0 pdpt pds m1 low => ?_
  · unfold bootFrames
    omega
  obtain ⟨root_left, _, away⟩ := low.away
  rw [ends_bind, ends_allocTable]
  refine ⟨fun hs => .inl ⟨rfl, ?_⟩, fun ttbr1 rest hs => ?_⟩
  · rw [low.length, hs, List.length_nil]
    unfold bootFrames
    omega
  -- the high half
  have nodup := low.nodup_left
  rw [hs] at nodup
  obtain ⟨hhigh, hrest⟩ := List.nodup_cons.mp nodup
  rw [← bind_assoc, ends_bind]
  refine (mapHigh_spec (m := { m1 with mem := m1.mem.fill ttbr1 fun _ => 0, supply := rest })
    hrest hhigh km hkm).imp (fun _ m2 h2 => ?_) (fun e _ he => ?_)
  case refine_2 =>
    rcases he with ⟨he, few⟩ | he
    · refine .inl ⟨he, ?_⟩
      have few : rest.length < _ := few
      rw [low.length, hs, List.length_cons]
      unfold bootFrames
      omega
    · exact .inr he
  obtain ⟨used, high⟩ := h2
  have supply : rest = used ++ m2.supply := high.supply
  -- a table of the low half stays as it is
  have old : ∀ t, t ∉ m1.supply → m2.mem t = m1.mem t := fun t ht => by
    rw [hs, List.mem_cons, not_or] at ht
    rw [high.other t ht.2 ht.1]
    exact Mem.fill_ne _ ht.1 _
  have lowTables : LowTables entries ttbr0 0 pdpt pds m2.mem :=
    low.tables.kept (by rw [old ttbr0 root_left]) fun t ht => old t (away t ht)
  rw [ends_bind, ends_modify, ends_pure]
  refine ⟨ttbr0 :: (pdpt :: pds ++ ttbr1 :: used), ?_⟩
  constructor
  case supply => rw [low.supply, hs, supply]; simp
  case count =>
    simp only [List.length_cons, List.length_append, low.gibs, high.count]
    unfold bootFrames
    omega
  case regs =>
    have regs2 : m2.regs = m1.regs := high.regs
    show { m2.regs with kernelTtbr0 := ttbr0, kernelTtbr1 := ttbr1 } = _
    rw [regs2, low.regs]
  case roots => exact ⟨by simp, List.mem_cons_self⟩
  case tables =>
    constructor
    case low =>
      exact ⟨pdpt, pds, low.gibs, fun t ht => List.mem_cons_of_mem _ (List.mem_append_left _ ht),
        lowTables⟩
    case low_rest =>
      intro i hi
      show m2.mem ttbr0 i = 0
      rw [old ttbr0 root_left, low.rest i hi]
    case hhdm => exact high.hhdm.mono fun t ht => List.mem_cons_of_mem _ (by simp [ht])
    case image => exact high.image.mono fun t ht => List.mem_cons_of_mem _ (by simp [ht])
    case rest =>
      intro i hh hk
      show m2.mem ttbr1 i = 0
      rw [high.root_other i hh hk]
      exact congrFun (Mem.fill_self ..) i
  case other =>
    intro t ht
    have left : t ∉ m1.supply := fun hc => ht (by rw [low.supply]; simp [hc])
    show m2.mem t = m.mem t
    rw [old t left, low.other t ht]

section

variable {ρ : Type} {S : Shape U64 ρ} {ty : U64 → Option ρ} {r q : ρ} {m : Machine Regs}

/-- Tables are made of the frames of the supply, with a role for either root. -/
theorem buildAddressSpace_grown (hk : entries.Keeps S) (hl0 : S.level r = 3) (hl1 : S.level q = 3)
    (h : Heap entries S ty m) (km : KernelMap)
    (hblock : ∀ x, x = r ∨ x = q → ∀ i g j, g < lowGibs km → j < 512 →
      entries.isLeaf 1 (entries.block (BitVec.ofNat 64 g <<< 30 ||| BitVec.ofNat 64 j <<< 21)) =
      true ∧ S.leaf (S.child (S.child x i) g) j
      (entries.block (BitVec.ofNat 64 g <<< 30 ||| BitVec.ofNat 64 j <<< 21)))
    (hpage : ∀ i pa prot, ImageAddr km pa →
      S.leaf (S.child (S.child (S.child q (index km.kernelVbase 3)) (index km.kernelVbase 2))
      (index km.kernelVbase 1)) i (entries.page pa prot)) :
    Ends (buildAddressSpace km) m
      (fun space m' => entries.IsFrame space.primary ∧ entries.IsFrame space.secondary ∧
        m'.regs = { m.regs with kernelTtbr0 := space.secondary, kernelTtbr1 := space.primary } ∧
        ∃ ty', Heap entries S ty' m' ∧ ty' space.secondary = some r ∧ ty' space.primary = some q ∧
          ∀ t, t ∉ m.supply → ty' t = ty t)
      (fun _ _ => True) := by
  unfold buildAddressSpace mapLow mapKernel
  rw [ends_bind]
  refine (allocTable_typed lawful h r).imp_any fun ttbr0 m1 hQ => ?_
  obtain ⟨al0, ty1, g1, low1⟩ := hQ
  rw [ends_bind]
  refine (mapLow_typed lawful hk g1.heap low1 hl0 0 _ (hblock r (.inl rfl) 0)).imp_any fun _ m2
    hQ => ?_
  obtain ⟨ty2, g2⟩ := hQ
  rw [ends_bind]
  refine (allocTable_typed lawful g2.heap q).imp_any fun ttbr1 m3 hQ => ?_
  obtain ⟨al1, ty3, g3, high3⟩ := hQ
  rw [ends_bind]
  refine (mapLow_typed lawful hk g3.heap high3 hl1 _ _ (hblock q (.inr rfl) _)).imp_any fun _ m4
    hQ => ?_
  obtain ⟨ty4, g4⟩ := hQ
  have high4 := g4.keeps g3.heap _ _ high3
  rw [ends_bind]
  refine (mapKernel_typed lawful hk g4.heap high4 hl1 km hpage).imp_any fun _ m5 hQ => ?_
  obtain ⟨ty5, g5⟩ := hQ
  have later := ((g2.trans g3).trans g4).trans g5
  have all := g1.trans later
  rw [ends_bind, ends_modify, ends_pure]
  refine ⟨al1.frame, al0.frame, ?_, ty5, g5.heap.setRegs _, later.keeps g1.heap _ _ low1,
    g5.keeps g4.heap _ _ high4, all.same⟩
  show { m5.regs with kernelTtbr0 := ttbr0, kernelTtbr1 := ttbr1 } = _
  rw [all.regs]

end

end Aarch64

end Praesidium
