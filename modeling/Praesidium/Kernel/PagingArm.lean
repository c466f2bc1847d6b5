import Praesidium.Kernel.PagingTyped

/-!
The aarch64 backend (`kernel/src/arch/aarch64/paging.rs`): `TTBR1` holds the root of the
high half and `TTBR0` that of the low half; the kernel's own roots are kept beside them.

The source counts levels from the root, L0 to L3.  A valid descriptor above L3 is a block
or a table by its two low bits; at L3 it is a page.
-/

namespace Praesidium

namespace Aarch64

open Fallible Flags Paging

structure Regs where
  ttbr0 : U64
  ttbr1 : U64
  kernelTtbr0 : U64
  kernelTtbr1 : U64
  hhdmOffset : U64
  deriving DecidableEq, Repr

def Regs.load (space : AddressSpace) (regs : Regs) : Regs :=
  { regs with ttbr0 := space.secondary, ttbr1 := space.primary }

/-! ## Descriptors -/

def ADDR_MASK : U64 := 0x0000fffffffff000
def RAM_BASE : U64 := 0x40000000

def VALID : U64 := 1 <<< 0
def TABLE : U64 := 3
def BLOCK : U64 := 1
def AF : U64 := 1 <<< 10
def SH_INNER : U64 := 3 <<< 8
def ATTR_NORMAL : U64 := 0 <<< 2
def ATTR_DEVICE : U64 := 1 <<< 2
def ATTR_TAGGED : U64 := 2 <<< 2
def AP_RO : U64 := 1 <<< 7
def AP_EL0 : U64 := 1 <<< 6
def PXN : U64 := 1 <<< 53
def UXN : U64 := 1 <<< 54

def pageDesc (pa : U64) (prot : Prot) : U64 :=
  let base := pa ||| AF ||| SH_INNER ||| ATTR_NORMAL ||| TABLE ||| UXN
  match prot with
  | .rx => base ||| AP_RO
  | .ro => base ||| AP_RO ||| PXN
  | .rw => base ||| PXN

def userPageDesc (pa : U64) (prot : Prot) : U64 :=
  let base := pa ||| AF ||| SH_INNER ||| ATTR_NORMAL ||| TABLE ||| AP_EL0 ||| PXN
  match prot with
  | .rx => base ||| AP_RO
  | .ro => base ||| AP_RO ||| UXN
  | .rw => base ||| UXN

/-- Device memory lies below the RAM. -/
def blockDesc (pa : U64) : U64 :=
  if pa < RAM_BASE then pa ||| AF ||| ATTR_DEVICE ||| BLOCK ||| PXN ||| UXN
  else pa ||| AF ||| SH_INNER ||| ATTR_NORMAL ||| BLOCK ||| PXN ||| UXN

/-- The two low bits, which tell a block from a table: `e & 0b11`. -/
def kind (e : U64) : U64 := e &&& 3

def entries : Entries where
  addrMask := ADDR_MASK
  present e := has e VALID
  isLeaf _ e := kind e == BLOCK
  isTable e := has e VALID && kind e == TABLE
  tableBits := TABLE
  block := blockDesc
  page := pageDesc
  split e j := ((e &&& ADDR_MASK &&& ~~~0x1fffff) + BitVec.ofNat 64 j * PAGE) |||
    (e &&& ~~~ADDR_MASK &&& ~~~3) ||| TABLE

/-- Table index at a level counted from the root. -/
def lidx (vaddr : U64) (level : Nat) : Nat := index vaddr (3 - level)

/-! ## Building address spaces -/

def mapLow (l0 : U64) (l0Index : Nat) (bytes : U64) : Prog Regs Unit :=
  Paging.mapLow entries l0 l0Index bytes

def mapKernel (l0 : U64) (km : KernelMap) : Prog Regs Unit := Paging.mapKernel entries l0 km

def buildAddressSpace (km : KernelMap) : Prog Regs AddressSpace := do
  let ttbr0 ← allocTable
  mapLow ttbr0 0 km.identityBytes
  let ttbr1 ← allocTable
  mapLow ttbr1 (lidx km.hhdmOffset 0) km.identityBytes
  mapKernel ttbr1 km
  modify fun m => { m with regs := { m.regs with kernelTtbr0 := ttbr0, kernelTtbr1 := ttbr1 } }
  pure ⟨ttbr1, ttbr0⟩

def newProcessSpace : Prog Regs AddressSpace := do
  let l0 ← cloneWindow entries (← get).regs.kernelTtbr0
  return ⟨(← get).regs.kernelTtbr1, l0⟩

def activateAddressSpace (space : AddressSpace) : Prog Regs Unit :=
  modify fun m => { m with regs := m.regs.load space }

/-! ## Reading the active tables -/

def rootFor (regs : Regs) (vaddr : U64) : U64 :=
  (if has vaddr (1 <<< 63) then regs.ttbr1 else regs.ttbr0) &&& ADDR_MASK

def currentRoot (vaddr : U64) : Prog Regs U64 := do
  return rootFor (← get).regs vaddr

/-- Offset mask of a leaf at a level counted from the root; L0 has no block form. -/
def MASK : Nat → U64
  | 1 => 0x3fffffff
  | 2 => 0x1fffff
  | 3 => 0xfff
  | _ => 0

/-- `for level in 0..4`, with the number of rounds left -/
def walkLoop (mem : Radix.Mem U64) (vaddr : U64) : Nat → U64 → Option (U64 × U64)
  | 0, _ => none
  | n + 1, table =>
    let level := 3 - n
    let e := mem table (lidx vaddr level)
    if has e VALID = false then none
    else if level = 3 then some (e, 0xfff)
    else if kind e = BLOCK then some (e, MASK level)
    else walkLoop mem vaddr n (e &&& ADDR_MASK)

def walk (m : Machine Regs) (vaddr : U64) : Option (U64 × U64) :=
  walkLoop m.mem vaddr 4 (rootFor m.regs vaddr)

def translate (m : Machine Regs) (vaddr : U64) : Option U64 :=
  (walk m vaddr).map fun (leaf, mask) => (leaf &&& ADDR_MASK &&& ~~~mask) + (vaddr &&& mask)

/-- `(writable, executable at EL1)` -/
def pageProt (m : Machine Regs) (vaddr : U64) : Option (Bool × Bool) :=
  (walk m vaddr).map fun (leaf, _) => (!has leaf AP_RO, !has leaf PXN)

/-! ## Editing the active tables -/

def ensureL3Table (v : U64) : Prog Regs U64 := do
  ensureTable entries (← currentRoot v) v

def installGuardPage (vaddr : U64) : Prog Regs Unit := do
  let v := pageAlign vaddr
  let l3 ← ensureL3Table v
  writeEntry l3 (lidx v 3) 0

def mapTagged (vaddr : U64) : Prog Regs Unit := do
  let v := pageAlign vaddr
  let l3 ← ensureL3Table v
  let pa := (← readEntry l3 (lidx v 3)) &&& ADDR_MASK
  writeEntry l3 (lidx v 3) (pa ||| AF ||| SH_INNER ||| ATTR_TAGGED ||| TABLE ||| UXN ||| PXN)

def mapPage (vaddr phys : U64) (prot : Prot) : Prog Regs Unit := do
  let v := pageAlign vaddr
  let l3 ← ensureL3Table v
  writeEntry l3 (lidx v 3) (pageDesc (phys &&& ADDR_MASK) prot)

/-- The leaf that `map_user_page` writes; a page of a domain other than 0 is tagged. -/
def userLeaf (phys : U64) (prot : Prot) (domain : U64) : U64 :=
  let pa := phys &&& ADDR_MASK
  if domain ≠ 0 then (userPageDesc pa prot &&& ~~~(7 <<< 2 : U64)) ||| ATTR_TAGGED
    else userPageDesc pa prot

def mapUserPage (vaddr phys : U64) (prot : Prot) (domain : U64) : Prog Regs Unit := do
  let v := pageAlign vaddr
  let pa := phys &&& ADDR_MASK
  let l3 ← ensureL3Table v
  writeEntry l3 (lidx v 3) (userLeaf phys prot domain)
  if domain ≠ 0 then do
    let hhdm ← okOr (Word.checkedAdd pa (← get).regs.hhdmOffset) .overflow
    mapTagged hhdm
  else pure ()

/-! ## The walk as a radix walk -/

theorem MASK_eq (n : Nat) (hn : n ≤ 3) : MASK (3 - n) = offsetMask n := by
  match n, hn with
  | 0, _ => rfl
  | 1, _ => rfl
  | 2, _ => rfl
  | 3, _ => rfl

/-- Round by round from the last level, where the loop has one round left. -/
theorem walkLoop_eq (mem : Radix.Mem U64) (vaddr : U64) (n : Nat) (hn : n ≤ 3) (table : U64) :
    walkLoop mem vaddr (n + 1) table =
      (Radix.walk entries.format mem (index vaddr) n table).map fun (level, e) =>
        (e, offsetMask level) := by
  induction n generalizing table with
  | zero =>
    have hix : lidx vaddr 3 = index vaddr 0 := rfl
    simp only [walkLoop, Radix.walk, Entries.format, entries, Nat.sub_zero, hix]
    split
    · next h => simp [h]
    · next h => simp [h, offsetMask]
  | succ n ih =>
    have hix : lidx vaddr (3 - (n + 1)) = index vaddr (n + 1) := by
      unfold lidx
      congr 1
      omega
    have hlevel : 3 - (n + 1) ≠ 3 := by omega
    rw [walkLoop, Radix.walk]
    simp only [hix, if_neg hlevel, Entries.format, entries, ih (by omega), MASK_eq (n + 1) hn]
    split
    · next h => simp [h]
    · next h =>
      split
      · next h' => simp [h, h']
      · next h' => simp [h, h']

theorem walk_eq (m : Machine Regs) (vaddr : U64) :
    walk m vaddr = entries.walkFrom m.mem (rootFor m.regs vaddr) vaddr :=
  walkLoop_eq m.mem vaddr 3 (by decide) _

/-! ## The descriptors are lawful -/

theorem kind_or (a b : U64) : kind (a ||| b) = kind a ||| kind b := or_and a b 3

theorem kind_frame {f : U64} (hf : entries.IsFrame f) : kind f = 0 := by
  have mask : ADDR_MASK &&& 3 = 0 := by decide
  have hf' : f &&& ADDR_MASK = f := hf
  unfold kind
  rw [← hf', BitVec.and_assoc, mask]
  exact BitVec.and_zero

theorem kind_moved {f : U64} (e : U64) (hf : entries.IsFrame f) :
    kind (entries.moved f e) = kind e := by
  show kind (f ||| (e &&& ~~~ADDR_MASK)) = kind e
  have mask : ~~~ADDR_MASK &&& 3 = 3 := by decide
  rw [kind_or, kind_frame hf]
  unfold kind
  rw [BitVec.and_assoc, mask]
  exact BitVec.zero_or

/-- A valid descriptor is a block or a table. -/
theorem kind_valid {e : U64} (h : has e VALID = true) : kind e = BLOCK ∨ kind e = TABLE := by
  have low : e &&& VALID = kind e &&& VALID := by
    have mask : (3 : U64) &&& VALID = VALID := by decide
    unfold kind
    rw [BitVec.and_assoc, mask]
  have hk : kind e &&& VALID ≠ 0 := by
    rw [← low]
    exact bne_iff_ne.mp h
  have hlt : (kind e).toNat < 4 := by
    unfold kind
    rw [BitVec.toNat_and]
    exact Nat.lt_of_le_of_lt Nat.and_le_right (by decide)
  have cases4 : ∀ n < 4, BitVec.ofNat 64 n &&& VALID ≠ 0 → BitVec.ofNat 64 n = BLOCK ∨
    BitVec.ofNat 64 n = TABLE := by
    decide
  have := cases4 (kind e).toNat hlt
  rw [BitVec.ofNat_toNat, BitVec.setWidth_eq] at this
  exact this hk

/-- A split keeps every attribute but the two low bits. -/
theorem has_split {c : U64} (e : U64) {j : Nat} (hj : j < 512) (hc : c &&& ADDR_MASK = 0)
    (hc' : c &&& (~~~ADDR_MASK &&& ~~~3) = c) (ht : has TABLE c = false) :
    has (entries.split e j) c = has e c := by
  show has (((e &&& ADDR_MASK &&& ~~~0x1fffff) + BitVec.ofNat 64 j * PAGE) |||
    (e &&& ~~~ADDR_MASK &&& ~~~3) ||| TABLE) c = has e c
  have frame : entries.IsFrame ((e &&& ADDR_MASK &&& ~~~0x1fffff) + BitVec.ofNat 64 j * PAGE) :=
    splitAddr_frame (by decide) e hj
  rw [has_or, has_or, Entries.has_frame frame hc, BitVec.and_assoc, has_keep e hc', Bool.false_or,
    ht, Bool.or_false]

theorem lawful : entries.Lawful where
  present_zero := has_zero VALID
  tableBits_mask := by decide
  present_table f _ := by
    show has (f ||| TABLE) VALID = true
    exact has_or_right f (by decide)
  isLeaf_table n f hf := by
    show (kind (f ||| TABLE) == BLOCK) = false
    rw [kind_or, kind_frame hf]
    decide
  present_moved f e hf := Entries.has_moved e hf (by decide) (by decide)
  isLeaf_moved n f e hf := by
    show (kind (entries.moved f e) == BLOCK) = (kind e == BLOCK)
    rw [kind_moved e hf]
  isTable_eq n e _ := by
    show (has e VALID && kind e == TABLE) = (has e VALID && !(kind e == BLOCK))
    by_cases h : has e VALID = true
    · rcases kind_valid h with hk | hk
      · rw [h, hk]; decide
      · rw [h, hk]; decide
    · rw [eq_false_of_ne_true h]; rfl

end Aarch64

end Praesidium
