import Praesidium.Kernel.PagingTyped

/-!
The x86-64 backend (`kernel/src/arch/x86_64/paging.rs`): a single PML4 root in `cr3`,
the kernel's own root kept in `KERNEL_PML4`.

An entry at any level above the last with `HUGE` maps memory itself, except in the PML4.
Ring 3 reaches a page only through entries that all have `USER`.
-/

namespace Praesidium

namespace X86

open Fallible Flags Paging

structure Regs where
  cr3 : U64
  kernelPml4 : U64
  deriving DecidableEq, Repr

def Regs.load (space : AddressSpace) (regs : Regs) : Regs := { regs with cr3 := space.primary }

/-! ## Entries -/

def PRESENT : U64 := 1 <<< 0
def WRITABLE : U64 := 1 <<< 1
def USER : U64 := 1 <<< 2
def HUGE : U64 := 1 <<< 7
def NX : U64 := 1 <<< 63
def ADDR_MASK : U64 := 0x000ffffffffff000

def leafBits : Prot → U64
  | .rx => PRESENT
  | .ro => PRESENT ||| NX
  | .rw => PRESENT ||| WRITABLE ||| NX

/-- The protection key of a page, in bits 59 to 62. -/
def pkeyBits (pkey : U64) : U64 := (pkey &&& 0xf) <<< 59

def entries : Entries where
  addrMask := ADDR_MASK
  present e := has e PRESENT
  isLeaf level e := level != 3 && has e HUGE
  isTable e := has e PRESENT && !has e HUGE
  tableBits := PRESENT ||| WRITABLE
  block pa := pa ||| PRESENT ||| WRITABLE ||| HUGE ||| NX
  page pa prot := pa ||| leafBits prot
  split e j := ((e &&& ADDR_MASK &&& ~~~0x1fffff) + BitVec.ofNat 64 j * PAGE) |||
    (e &&& ~~~ADDR_MASK &&& ~~~HUGE)

def idx (vaddr : U64) (level : Nat) : Nat := index vaddr level

/-! ## Building address spaces -/

def mapLow (pml4 : U64) (pml4Index : Nat) (bytes : U64) : Prog Regs Unit :=
  Paging.mapLow entries pml4 pml4Index bytes

def mapKernel (pml4 : U64) (km : KernelMap) : Prog Regs Unit := Paging.mapKernel entries pml4 km

def buildAddressSpace (km : KernelMap) : Prog Regs AddressSpace := do
  let pml4 ← allocTable
  mapLow pml4 0 km.identityBytes
  mapLow pml4 (idx km.hhdmOffset 3) km.identityBytes
  mapKernel pml4 km
  modify fun m => { m with regs := { m.regs with kernelPml4 := pml4 } }
  pure ⟨pml4, 0⟩

def kernelSpace (m : Machine Regs) : AddressSpace := ⟨m.regs.kernelPml4, 0⟩

def newProcessSpace : Prog Regs AddressSpace := do
  let pml4 ← cloneWindow entries (← get).regs.kernelPml4
  pure ⟨pml4, 0⟩

def activateAddressSpace (space : AddressSpace) : Prog Regs Unit :=
  modify fun m => { m with regs := m.regs.load space }

/-! ## Reading the active tables -/

def currentPml4 : Prog Regs U64 := do
  return (← get).regs.cr3 &&& ADDR_MASK

/-- `walk`, from a given root -/
def walkFrom (mem : Radix.Mem U64) (pml4 vaddr : U64) : Option (U64 × U64) :=
  let e4 := mem pml4 (idx vaddr 3)
  if has e4 PRESENT = false then none
  else
    let e3 := mem (e4 &&& ADDR_MASK) (idx vaddr 2)
    if has e3 PRESENT = false then none
    else if has e3 HUGE then some (e3, 0x3fffffff)
    else
      let e2 := mem (e3 &&& ADDR_MASK) (idx vaddr 1)
      if has e2 PRESENT = false then none
      else if has e2 HUGE then some (e2, 0x1fffff)
      else
        let e1 := mem (e2 &&& ADDR_MASK) (idx vaddr 0)
        if has e1 PRESENT = false then none else some (e1, 0xfff)

def walk (m : Machine Regs) (vaddr : U64) : Option (U64 × U64) :=
  walkFrom m.mem (m.regs.cr3 &&& ADDR_MASK) vaddr

def translate (m : Machine Regs) (vaddr : U64) : Option U64 :=
  (walk m vaddr).map fun (leaf, mask) => (leaf &&& ADDR_MASK &&& ~~~mask) + (vaddr &&& mask)

/-- `(writable, executable)` -/
def pageProt (m : Machine Regs) (vaddr : U64) : Option (Bool × Bool) :=
  (walk m vaddr).map fun (leaf, _) => (has leaf WRITABLE, !has leaf NX)

/-! ## Editing the active tables -/

def ensurePt (v : U64) : Prog Regs U64 := do
  ensureTable entries (← currentPml4) v

def installGuardPage (vaddr : U64) : Prog Regs Unit := do
  let v := pageAlign vaddr
  let pt ← ensurePt v
  writeEntry pt (idx v 0) 0

def mapPage (vaddr phys : U64) (prot : Prot) : Prog Regs Unit := do
  let v := pageAlign vaddr
  let pt ← ensurePt v
  writeEntry pt (idx v 0) ((phys &&& ADDR_MASK) ||| leafBits prot)

/-- `if e & USER == 0 { write_entry(table, i, e | USER) }` -/
def grantUser (table : U64) (i : Nat) (e : U64) : Prog Regs Unit :=
  if has e USER then pure () else writeEntry table i (e ||| USER)

def ensurePtUser (v : U64) : Prog Regs U64 := do
  let pml4 ← currentPml4
  let e4 ← readEntry pml4 (idx v 3)
  assertThat (has e4 PRESENT)
  grantUser pml4 (idx v 3) e4
  let pdpt := e4 &&& ADDR_MASK
  let e3 ← readEntry pdpt (idx v 2)
  assertThat (has e3 PRESENT && !has e3 HUGE)
  grantUser pdpt (idx v 2) e3
  let pd := e3 &&& ADDR_MASK
  let e2 ← readEntry pd (idx v 1)
  assertThat (has e2 PRESENT)
  if has e2 HUGE then do
    let pt ← allocTable
    writeTable pt (entries.split e2)
    writeEntry pd (idx v 1) (pt ||| PRESENT ||| WRITABLE ||| USER)
    pure pt
  else do
    grantUser pd (idx v 1) e2
    pure (e2 &&& ADDR_MASK)

/-- The leaf that `map_user_page` writes. -/
def userLeaf (phys : U64) (prot : Prot) (domain : U64) : U64 :=
  (phys &&& ADDR_MASK) ||| leafBits prot ||| USER ||| pkeyBits domain

def mapUserPage (vaddr phys : U64) (prot : Prot) (domain : U64) : Prog Regs Unit := do
  let v := pageAlign vaddr
  let pt ← ensurePtUser v
  writeEntry pt (idx v 0) (userLeaf phys prot domain)

/-- The victim's page table: the 2 MiB leaf `e2` split, or a copy of the table it leads to. -/
def victimTable (e2 : U64) : Prog Regs U64 :=
  if has e2 HUGE then do
    let pt ← allocTable
    writeTable pt (entries.split e2)
    pure pt
  else cloneTable (e2 &&& ADDR_MASK)

def buildDomainExcluding (victimVaddr : U64) : Prog Regs U64 := do
  let v := pageAlign victimVaddr
  let origPml4 ← currentPml4
  let newPml4 ← cloneTable origPml4
  let e4 ← readEntry origPml4 (idx v 3)
  assertThat (has e4 PRESENT)
  let newPdpt ← cloneTable (e4 &&& ADDR_MASK)
  writeEntry newPml4 (idx v 3) (newPdpt ||| (e4 &&& ~~~ADDR_MASK))
  let e3 ← readEntry (e4 &&& ADDR_MASK) (idx v 2)
  assertThat (has e3 PRESENT && !has e3 HUGE)
  let newPd ← cloneTable (e3 &&& ADDR_MASK)
  writeEntry newPdpt (idx v 2) (newPd ||| (e3 &&& ~~~ADDR_MASK))
  let e2 ← readEntry (e3 &&& ADDR_MASK) (idx v 1)
  assertThat (has e2 PRESENT)
  let newPt ← victimTable e2
  writeEntry newPd (idx v 1) (newPt ||| PRESENT ||| WRITABLE)
  writeEntry newPt (idx v 0) 0
  pure newPml4

/-! ## The walk as a radix walk -/

theorem walkFrom_eq (mem : Radix.Mem U64) (pml4 vaddr : U64) :
    walkFrom mem pml4 vaddr = entries.walkFrom mem pml4 vaddr := by
  unfold walkFrom Entries.walkFrom idx
  simp only [Radix.walk, Entries.format, entries, Nat.reduceAdd]
  split
  · next h4 => simp [h4]
  · next h4 =>
    split
    · next h3 => simp [h4, h3]
    · next h3 =>
      split
      · next h3' => simp [h4, h3, h3', offsetMask]
      · next h3' =>
        split
        · next h2 => simp [h4, h3, h3', h2]
        · next h2 =>
          split
          · next h2' => simp [h4, h3, h3', h2, h2', offsetMask]
          · next h2' =>
            split
            · next h1 => simp [h4, h3, h3', h2, h2', h1]
            · next h1 => simp [h4, h3, h3', h2, h2', h1, offsetMask]

/-! ## The entries are lawful -/

variable {c : U64}

/-- A split keeps every flag but `HUGE`. -/
theorem has_split (e : U64) {j : Nat} (hj : j < 512) (hc : c &&& ADDR_MASK = 0)
    (hc' : c &&& (~~~ADDR_MASK &&& ~~~HUGE) = c) : has (entries.split e j) c = has e c := by
  show has (((e &&& ADDR_MASK &&& ~~~0x1fffff) + BitVec.ofNat 64 j * PAGE) |||
    (e &&& ~~~ADDR_MASK &&& ~~~HUGE)) c = has e c
  have frame : entries.IsFrame ((e &&& ADDR_MASK &&& ~~~0x1fffff) + BitVec.ofNat 64 j * PAGE) :=
    splitAddr_frame (by decide) e hj
  rw [has_or, Entries.has_frame frame hc, BitVec.and_assoc, has_keep e hc', Bool.false_or]

theorem lawful : entries.Lawful where
  present_zero := has_zero PRESENT
  tableBits_mask := by decide
  present_table f _ := by
    show has (f ||| (PRESENT ||| WRITABLE)) PRESENT = true
    exact has_or_right f (by decide)
  isLeaf_table n f hf := by
    show (n != 3 && has (f ||| (PRESENT ||| WRITABLE)) HUGE) = false
    have bits : has (PRESENT ||| WRITABLE) HUGE = false := by decide
    rw [has_or, Entries.has_frame hf (by decide), bits, Bool.or_false, Bool.and_false]
  present_moved f e hf := Entries.has_moved e hf (by decide) (by decide)
  isLeaf_moved n f e hf := by
    show (n != 3 && has (entries.moved f e) HUGE) = (n != 3 && has e HUGE)
    rw [Entries.has_moved e hf (by decide) (by decide)]
  isTable_eq n e hn := by
    show (has e PRESENT && !has e HUGE) = (has e PRESENT && !(n != 3 && has e HUGE))
    have hn3 : (n != 3) = true := by
      rcases hn with rfl | rfl
      · rfl
      · rfl
    rw [hn3, Bool.true_and]

/-- The key bits are clear of all other flags. -/
theorem has_pkeyBits (hc : ∀ n < 16, has (BitVec.ofNat 64 n <<< 59) c = false) (domain : U64) :
    has (pkeyBits domain) c = false := by
  have hlt : (domain &&& 0xf).toNat < 16 := by
    rw [BitVec.toNat_and]
    exact Nat.lt_of_le_of_lt Nat.and_le_right (by decide)
  have h := hc _ hlt
  rw [BitVec.ofNat_toNat, BitVec.setWidth_eq] at h
  exact h

/-- A page for ring 3 has the flags of its protection. -/
theorem has_userLeaf (phys : U64) (prot : Prot) (domain : U64) (hc : c &&& ADDR_MASK = 0)
    (hu : has USER c = false) (hk : ∀ n < 16, has (BitVec.ofNat 64 n <<< 59) c = false) :
    has (userLeaf phys prot domain) c = has (leafBits prot) c := by
  unfold userLeaf
  rw [has_or, has_or, has_or, has_drop phys hc, hu, has_pkeyBits hk, Bool.false_or, Bool.or_false,
    Bool.or_false]

/-- It leads to its frame. -/
theorem userLeaf_frame (phys : U64) (prot : Prot) (domain : U64) :
    userLeaf phys prot domain &&& ADDR_MASK = phys &&& ADDR_MASK := by
  have bits : leafBits prot &&& ADDR_MASK = 0 := by
    decide +revert
  have user : USER &&& ADDR_MASK = 0 := by decide
  have key : pkeyBits domain &&& ADDR_MASK = 0 :=
    (has_eq_false _ _).mp (has_pkeyBits (by decide) domain)
  unfold userLeaf
  rw [or_and, key, or_and, user, or_and_of_masked (and_and_self phys ADDR_MASK) bits]
  simp

end X86

end Praesidium
