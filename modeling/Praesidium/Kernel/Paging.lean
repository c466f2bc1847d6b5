import Praesidium.Kernel.Arch
import Praesidium.Lib.Fallible
import Praesidium.Lib.Radix

/-!
Four-level page tables, as both backends build and edit them
(`kernel/src/arch/x86_64/paging.rs`, `kernel/src/arch/aarch64/paging.rs`).

Table memory maps a frame and an index below 512 to an entry; `supply` holds the frames
that `alloc_zeroed_frame` hands out next, in order.  A table is reached through the direct
map, so it is named by its physical address.  A program returns or halts: out of frames, a
failed assertion, an overflow.

The two backends share the text of these functions up to how an entry is written, which
is what `Entries` holds.  Levels count from the last table: 0 is the table of 4 KiB
pages, 3 the root.  TLB maintenance and barriers have no effect on the tables.
-/

namespace Praesidium

namespace Paging

open Fallible

/-! ## State -/

structure Machine (R : Type) where
  mem : Radix.Mem U64
  supply : List U64
  regs : R

inductive Halt where
  | outOfFrames
  | assertion
  | overflow
  deriving DecidableEq, Repr

abbrev Prog (R α : Type) := EStateM Halt (Machine R) α

/-- How a backend writes and reads an entry. -/
structure Entries where
  addrMask : U64
  present : U64 → Bool
  /-- at a level above the last, a present entry that maps memory itself -/
  isLeaf : Nat → U64 → Bool
  /-- a present entry below the root that leads to a table -/
  isTable : U64 → Bool
  /-- the flags of an entry that leads to a table -/
  tableBits : U64
  /-- the 2 MiB leaf of the low physical map -/
  block : U64 → U64
  /-- a 4 KiB kernel leaf -/
  page : U64 → Prot → U64
  /-- entry `j` of the table that a 2 MiB leaf is split into -/
  split : U64 → Nat → U64

def Entries.format (d : Entries) : Radix.Format U64 where
  present := d.present
  isLeaf := d.isLeaf
  next e := e &&& d.addrMask

def PAGE : U64 := 4096
def GIB : Nat := 0x40000000

/-- Table index of `v` at a level. -/
def index (v : U64) (level : Nat) : Nat := ((v >>> (12 + 9 * level)) &&& 0x1ff).toNat

def pageAlign (v : U64) : U64 := v &&& ~~~0xfff

/-! ## Programs -/

section

variable {R : Type}

-- The loops over a whole table are irreducible: they are used by their rules, not run.

/-- `assert!` -/
def assertThat (b : Bool) : Prog R Unit := refuseIf (b = false) .assertion

def allocTable : Prog R U64 := do
  match (← get).supply with
  | [] => throw .outOfFrames
  | f :: rest =>
    modify fun m => { m with mem := m.mem.fill f fun _ => 0, supply := rest }
    pure f

def readEntry (table : U64) (i : Nat) : Prog R U64 := do
  return (← get).mem table i

def writeEntry (table : U64) (i : Nat) (value : U64) : Prog R Unit :=
  modify fun m => { m with mem := m.mem.set table i value }

/-- `for j in 0..512 { write_entry(table, j, value(j)) }` -/
@[irreducible] def writeTable (table : U64) (value : Nat → U64) : Prog R Unit :=
  forRange (fun j => writeEntry table j (value j)) 512

@[irreducible] def cloneTable (orig : U64) : Prog R U64 := do
  let new ← allocTable
  forRange (fun i => do writeEntry new i (← readEntry orig i)) 512
  pure new

/-- `[0, bytes)` of physical memory under entry `i` of the root, in 2 MiB leaves. -/
def mapLow (d : Entries) (root : U64) (i : Nat) (bytes : U64) : Prog R Unit := do
  let pdpt ← allocTable
  writeEntry root i (pdpt ||| d.tableBits)
  forRange (fun g => do
    let pd ← allocTable
    writeEntry pdpt g (pd ||| d.tableBits)
    writeTable pd fun j => d.block (BitVec.ofNat 64 g <<< 30 ||| BitVec.ofNat 64 j <<< 21))
    ((bytes.toNat + GIB - 1) / GIB)

def sectionProt (km : KernelMap) (v : U64) : Prot :=
  if km.text.1 ≤ v ∧ v < km.text.2 then .rx
  else if km.data.1 ≤ v ∧ v < km.data.2 then .rw
  else .ro

/-- The rounds of `while v < kernel_vend { .. v += PAGE }` from `kernel_vbase`. -/
def imagePages (km : KernelMap) : Nat := (km.kernelVend.toNat - km.kernelVbase.toNat + 4095) / 4096

/-- One round of that loop, at `v = kernel_vbase + k * PAGE`. -/
def mapImagePage (d : Entries) (km : KernelMap) (pt : U64) (k : Nat) : Prog R Unit := do
  let v := km.kernelVbase + BitVec.ofNat 64 k * PAGE
  let pa ← okOr (Word.checkedAdd km.kernelPhys (v - km.kernelVbase)) .overflow
  writeEntry pt (index v 0) (d.page pa (sectionProt km v))
  let _ ← okOr (Word.checkedAdd v PAGE) .overflow
  pure ()

def mapKernel (d : Entries) (root : U64) (km : KernelMap) : Prog R Unit := do
  let pdpt ← allocTable
  writeEntry root (index km.kernelVbase 3) (pdpt ||| d.tableBits)
  let pd ← allocTable
  writeEntry pdpt (index km.kernelVbase 2) (pd ||| d.tableBits)
  let pt ← allocTable
  writeEntry pd (index km.kernelVbase 1) (pt ||| d.tableBits)
  forRange (mapImagePage d km pt) (imagePages km)

/-- Give entry `i` of the copied window table `pd` a table of its own. -/
def privatise (d : Entries) (pd : U64) (i : Nat) : Prog R Unit := do
  let e ← readEntry pd i
  if d.isTable e then do
    let priv ← cloneTable (e &&& d.addrMask)
    writeEntry pd i (priv ||| (e &&& ~~~d.addrMask))
  else pure ()

@[irreducible] def privatiseAll (d : Entries) (pd : U64) : Prog R Unit :=
  forRange (privatise d pd) 512

/-- A copy of the root `kbase` with tables of its own for `[1 GiB, 2 GiB)`. -/
def cloneWindow (d : Entries) (kbase : U64) : Prog R U64 := do
  let root ← cloneTable kbase
  let e0 ← readEntry kbase 0
  let pdpt ← cloneTable (e0 &&& d.addrMask)
  writeEntry root 0 (pdpt ||| (e0 &&& ~~~d.addrMask))
  let e1 ← readEntry (e0 &&& d.addrMask) 1
  let pd ← cloneTable (e1 &&& d.addrMask)
  writeEntry pdpt 1 (pd ||| (e1 &&& ~~~d.addrMask))
  privatiseAll d pd
  pure root

/-- The table of 4 KiB pages for `v`; a 2 MiB leaf in its place is split first. -/
def ensureTable (d : Entries) (root v : U64) : Prog R U64 := do
  let e4 ← readEntry root (index v 3)
  assertThat (d.present e4)
  let e3 ← readEntry (e4 &&& d.addrMask) (index v 2)
  assertThat (d.isTable e3)
  let pd := e3 &&& d.addrMask
  let e2 ← readEntry pd (index v 1)
  assertThat (d.present e2)
  if d.isLeaf 1 e2 then do
    let pt ← allocTable
    writeTable pt (d.split e2)
    writeEntry pd (index v 1) (pt ||| d.tableBits)
    pure pt
  else pure (e2 &&& d.addrMask)

end

/-! ## Walks -/

/-- The low bits of an address that a leaf at a level leaves alone. -/
def offsetMask : Nat → U64
  | 0 => 0xfff
  | 1 => 0x1fffff
  | 2 => 0x3fffffff
  | _ => 0

def Entries.walkFrom (d : Entries) (mem : Radix.Mem U64) (root v : U64) : Option (U64 × U64) :=
  (Radix.walk d.format mem (index v) 3 root).map fun (level, e) => (e, offsetMask level)

/-! ## What the small programs do -/

section

variable {R : Type} {m : Machine R} {E : Halt → Machine R → Prop}

theorem index_lt (v : U64) (level : Nat) : index v level < 512 := by
  unfold index
  rw [BitVec.toNat_and]
  exact Nat.lt_of_le_of_lt Nat.and_le_right (by decide)

/-- A table whose first 512 entries are given. -/
def full (value : Nat → U64) : Nat → U64 := fun i => if i < 512 then value i else 0

variable {i : Nat} {Q : Unit → Machine R → Prop}

theorem full_of_lt (value : Nat → U64) (hi : i < 512) : full value i = value i := if_pos hi

/-- One entry of a table replaced. -/
theorem update_full (value : Nat → U64) (k : Nat) (e : U64) (hi : i < 512) :
    Function.update (full value) k e i = Function.update value k e i := by
  by_cases h : i = k
  · subst h
    rw [Function.update_self, Function.update_self]
  · rw [Function.update_of_ne h, Function.update_of_ne h, full_of_lt _ hi]

theorem ends_assertThat (b : Bool) :
    Ends (assertThat b : Prog R Unit) m Q E ↔ (b = false → E .assertion m) ∧
      (b = true → Q () m) := by
  unfold assertThat
  rw [ends_refuseIf, Bool.not_eq_false]

theorem ends_allocTable {Q : U64 → Machine R → Prop} :
    Ends (allocTable : Prog R U64) m Q E ↔
      (m.supply = [] → E .outOfFrames m) ∧
      ∀ f rest, m.supply = f :: rest →
        Q f { m with mem := m.mem.fill f fun _ => 0, supply := rest } := by
  unfold allocTable
  rw [ends_bind, ends_get]
  cases hs : m.supply with
  | nil => rw [ends_throw]; simp
  | cons f rest =>
    rw [ends_bind, ends_modify, ends_pure]
    constructor
    · intro h
      refine ⟨fun hc => (by cases hc), fun f' rest' hc => ?_⟩
      cases hc
      exact h
    · intro h
      exact h.2 f rest rfl

theorem ends_readEntry {Q : U64 → Machine R → Prop} (t : U64) (i : Nat) :
    Ends (readEntry t i : Prog R U64) m Q E ↔ Q (m.mem t i) m := Iff.rfl

theorem ends_writeEntry (t : U64) (i : Nat) (e : U64) :
    Ends (writeEntry t i e : Prog R Unit) m Q E ↔ Q () { m with mem := m.mem.set t i e } := Iff.rfl

/-- A loop that writes the entries of `t` from the first on.  What it writes is read before
the entry is overwritten. -/
theorem tableLoop_run (t : U64) (body : Nat → Prog R Unit) (value : Nat → U64)
    (hbody : ∀ n,
      body n { m with mem := m.mem.fill t fun i => if i < n then value i else m.mem t i } = .ok ()
      { m with mem := (m.mem.fill t fun i => if i < n then value i else m.mem t i).set t n (value n) })
    (n : Nat) :
    forRange body n m = .ok ()
      { m with mem := m.mem.fill t fun i => if i < n then value i else m.mem t i } := by
  induction n with
  | zero =>
    have same : (m.mem.fill t fun i => if i < 0 then value i else m.mem t i) = m.mem := by
      funext t' i
      by_cases h : t' = t
      · subst h; rw [Radix.Mem.fill_self, if_neg (Nat.not_lt_zero i)]
      · rw [Radix.Mem.fill_ne _ h]
    rw [same]
    rfl
  | succ n ih =>
    show EStateM.bind _ _ m = _
    unfold EStateM.bind
    rw [ih, ← Radix.Mem.set_fill]
    exact hbody n

theorem ends_writeTable (t : U64) (value : Nat → U64) :
    Ends (writeTable t value : Prog R Unit) m Q E ↔
      Q () { m with mem := m.mem.fill t fun i => if i < 512 then value i else m.mem t i } := by
  unfold writeTable Ends
  rw [tableLoop_run t _ value fun n => rfl]

theorem ends_cloneTable {Q : U64 → Machine R → Prop} (orig : U64) :
    Ends (cloneTable orig : Prog R U64) m Q E ↔
      (m.supply = [] → E .outOfFrames m) ∧
      ∀ f rest, m.supply = f :: rest →
        Q f { m with mem := m.mem.fill f (full (m.mem.fill f (fun _ => 0) orig)), supply := rest } := by
  unfold cloneTable
  rw [ends_bind, ends_allocTable]
  refine and_congr_right fun _ => forall_congr' fun f => forall_congr' fun rest =>
    imp_congr_right fun _ => ?_
  rw [ends_bind]
  have copied : ∀ m : Machine R, forRange (fun i => do writeEntry f i (← readEntry orig i)) 512 m =
      .ok () { m with mem := m.mem.fill f fun i => if i < 512 then m.mem orig i else m.mem f i } :=
        fun m => by
    refine tableLoop_run f _ _ (fun n => ?_) 512
    have read : (m.mem.fill f fun i => if i < n then m.mem orig i else m.mem f i) orig n =
      m.mem orig n := by
      by_cases h : orig = f
      · subst h; rw [Radix.Mem.fill_self, if_neg (Nat.lt_irrefl n)]
      · rw [Radix.Mem.fill_ne _ h]
    conv_rhs => rw [← read]
    rfl
  unfold Ends
  rw [copied]
  show Q f _ ↔ Q f _
  simp only [Radix.Mem.fill_fill, Radix.Mem.fill_self]
  exact Iff.rfl

end

end Paging

end Praesidium
