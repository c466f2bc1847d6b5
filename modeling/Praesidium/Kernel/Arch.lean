import Praesidium.CapCore.Cap

/-!
What the rest of the kernel sees of an architecture backend, and physical frames
(`kernel/src/arch/mod.rs`, `mem/src/frame.rs`).
-/

namespace Praesidium

/-- Memory protection; there is no writable and executable one. -/
inductive Prot where
  | ro
  | rw
  | rx
  deriving DecidableEq, Repr

instance {P : Prot → Prop} [DecidablePred P] : Decidable (∀ prot, P prot) :=
  decidable_of_iff (P .ro ∧ P .rw ∧ P .rx)
    ⟨fun h prot => by cases prot <;> simp only [h], fun h => ⟨h _, h _, h _⟩⟩

/-- The address space the kernel builds for itself.  The sections are half-open ranges. -/
structure KernelMap where
  hhdmOffset : U64
  identityBytes : U64
  kernelVbase : U64
  kernelVend : U64
  kernelPhys : U64
  text : U64 × U64
  rodata : U64 × U64
  data : U64 × U64
  deriving DecidableEq, Repr

/-- The roots of an address space; a backend with a single root leaves `secondary` 0. -/
structure AddressSpace where
  primary : U64
  secondary : U64
  deriving DecidableEq, Repr

def PAGE_SIZE : Nat := 4096

/-- The physical address of a frame number. -/
def pfnToPhys (pfn : U32) : U64 := pfn.setWidth 64 <<< 12

theorem pfnToPhys_toNat (pfn : U32) : (pfnToPhys pfn).toNat = pfn.toNat * PAGE_SIZE := by
  unfold pfnToPhys PAGE_SIZE
  have h := pfn.isLt
  rw [BitVec.toNat_shiftLeft, BitVec.toNat_setWidth, Nat.shiftLeft_eq, Nat.mod_eq_of_lt (by omega),
    Nat.mod_eq_of_lt (by omega)]

end Praesidium
