import Praesidium.Kernel.PagingArm
import Praesidium.Kernel.PagingX86
import Praesidium.Lib.Run

/-!
The address-space seam: what the kernel asks of a paging backend, and the runs it makes.

A `Backend` is one of the two architectures.  `Boots` is `setup_kernel_paging`: build the
kernel's own space and switch to it.  From there a step is one call of the seam, made with
some space active; the event records which.  The spaces built so far are kept beside the
machine, and only they are ever activated.
-/

namespace Praesidium

open Fallible Paging

/-- A call that edits tables builds no space. -/
theorem Paging.ends_edit {R : Type} {p : Prog R Unit} {m : Machine R} {Q : Unit → Machine R → Prop}
    {E : Halt → Machine R → Prop} (hp : Ends p m Q E) :
    Ends (do p; pure (none : Option AddressSpace)) m (fun made m' => made = none ∧ Q () m') E := by
  rw [ends_bind]
  refine hp.imp_ok fun _ m' hQ => ?_
  rw [ends_pure]
  exact ⟨rfl, hQ⟩

namespace VSpace

inductive Call where
  | activate (space : AddressSpace)
  | newProcessSpace
  | mapPage (vaddr phys : U64) (prot : Prot)
  | mapUserPage (vaddr phys : U64) (prot : Prot) (domain : U64)
  | installGuardPage (vaddr : U64)
  /-- `build_domain_excluding` on x86-64, `map_tagged` on aarch64 -/
  | isolate (vaddr : U64)
  deriving DecidableEq, Repr

structure Event where
  active : AddressSpace
  call : Call
  deriving DecidableEq, Repr

structure Backend where
  Regs : Type
  entries : Entries
  build : KernelMap → Prog Regs AddressSpace
  /-- a call; the space it built, if any -/
  exec : Call → Prog Regs (Option AddressSpace)
  load : AddressSpace → Regs → Regs
  active : Regs → AddressSpace
  walk : Machine Regs → U64 → Option (U64 × U64)
  writable : U64 → Bool
  executable : U64 → Bool

namespace Backend

variable (b : Backend)

/-- `walk` with `space` active -/
def walkIn (m : Machine b.Regs) (space : AddressSpace) (vaddr : U64) : Option (U64 × U64) :=
  b.walk { m with regs := b.load space m.regs } vaddr

structure State where
  machine : Machine b.Regs
  spaces : List AddressSpace

/-- `setup_kernel_paging` -/
def setup (km : KernelMap) : Prog b.Regs AddressSpace := do
  let space ← b.build km
  let _ ← b.exec (.activate space)
  pure space

/-- The frames to be allocated are page frames, each once. -/
structure Supplied (m : Machine b.Regs) : Prop where
  nodup : m.supply.Nodup
  frame : ∀ f ∈ m.supply, b.entries.IsFrame f

def Boots (km : KernelMap) (m : Machine b.Regs) (s : b.State) : Prop :=
  ∃ space m', b.setup km m = .ok space m' ∧ s = ⟨m', [space]⟩

theorem boots_of_build {b : Backend} {km : KernelMap} {m m₁ m₂ : Machine b.Regs}
    {space : AddressSpace} {made : Option AddressSpace} (hbuild : b.build km m = .ok space m₁)
    (hactivate : b.exec (.activate space) m₁ = .ok made m₂) : b.Boots km m ⟨m₂, [space]⟩ := by
  refine ⟨space, m₂, ?_, rfl⟩
  unfold setup
  simp only [bind, EStateM.bind, hbuild, hactivate]
  rfl

def Step (s : b.State) (ev : Event) (t : b.State) : Prop :=
  ev.active = b.active s.machine.regs ∧ (∀ space, ev.call = .activate space → space ∈ s.spaces) ∧
    ∃ made m', b.exec ev.call s.machine = .ok made m' ∧ t = ⟨m', made.toList ++ s.spaces⟩

end Backend

end VSpace

open VSpace

/-- The maps `setup_kernel_paging` goes on with. -/
structure KernelMap.Admitted (km : KernelMap) : Prop where
  identity : km.identityBytes = 0x100000000
  aligned : km.kernelVbase.toNat % 0x200000 = 0
  ordered : km.kernelVbase ≤ km.kernelVend
  fits : km.kernelVend.toNat - km.kernelVbase.toNat ≤ 0x200000
  phys : km.kernelPhys.toNat % 4096 = 0

/-! ## The backends -/

namespace X86

def exec : VSpace.Call → Prog Regs (Option AddressSpace)
  | .activate space => do activateAddressSpace space; pure none
  | .newProcessSpace => do return some (← newProcessSpace)
  | .mapPage vaddr phys prot => do mapPage vaddr phys prot; pure none
  | .mapUserPage vaddr phys prot domain => do mapUserPage vaddr phys prot domain; pure none
  | .installGuardPage vaddr => do installGuardPage vaddr; pure none
  | .isolate vaddr => do return some ⟨← buildDomainExcluding vaddr, 0⟩

theorem ends_newProcessSpace {m : Machine Regs} {Q : Option AddressSpace → Machine Regs → Prop}
    {E : Paging.Halt → Machine Regs → Prop}
    (h : Ends (cloneWindow entries m.regs.kernelPml4) m (fun root => Q (some ⟨root, 0⟩)) E) :
    Ends (exec .newProcessSpace) m Q E := by
  show Ends (do return some (← newProcessSpace)) m _ _
  unfold newProcessSpace
  rw [ends_bind, ends_bind, ends_get, ends_bind]
  exact h

def backend : Backend where
  Regs := Regs
  entries := entries
  build := buildAddressSpace
  exec := exec
  load := Regs.load
  active regs := ⟨regs.cr3, 0⟩
  walk := walk
  writable e := Flags.has e WRITABLE
  executable e := !Flags.has e NX

end X86

namespace Aarch64

def exec : VSpace.Call → Prog Regs (Option AddressSpace)
  | .activate space => do activateAddressSpace space; pure none
  | .newProcessSpace => do return some (← newProcessSpace)
  | .mapPage vaddr phys prot => do mapPage vaddr phys prot; pure none
  | .mapUserPage vaddr phys prot domain => do mapUserPage vaddr phys prot domain; pure none
  | .installGuardPage vaddr => do installGuardPage vaddr; pure none
  | .isolate vaddr => do mapTagged vaddr; pure none

def backend : Backend where
  Regs := Regs
  entries := entries
  build := buildAddressSpace
  exec := exec
  load := Regs.load
  active regs := ⟨regs.ttbr1, regs.ttbr0⟩
  walk := walk
  writable e := !Flags.has e AP_RO
  -- executable at EL1 or at EL0
  executable e := !Flags.has e PXN || !Flags.has e UXN

end Aarch64

inductive VSpace.Arch where
  | x86_64
  | aarch64
  deriving DecidableEq, Repr

def VSpace.Arch.backend : Arch → Backend
  | .x86_64 => X86.backend
  | .aarch64 => Aarch64.backend

end Praesidium
