import Praesidium.Kernel.PagingBoot
import Praesidium.Kernel.PagingUser
import Praesidium.Kernel.VSpace

/-!
Every call of the seam keeps a typing of the tables.

A root is walked for one half of the addresses (on x86-64 one root serves them all), and its role
is that of the half.  For any shape that permits what a backend writes, the roots that the
registers and the spaces hold keep their roles:

    setup    the tables and the roots of the kernel's space are typed     (setup_typed)
    exec     they stay so, with those of a space that is built            (exec_typed)

`Typable` is this for a whole backend, and `Typable.run` for its runs.
-/

namespace Praesidium

open Fallible Paging Radix VSpace

/-! ## Roots -/

namespace Paging

variable {R ρ : Type} {d : Entries} {S : Shape U64 ρ} {ty ty' : U64 → Option ρ} {m m' : Machine R}

/-- A root table in its role. -/
structure TypedRoot (d : Entries) (ty : U64 → Option ρ) (t : U64) (r : ρ) : Prop where
  frame : d.IsFrame t
  role : ty t = some r

theorem TypedRoot.mono {t : U64} {r : ρ} (h : TypedRoot d ty t r) (hty : Extends ty ty') :
    TypedRoot d ty' t r :=
  ⟨h.frame, hty t r h.role⟩

/-- The roots that registers and spaces hold, each with the half of the addresses it is walked for
(`true` for the high half, where it has a root of its own). -/
structure Halves (R : Type) where
  regs : R → List (U64 × Bool)
  space : AddressSpace → List (U64 × Bool)

/-- The tables are typed, and so are the roots in the registers and in `spaces`. -/
structure RootsTyped (d : Entries) (S : Shape U64 ρ) (H : Halves R) (role : Bool →
    ρ) (spaces : List AddressSpace) (ty : U64 → Option ρ) (m : Machine R) : Prop where
  heap : Heap d S ty m
  regs : ∀ p ∈ H.regs m.regs, TypedRoot d ty p.1 (role p.2)
  spaces : ∀ space ∈ spaces, ∀ p ∈ H.space space, TypedRoot d ty p.1 (role p.2)

variable {H : Halves R} {role : Bool → ρ} {spaces : List AddressSpace}

/-- Roots stay roots, in registers that stay the same. -/
theorem Grows.rootsTyped (hg : Grows d S ty m ty' m') (h : RootsTyped d S H role spaces ty m)
    {made : Option AddressSpace}
    (hmade : ∀ space ∈ made, ∀ p ∈ H.space space, TypedRoot d ty' p.1 (role p.2)) :
    RootsTyped d S H role (made.toList ++ spaces) ty' m' where
  heap := hg.heap
  regs p hp := by
    rw [hg.regs] at hp
    exact (h.regs p hp).mono (hg.keeps h.heap)
  spaces space hs := by
    rcases List.mem_append.mp hs with hnew | hold
    · exact hmade space (Option.mem_toList.mp hnew)
    · exact fun p hp => (h.spaces space hold p hp).mono (hg.keeps h.heap)

/-- All tables keep their roles, and so do the roots. -/
def RootsKept (d : Entries) (S : Shape U64 ρ) (H : Halves R)
    (role : Bool → ρ) (spaces : List AddressSpace)
    (ty : U64 → Option ρ) (made : Option AddressSpace) (m : Machine R) : Prop :=
  ∃ ty', Extends ty ty' ∧ RootsTyped d S H role (made.toList ++ spaces) ty' m

/-- A call that edits tables builds no space. -/
theorem rootsKept_edit {p : Prog R Unit} (h : RootsTyped d S H role spaces ty m)
    (hp : Ends p m (fun _ m' => ∃ ty', Grows d S ty m ty' m') (fun _ _ => True)) :
    Ends (do p; pure none) m (RootsKept d S H role spaces ty) (fun _ _ => True) := by
  refine (ends_edit hp).imp_any fun made m' hQ => ?_
  obtain ⟨rfl, ty', grown⟩ := hQ
  exact ⟨ty', grown.keeps h.heap, grown.rootsTyped h fun _ hc => (by cases hc)⟩

end Paging

/-- Building and every call keep the typing. -/
structure VSpace.Backend.Typable {ρ : Type} (b : Backend) (S : Shape U64 ρ) (H : Halves b.Regs)
    (role : Bool → ρ) : Prop where
  setup : ∀ (km : KernelMap) (m : Machine b.Regs), km.Admitted → b.Supplied m →
    Ends (b.setup km) m (fun space m' => ∃ ty, RootsTyped b.entries S H role [space] ty m')
    (fun _ _ => True)
  exec : ∀ (call : VSpace.Call) (spaces : List AddressSpace)
    (ty : U64 → Option ρ) (m : Machine b.Regs),
    RootsTyped b.entries S H role spaces ty m → (∀ space, call = .activate space → space ∈ spaces) →
    Ends (b.exec call) m (RootsKept b.entries S H role spaces ty) (fun _ _ => True)

section

variable {ρ : Type} {b : Backend} {S : Shape U64 ρ} {H : Halves b.Regs} {role : Bool → ρ}

variable {s t : b.State}

theorem VSpace.Backend.Typable.step (hb : b.Typable S H role) {ev : VSpace.Event}
    {ty : U64 → Option ρ} (h : RootsTyped b.entries S H role s.spaces ty s.machine)
    (hs : b.Step s ev t) : ∃ ty', RootsTyped b.entries S H role t.spaces ty' t.machine := by
  obtain ⟨_, hact, made, m', hrun, rfl⟩ := hs
  obtain ⟨ty', _, typed⟩ := (hb.exec ev.call s.spaces ty s.machine h hact).ok hrun
  exact ⟨ty', typed⟩

/-- **Whole runs.** -/
theorem VSpace.Backend.Typable.run (hb : b.Typable S H role) {km : KernelMap} (hkm : km.Admitted)
    {m : Machine b.Regs} (hm : b.Supplied m) (hboot : b.Boots km m s) {tr : List VSpace.Event}
    (hrun : Run b.Step s tr t) : ∃ ty, RootsTyped b.entries S H role t.spaces ty t.machine := by
  obtain ⟨space, m', hsetup, rfl⟩ := hboot
  refine hrun.inv (fun s => ∃ ty, RootsTyped b.entries S H role s.spaces ty s.machine)
    ((hb.setup km m hkm hm).ok hsetup) ?_
  intro s ev t h hs
  obtain ⟨ty, typed⟩ := h
  exact hb.step typed hs

end

/-! ## x86-64 -/

namespace X86

open Flags

/-- What the calls write may stand where they write it, with `USER` or without. -/
structure Permits {ρ : Type} (S : Shape U64 ρ) : Prop where
  keeps : entries.Keeps S
  block : ∀ r i pa, S.level r = 1 → S.leaf r i (entries.block pa)
  page : ∀ r i pa prot, S.level r = 0 → pa.toNat % 4096 = 0 → S.leaf r i (entries.page pa prot)
  userPage : ∀ r i phys prot domain, S.level r = 0 → S.leaf r i (userLeaf phys prot domain)
  leaf_user : ∀ r i e, S.leaf r i e → S.leaf r i (e ||| USER)
  link_user : ∀ r i e, S.link r i e → S.link r i (e ||| USER)

/-- One root for all addresses. -/
def halves : Halves Regs where
  regs regs := [(regs.cr3, false), (regs.kernelPml4, false)]
  space space := [(space.primary, false)]

theorem frame_aligned (phys : U64) : (phys &&& ADDR_MASK).toNat % 4096 = 0 := by
  have low : ADDR_MASK &&& 0xfff = 0 := by decide
  rw [← toNat_pageOffset, BitVec.and_assoc, low]
  exact congrArg BitVec.toNat BitVec.and_zero

section

variable {ρ : Type} {S : Shape U64 ρ} {ty ty' : U64 → Option ρ} {m m' : Machine Regs} {r : ρ}
  {root v e : U64}

variable {i : Nat}

/-- `USER` changes nothing that the typing reads. -/
theorem fits_user (hS : Permits S) (h : Fits entries.format S ty r i e) :
    Fits entries.format S ty r i (e ||| USER) := by
  refine h.congr (has_or_user e (by decide)) (isLeaf_or_user _ e) (hS.leaf_user r i e) fun link
    next => ?_
  refine ⟨hS.link_user r i e link, ?_⟩
  show ty ((e ||| USER) &&& ADDR_MASK) = _
  rw [next_or_user]
  exact next

section

variable (hS : Permits S) (h : Heap entries S ty m)

include hS h

theorem grant_grows (t : U64) (hi : i < 512) :
    Grows entries S ty m ty (grant m t i) :=
  h.grows.write t i _ fun r hr => fits_user hS (h.typed t r hr i hi)

theorem granted_grows (root v : U64) :
    Grows entries S ty m ty (granted root v m) := by
  have first := grant_grows hS h root (index_lt v 3)
  exact first.trans (grant_grows hS first.heap _ (index_lt v 2))

theorem UserMapped.grows (hroot : ty root = some r) (hl : S.level r = 3)
    (hleaf : ∀ r' i, S.level r' = 0 → S.leaf r' i e) (hu : UserMapped root v e m m') :
    ∃ ty', Grows entries S ty m ty' m' := by
  obtain ⟨_, m1, he, rfl⟩ := hu
  have g1 := granted_grows hS h root v
  obtain ⟨ty', g2⟩ := he.grows lawful hS.keeps g1.heap hroot hl fun _ =>
    hleaf _ _ (level_pt hl _ _ _)
  exact ⟨ty', (g1.trans g2).trans (grant_grows hS g2.heap _ (index_lt v 1))⟩

section

variable (hroot : TypedRoot entries ty m.regs.cr3 r) (hl : S.level r = 3)

include hroot hl

theorem mapPage_typed (vaddr phys : U64) (prot : Prot) :
    Ends (mapPage vaddr phys prot) m (fun _ m' => ∃ ty', Grows entries S ty m ty' m')
      (fun _ _ => True) := by
  refine (mapPage_spec hroot.frame vaddr phys prot).imp_any fun _ m' he => ?_
  exact he.grows lawful hS.keeps h hroot.role hl fun _ =>
    hS.page _ _ _ prot (level_pt hl _ _ _) (frame_aligned phys)

theorem installGuardPage_typed (vaddr : U64) :
    Ends (installGuardPage vaddr) m (fun _ m' => ∃ ty', Grows entries S ty m ty' m')
      (fun _ _ => True) := by
  refine (installGuardPage_spec hroot.frame vaddr).imp_any fun _ m' he => ?_
  refine he.grows lawful hS.keeps h hroot.role hl fun hp => ?_
  rw [lawful.present_zero] at hp
  cases hp

theorem mapUserPage_typed (vaddr phys : U64) (prot : Prot) (domain : U64) :
    Ends (mapUserPage vaddr phys prot domain) m (fun _ m' => ∃ ty', Grows entries S ty m ty' m')
      (fun _ _ => True) := by
  refine (mapUserPage_tiered vaddr phys prot domain (tiered hS.keeps h hroot.role hl _)
    hroot.frame).imp_any fun _ m' hu => ?_
  exact hu.grows hS h hroot.role hl fun r' i hl' => hS.userPage r' i phys prot domain hl'

end

end

theorem victimTable_typed (hk : entries.Keeps S) (h : Heap entries S ty m) (hl : S.level r = 1)
    {e2 : U64} (fits2 : Fits entries.format S ty r i e2) (h2 : has e2 PRESENT = true) :
    Ends (victimTable e2) m
      (fun pt m' => entries.IsFrame pt ∧ ∃ ty', Grows entries S ty m ty' m' ∧
        ty' pt = some (S.child r i))
      (fun _ _ => True) := by
  have lev := S.level_child r i (by omega)
  unfold victimTable
  rw [ends_ite]
  refine ⟨fun hleaf => ?_, fun hleaf => ?_⟩
  · rw [ends_bind, ends_allocTable]
    refine ⟨fun _ => trivial, fun pt rest hs => ?_⟩
    rw [ends_bind, ends_writeTable, ends_pure]
    simp only [Mem.fill_fill, Mem.fill_self]
    refine ⟨(h.allots hs fun _ => 0).frame, _,
      h.build hs (full (entries.split e2)) (some (S.child r i)) ?_, Function.update_self ..⟩
    intro r' hr' j hj
    cases hr'
    rw [full_of_lt _ hj]
    have leaf2 := fits2.leaf h2 (.inr (by rw [hl]; exact hleaf))
    exact .of_leaf (.inl (by omega)) (hk.leaf_split r i e2 j hl hj leaf2)
  · refine (cloneTable_typed h _).imp_any fun pt m' hQ => ?_
    obtain ⟨allots, ty', grown, hpt⟩ := hQ
    have link2 := fits2.link h2 (by omega) (by rw [hl]; exact eq_false_of_ne_true hleaf)
    exact ⟨allots.frame, ty', grown, hpt.trans link2.2⟩

/-- Entry `i` of the copy `t` is led to the copy `f` of the table it led to. -/
theorem redirect_typed (hk : entries.Keeps S) (h : Grows entries S ty m ty' m') {t f : U64}
    (ht : ty' t = some r) (hf : entries.IsFrame f) (he : Fits entries.format S ty r i e)
    (hty : ty' f = ty (e &&& ADDR_MASK)) :
    Grows entries S ty m ty' { m' with mem := m'.mem.set t i (entries.moved f e) } := by
  refine h.write t i _ fun r' hr' => ?_
  have same : r' = r := Option.some.inj (hr'.symm.trans ht)
  subst same
  exact fits_moved lawful hk hf he fun r hr => hty.trans hr

theorem buildDomainExcluding_typed (hk : entries.Keeps S) (h : Heap entries S ty m)
    (hroot : TypedRoot entries ty m.regs.cr3 r) (hl : S.level r = 3) (v : U64) :
    Ends (buildDomainExcluding v) m
      (fun root m' => entries.IsFrame root ∧ ∃ ty', Grows entries S ty m ty' m' ∧ ty' root = some r)
      (fun _ _ => True) := by
  have frame : m.regs.cr3 &&& ADDR_MASK = m.regs.cr3 := hroot.frame
  have lev2 := S.level_child r (index (pageAlign v) 3) (by omega)
  have lev1 := level_pd (S := S) hl (index (pageAlign v) 3) (index (pageAlign v) 2)
  unfold buildDomainExcluding currentPml4
  rw [ends_bind, ends_bind, ends_get, ends_pure, frame, ends_bind]
  refine (cloneTable_typed h _).imp_any fun newPml4 m1 hQ => ?_
  obtain ⟨alPml4, ty1, g1, hpml4⟩ := hQ
  rw [hroot.role] at hpml4
  have fits4 := g1.heap.typed _ r (g1.keeps h _ _ hroot.role) _ (index_lt (pageAlign v) 3)
  rw [ends_bind, ends_readEntry, ends_bind, ends_assertThat]
  refine ⟨fun _ => trivial, fun h4 => ?_⟩
  have oldPdpt := (fits4.link h4 (by omega) (by rw [hl]; rfl)).2
  rw [ends_bind]
  refine (cloneTable_typed g1.heap _).imp_any fun newPdpt m2 hQ => ?_
  obtain ⟨alPdpt, ty2, g2, hpdpt⟩ := hQ
  have g2' := redirect_typed hk g2 (g2.keeps g1.heap _ _ hpml4) alPdpt.frame fits4 hpdpt
  have fits3 := g2'.heap.typed _ _ (g2.keeps g1.heap _ _ oldPdpt) _ (index_lt (pageAlign v) 2)
  rw [ends_bind, ends_writeEntry, ends_bind, ends_readEntry, ends_bind, ends_assertThat]
  refine ⟨fun _ => trivial, fun h3 => ?_⟩
  rw [Bool.and_eq_true, Bool.not_eq_true'] at h3
  have two : S.level (S.child r (index (pageAlign v) 3)) = 2 := by omega
  have oldPd := (fits3.link h3.1 (by omega) (by rw [two]; exact h3.2)).2
  rw [ends_bind]
  refine (cloneTable_typed g2'.heap _).imp_any fun newPd m3 hQ => ?_
  obtain ⟨alPd, ty3, g3, hpd⟩ := hQ
  have g3' := redirect_typed hk g3 (g3.keeps g2'.heap _ _ (hpdpt.trans oldPdpt)) alPd.frame
    fits3 hpd
  have fits2 := g3'.heap.typed _ _ (g3.keeps g2'.heap _ _ oldPd) _ (index_lt (pageAlign v) 1)
  rw [ends_bind, ends_writeEntry, ends_bind, ends_readEntry, ends_bind, ends_assertThat]
  refine ⟨fun _ => trivial, fun h2 => ?_⟩
  rw [ends_bind]
  refine (victimTable_typed hk g3'.heap lev1 fits2 h2).imp_any fun newPt m4 hQ => ?_
  obtain ⟨ptFrame, ty4, g4, hpt⟩ := hQ
  have g4' := g4.link lawful hk (g4.keeps g3'.heap _ _ (hpd.trans oldPd)) (by omega) ptFrame hpt
    (i := index (pageAlign v) 1)
  have g4'' := g4'.write newPt (index (pageAlign v) 0) 0 fun _ _ => .absent lawful.present_zero
  rw [ends_bind, ends_writeEntry, ends_bind, ends_writeEntry, ends_pure, BitVec.or_assoc]
  refine ⟨alPml4.frame, ty4, (((g1.trans g2').trans g3').trans g4''), ?_⟩
  exact g4.keeps g3'.heap _ _ (g3.keeps g2'.heap _ _ (g2.keeps g1.heap _ _ hpml4))

end

section

variable {ρ : Type} {S : Shape U64 ρ} {role : Bool → ρ} {m : Machine Regs}

section

variable (hS : Permits S) (hl : S.level (role false) = 3)

include hS hl

theorem exec_typed {spaces : List AddressSpace} {ty : U64 → Option ρ} (call : VSpace.Call)
    (h : RootsTyped entries S halves role spaces ty m)
    (hact : ∀ space, call = .activate space → space ∈ spaces) :
    Ends (exec call) m (RootsKept entries S halves role spaces ty) (fun _ _ => True) := by
  have hcr3 : TypedRoot entries ty m.regs.cr3 (role false) :=
    h.regs (m.regs.cr3, false) List.mem_cons_self
  have hkernel : TypedRoot entries ty m.regs.kernelPml4 (role false) :=
    h.regs (m.regs.kernelPml4, false) (List.mem_cons_of_mem _ List.mem_cons_self)
  -- a copy of a root is a root
  have made : ∀ {root : U64} {ty' : U64 → Option ρ} {m' : Machine Regs}, entries.IsFrame root →
      Grows entries S ty m ty' m' → ty' root = some (role false) →
      RootsKept entries S halves role spaces ty (some ⟨root, 0⟩) m' :=
        fun {root ty' m'} frame grown hroot => by
    refine ⟨ty', grown.keeps h.heap, grown.rootsTyped h fun space hc p hp => ?_⟩
    cases hc
    rw [List.mem_singleton.mp hp]
    exact ⟨frame, hroot⟩
  cases call with
  | activate space =>
    have root := h.spaces space (hact space rfl) (space.primary, false) List.mem_cons_self
    show Ends (do activateAddressSpace space; pure none) m _ _
    unfold activateAddressSpace
    rw [ends_bind, ends_modify, ends_pure]
    refine ⟨ty, Extends.refl ty, h.heap.setRegs _, ?_, h.spaces⟩
    simp only [halves, Regs.load, List.forall_mem_cons]
    exact ⟨root, hkernel, by simp⟩
  | newProcessSpace =>
    refine ends_newProcessSpace ?_
    refine (cloneWindow_typed lawful hS.keeps h.heap hkernel.role).imp_any fun root m' hQ => ?_
    obtain ⟨frame, ty', grown, hroot⟩ := hQ
    exact made frame grown hroot
  | mapPage vaddr phys prot =>
    exact rootsKept_edit h (mapPage_typed hS h.heap hcr3 hl vaddr phys prot)
  | mapUserPage vaddr phys prot domain =>
    exact rootsKept_edit h (mapUserPage_typed hS h.heap hcr3 hl vaddr phys prot domain)
  | installGuardPage vaddr =>
    exact rootsKept_edit h (installGuardPage_typed hS h.heap hcr3 hl vaddr)
  | isolate vaddr =>
    show Ends (do return some (⟨← buildDomainExcluding vaddr, 0⟩ : AddressSpace)) m _ _
    rw [ends_bind]
    refine (buildDomainExcluding_typed hS.keeps h.heap hcr3 hl vaddr).imp_any fun root m' hQ => ?_
    obtain ⟨frame, ty', grown, hroot⟩ := hQ
    rw [ends_pure]
    exact made frame grown hroot

theorem setup_typed (km : KernelMap) (hkm : km.Admitted) (hm : backend.Supplied m) :
    Ends (do let space ← buildAddressSpace km; let _ ← exec (.activate space); pure space) m
      (fun space m' => ∃ ty, RootsTyped entries S halves role [space] ty m') (fun _ _ => True) := by
  rw [ends_bind]
  refine (buildAddressSpace_grown hS.keeps (r := role false) hl (.empty hm.nodup hm.frame) km (fun i g j _ => ?_)
    fun i pa prot hpa => ?_).imp_any fun space m' hQ => ?_
  · exact hS.block _ j _ (level_pd hl i g)
  · exact hS.page _ i pa prot (level_pt hl _ _ _) (hpa.trans hkm.phys)
  · obtain ⟨frame, regs, _, ty, heap, root, _⟩ := hQ
    show Ends (do let _ ← (do activateAddressSpace space; pure (none : Option AddressSpace)); pure space) m' _ _
    unfold activateAddressSpace
    rw [ends_bind, ends_bind, ends_modify, ends_pure, ends_pure]
    have rooted : TypedRoot entries ty space.primary (role false) := ⟨frame, root⟩
    refine ⟨ty, heap.setRegs _, ?_, ?_⟩
    · simp only [halves, Regs.load, List.forall_mem_cons, regs]
      exact ⟨rooted, rooted, by simp⟩
    · simp only [halves, List.forall_mem_cons]
      exact ⟨⟨rooted, by simp⟩, by simp⟩

theorem typable :
    backend.Typable S halves role where
  setup km _ hkm hm := setup_typed hS hl km hkm hm
  exec call _ _ _ h hact := exec_typed hS hl call h hact

end

end

end X86

/-! ## aarch64 -/

namespace Aarch64

open Flags

/-- What the calls write may stand where they write it. -/
structure Permits {ρ : Type} (S : Shape U64 ρ) : Prop where
  keeps : entries.Keeps S
  block : ∀ r i pa, S.level r = 1 → S.leaf r i (entries.block pa)
  page : ∀ r i pa prot, S.level r = 0 → S.leaf r i (entries.page pa prot)
  userPage : ∀ r i phys prot domain, S.level r = 0 → S.leaf r i (userLeaf phys prot domain)
  tagged : ∀ r i pa, S.level r = 0 →
    S.leaf r i (pa ||| AF ||| SH_INNER ||| ATTR_TAGGED ||| TABLE ||| UXN ||| PXN)

/-- A root for each half. -/
def halves : Halves Regs where
  regs regs := [(regs.ttbr0, false), (regs.ttbr1, true), (regs.kernelTtbr0, false),
    (regs.kernelTtbr1, true)]
  space space := [(space.primary, true), (space.secondary, false)]

/-! ### What the calls do -/

section

variable {m : Machine Regs} {root : U64}

theorem mapPage_spec (vaddr phys : U64) (prot : Prot)
    (hroot : rootFor m.regs (pageAlign vaddr) = root) :
    Ends (mapPage vaddr phys prot) m
      (fun _ m' => Edited entries root (pageAlign vaddr) (pageDesc (phys &&& ADDR_MASK) prot) m m')
      (EditFails entries root (pageAlign vaddr) m) := by
  unfold mapPage ensureL3Table currentRoot
  rw [ends_bind, ends_bind, ends_bind, ends_get, ends_pure, hroot, ← ends_bind]
  exact edit_spec entries root (pageAlign vaddr) _ m

theorem installGuardPage_spec (vaddr : U64) (hroot : rootFor m.regs (pageAlign vaddr) = root) :
    Ends (installGuardPage vaddr) m (fun _ m' => Edited entries root (pageAlign vaddr) 0 m m')
      (EditFails entries root (pageAlign vaddr) m) := by
  unfold installGuardPage ensureL3Table currentRoot
  rw [ends_bind, ends_bind, ends_bind, ends_get, ends_pure, hroot, ← ends_bind]
  exact edit_spec entries root (pageAlign vaddr) _ m

end

/-! ### Typing -/

section

variable {ρ : Type} {S : Shape U64 ρ} {role : Bool → ρ} {spaces : List AddressSpace}
  {ty : U64 → Option ρ} {m : Machine Regs}

theorem rootFor_role (hregs : ∀ p ∈ halves.regs m.regs, TypedRoot entries ty p.1 (role p.2))
    (v : U64) : ty (rootFor m.regs v) = some (role (has v (1 <<< 63))) := by
  simp only [halves, List.forall_mem_cons] at hregs
  unfold rootFor
  by_cases hv : has v (1 <<< 63) = true
  · have frame : m.regs.ttbr1 &&& ADDR_MASK = m.regs.ttbr1 := hregs.2.1.frame
    rw [if_pos hv, frame, hv]
    exact hregs.2.1.role
  · have frame : m.regs.ttbr0 &&& ADDR_MASK = m.regs.ttbr0 := hregs.1.frame
    rw [if_neg hv, frame, eq_false_of_ne_true hv]
    exact hregs.1.role

theorem ensureL3Table_typed (hk : entries.Keeps S) (hl : ∀ s, S.level (role s) = 3)
    (h : Heap entries S ty m)
    (hregs : ∀ p ∈ halves.regs m.regs, TypedRoot entries ty p.1 (role p.2)) (v : U64) :
    Ends (ensureL3Table v) m
      (fun pt m' => ∃ ty' r, Grows entries S ty m ty' m' ∧ ty' pt = some r ∧ S.level r = 0)
        (fun _ _ => True) := by
  unfold ensureL3Table currentRoot
  rw [ends_bind, ends_bind, ends_get, ends_pure]
  refine (ensureTable_typed lawful hk h (rootFor_role hregs v) (hl _)).imp_any fun pt m' hQ => ?_
  obtain ⟨ty', grown, hpt⟩ := hQ
  exact ⟨ty', _, grown, hpt, level_pt (hl _) _ _ _⟩

section

variable (hS : Permits S) (hl : ∀ s, S.level (role s) = 3)

include hS hl

section

variable (h : Heap entries S ty m)
  (hregs : ∀ p ∈ halves.regs m.regs, TypedRoot entries ty p.1 (role p.2))

include h hregs

theorem mapTagged_typed (v : U64) :
    Ends (mapTagged v) m (fun _ m' => ∃ ty', Grows entries S ty m ty' m') (fun _ _ => True) := by
  unfold mapTagged
  rw [ends_bind]
  refine (ensureL3Table_typed hS.keeps hl h hregs _).imp_any fun l3 m' hQ => ?_
  obtain ⟨ty', r, grown, hl3, lev⟩ := hQ
  rw [ends_bind, ends_readEntry, ends_writeEntry]
  exact ⟨ty', grown.writeLeaf hl3 lev (hS.tagged r _ _ lev)⟩

theorem mapUserPage_typed (vaddr phys : U64) (prot : Prot) (domain : U64) :
    Ends (mapUserPage vaddr phys prot domain) m (fun _ m' => ∃ ty', Grows entries S ty m ty' m')
      (fun _ _ => True) := by
  unfold mapUserPage
  rw [ends_bind]
  refine (ensureL3Table_typed hS.keeps hl h hregs _).imp_any fun l3 m' hQ => ?_
  obtain ⟨ty', r, grown, hl3, lev⟩ := hQ
  have written :=
    grown.writeLeaf (i := lidx (pageAlign vaddr) 3) hl3 lev (hS.userPage r _ phys prot domain lev)
  rw [ends_bind, ends_writeEntry, ends_ite]
  refine ⟨fun _ => ?_, fun _ => ?_⟩
  · rw [ends_bind, ends_get, ends_bind, ends_okOr]
    refine ⟨fun _ => trivial, fun hhdm _ => ?_⟩
    have roots : ∀ p ∈ halves.regs m'.regs, TypedRoot entries ty' p.1 (role p.2) := fun p hp =>
      (hregs p (by rw [← grown.regs]; exact hp)).mono (grown.keeps h)
    refine (mapTagged_typed hS hl written.heap roots hhdm).imp_ok fun _ m'' hQ => ?_
    obtain ⟨ty'', grown'⟩ := hQ
    exact ⟨ty'', written.trans grown'⟩
  · rw [ends_pure]
    exact ⟨ty', written⟩

end

theorem exec_typed (call : VSpace.Call) (h : RootsTyped entries S halves role spaces ty m)
    (hact : ∀ space, call = .activate space → space ∈ spaces) :
    Ends (exec call) m (RootsKept entries S halves role spaces ty) (fun _ _ => True) := by
  have regs := h.regs
  simp only [halves, List.forall_mem_cons] at regs
  obtain ⟨_, _, kernel0, kernel1, _⟩ := regs
  cases call with
  | activate space =>
    have root := h.spaces space (hact space rfl)
    show Ends (do activateAddressSpace space; pure none) m _ _
    unfold activateAddressSpace
    rw [ends_bind, ends_modify, ends_pure]
    refine ⟨ty, Extends.refl ty, h.heap.setRegs _, ?_, h.spaces⟩
    simp only [halves, Regs.load, List.forall_mem_cons] at root ⊢
    exact ⟨root.2.1, root.1, kernel0, kernel1, by simp⟩
  | newProcessSpace =>
    show Ends (do return some (← newProcessSpace)) m _ _
    unfold newProcessSpace
    rw [ends_bind, ends_bind, ends_get, ends_bind]
    refine (cloneWindow_typed lawful hS.keeps h.heap kernel0.role).imp_any fun root m' hQ => ?_
    obtain ⟨frame, ty', grown, hroot⟩ := hQ
    rw [ends_bind, ends_get, ends_pure, ends_pure]
    refine ⟨ty', grown.keeps h.heap, grown.rootsTyped h fun space hc => ?_⟩
    cases hc
    simp only [halves, List.forall_mem_cons]
    refine ⟨?_, ⟨frame, hroot⟩, by simp⟩
    rw [grown.regs]
    exact kernel1.mono (grown.keeps h.heap)
  | mapPage vaddr phys prot =>
    refine rootsKept_edit h ((mapPage_spec vaddr phys prot rfl).imp_any fun _ m' he => ?_)
    exact he.grows lawful hS.keeps h.heap (rootFor_role h.regs _) (hl _) fun _ =>
      hS.page _ _ _ prot (level_pt (hl _) _ _ _)
  | mapUserPage vaddr phys prot domain =>
    exact rootsKept_edit h (mapUserPage_typed hS hl h.heap h.regs vaddr phys prot domain)
  | installGuardPage vaddr =>
    refine rootsKept_edit h ((installGuardPage_spec vaddr rfl).imp_any fun _ m' he => ?_)
    refine he.grows lawful hS.keeps h.heap (rootFor_role h.regs _) (hl _) fun hp => ?_
    rw [lawful.present_zero] at hp
    cases hp
  | isolate vaddr => exact rootsKept_edit h (mapTagged_typed hS hl h.heap h.regs vaddr)

theorem setup_typed (km : KernelMap) (hkm : km.Admitted) (hm : backend.Supplied m) :
    Ends (do let space ← buildAddressSpace km; let _ ← exec (.activate space); pure space) m
      (fun space m' => ∃ ty, RootsTyped entries S halves role [space] ty m') (fun _ _ => True) := by
  -- 4 GiB of leaves, all of them blocks
  have blocks : ∀ g j, g < X86.lowGibs km → j < 512 →
      entries.isLeaf 1 (entries.block (BitVec.ofNat 64 g <<< 30 ||| BitVec.ofNat 64 j <<< 21)) =
      true := by
    intro g j hg hj
    have hg4 : g < 4 := by
      rw [X86.lowGibs, hkm.identity] at hg
      exact hg
    have all : ∀ g < 4, ∀ j < 512,
      kind (blockDesc (BitVec.ofNat 64 g <<< 30 ||| BitVec.ofNat 64 j <<< 21)) = BLOCK := by
      decide +kernel
    exact beq_iff_eq.mpr (all g hg4 j hj)
  rw [ends_bind]
  refine (buildAddressSpace_grown (r := role false) (q := role true) hS.keeps (hl _) (hl _) (.empty hm.nodup hm.frame) km
    (fun x hx i g j hg hj => ⟨blocks g j hg hj, hS.block _ j _ (level_pd ?_ i g)⟩)
    fun i pa prot _ => hS.page _ i pa prot (level_pt (hl _) _ _ _)).imp_any fun space m' hQ => ?_
  · rcases hx with rfl | rfl
    · exact hl _
    · exact hl _
  · obtain ⟨frame1, frame0, regs, ty, heap, low, high, _⟩ := hQ
    show Ends (do let _ ← (do activateAddressSpace space; pure (none : Option AddressSpace)); pure space) m' _ _
    unfold activateAddressSpace
    rw [ends_bind, ends_bind, ends_modify, ends_pure, ends_pure]
    have root0 : TypedRoot entries ty space.secondary (role false) := ⟨frame0, low⟩
    have root1 : TypedRoot entries ty space.primary (role true) := ⟨frame1, high⟩
    refine ⟨ty, heap.setRegs _, ?_, ?_⟩
    · simp only [halves, Regs.load, List.forall_mem_cons, regs]
      exact ⟨root0, root1, root0, root1, by simp⟩
    · simp only [halves, List.forall_mem_cons]
      exact ⟨⟨root1, root0, by simp⟩, by simp⟩

theorem typable : backend.Typable S halves role where
  setup km _ hkm hm := setup_typed hS hl km hkm hm
  exec call _ _ _ h hact := exec_typed hS hl call h hact

end

end

end Aarch64

end Praesidium
