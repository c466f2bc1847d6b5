import Praesidium.Kernel.SpaceBackends

/-!
The two backends implement the same address space, as far as their entries hold the same
addresses.

Both refine `Spaces`, x86-64 with bits 12 to 51 of a physical address and aarch64 with bits 12
to 47.  So what `translate` and `page_prot` report after the same calls is the same as long as no
page is mapped to an address with one of the bits 48 to 51 (`backends_agree`); with such an
address x86-64 maps it and aarch64 another one (`backends_differ_wide`).
-/

namespace Praesidium

open Fallible Paging VSpace

/-- Both backends keep the same bits of the address that is mapped. -/
def VSpace.SpaceCall.Narrow : SpaceCall → Prop
  | .mapPage _ phys _ => phys &&& X86.ADDR_MASK = phys &&& Aarch64.ADDR_MASK
  | .mapUserPage _ phys _ => phys &&& X86.ADDR_MASK = phys &&& Aarch64.ADDR_MASK
  | _ => True

/-- After the calls, the page of `v` in space `k` is as `map_user_page` left it. -/
def VSpace.lastByUser (ops : List SpaceCall) (k : Nat) (v : U64) : Bool :=
  (Spaces.after X86.ADDR_MASK ops).user k v

/-! ## A run on both -/

/-- Build a space, switch to it and map a page at 1 GiB. -/
def plainOps (phys : U64) : List SpaceCall :=
  [.buildAddressSpace X86.plainMap, .activateAddressSpace 0, .mapPage 0x40000000 phys .rw]

theorem plainMap_contract : X86.plainMap.BootContract where
  hhdm_high := by decide
  hhdm_aligned := by decide
  image_high := by decide
  slots := by decide
  image_aligned := by decide
  image_size := by decide
  phys_aligned := by decide
  phys_small := by decide

theorem plainOps_contracted (phys : U64) : ∀ op ∈ plainOps phys, op.Contracted ∧ op.LowFits := by
  intro op hop
  simp only [plainOps, List.mem_cons, List.not_mem_nil, or_false] at hop
  rcases hop with rfl | rfl | rfl
  · exact ⟨plainMap_contract, show X86.plainMap.LowFits by decide⟩
  · exact ⟨trivial, trivial⟩
  · exact ⟨trivial, trivial⟩

/-- What the design says of it. -/
theorem plainOps_view (mask phys : U64) :
    (Spaces.after mask (plainOps phys)).view 0 0x40000000 = some
      (phys &&& mask, (true, false)) := by
  have page : (Spaces.after mask (plainOps phys)).view 0 0x40000000 =
      some ((phys &&& mask) + (0x40000000 &&& 0xfff), (true, false)) := rfl
  have offset : (0x40000000 &&& 0xfff : U64) = 0 := by decide
  rw [page, offset]
  exact congrArg (fun a => some (a, true, false)) (BitVec.add_zero _)

/-- All three return. -/
def VSpace.Backend.Plain (b : Backend) (m : Machine b.Regs) : Prop :=
  ∃ space m₁ made m₂, b.build X86.plainMap m = .ok space m₁ ∧
    b.exec (.activate space) m₁ = .ok made m₂ ∧
    ∀ phys, ∃ made' m₃, b.exec (.mapPage 0x40000000 phys .rw) m₂ = .ok made' m₃

/-- Then the page leads to what the entries hold of `phys`. -/
theorem plain_performs {b : Backend} {mask : U64}
    {translate : Machine b.Regs → AddressSpace → U64 → Option U64}
    {pageProt : Machine b.Regs → AddressSpace → U64 → Option (Bool × Bool)}
    (hb : b.Shows mask (fun op => op.Contracted ∧ op.LowFits) translate pageProt)
    {m : Machine b.Regs} (hm : b.Supplied m) (hp : b.Plain m) (phys : U64) :
    ∃ (w : b.World) (space : AddressSpace), Run b.Performs (b.start m) (plainOps phys) w ∧
      w.spaces[0]? = some space ∧ translate w.machine space 0x40000000 = some (phys &&& mask) := by
  obtain ⟨space, m₁, made, m₂, hbuild, hactivate, maps⟩ := hp
  obtain ⟨made', m₃, hmap⟩ := maps phys
  have run : Run b.Performs (b.start m) (plainOps phys) ⟨m₃, [space], some 0⟩ :=
    .cons (.build hbuild) (.cons (.activate rfl hactivate) (.cons (.edit rfl rfl hmap) (.nil _)))
  have shown := ((hb m hm _ (plainOps_contracted phys) _ run).2 0 space rfl 0x40000000
    (by decide)).1
  rw [plainOps_view] at shown
  exact ⟨_, space, run, rfl, shown⟩

theorem X86.plain : backend.Plain plainMachine := by
  obtain ⟨space, m₁, hbuild, frame, mapped, left⟩ := plain_built
  refine ⟨space, m₁, _, _, hbuild, rfl, fun phys => ?_⟩
  obtain ⟨made, m₃, hmap, _⟩ :=
    (ends_edit (mapPage_spec (m := inSpace m₁ space) frame 0x40000000 phys .rw)).returns
      fun e t he => by
        rcases he with ⟨_, hc⟩ | ⟨_, hc⟩
        · exact hc mapped
        · exact absurd left (by rw [show m₁.supply = [] from hc]; decide)
  exact ⟨made, m₃, hmap⟩

namespace Aarch64

/-- The frames of `X86.plainMachine`. -/
def plainMachine : Machine Regs where
  mem _ _ := 0
  supply := X86.plainFrames 600
  regs := ⟨0, 0, 0, 0, 0⟩

theorem plainMachine_supplied : backend.Supplied plainMachine where
  nodup := X86.plainFrames_nodup (Nat.le_refl 600)
  frame f hf := by
    have small := X86.plainFrames_le (Nat.le_refl 600) hf
    have frame : f &&& X86.ADDR_MASK = f := X86.plainFrames_frame (Nat.le_refl 600) f hf
    refine isFrame_of_small ?_ (by omega)
    have page : X86.ADDR_MASK &&& 0xfff = 0 := by decide
    have low : f &&& 0xfff = 0 := by
      rw [← frame, BitVec.and_assoc, page]
      exact BitVec.and_zero
    rw [← toNat_pageOffset, low]
    rfl

theorem plain_built :
    ∃ space m1, buildAddressSpace X86.plainMap plainMachine = .ok space m1 ∧
    entries.IsFrame space.secondary ∧ entries.Mapped m1.mem space.secondary 0x40000000 ∧
      m1.supply ≠ [] := by
  have frames : plainMachine.supply.length = 600 := by simp [plainMachine, X86.plainFrames]
  have building :=
    buildAddressSpace_spec plainMachine_supplied.nodup X86.plainMap X86.plainMap_slots.apart
  obtain ⟨space, m1, hbuild, used, built⟩ := building.returns fun e t he => by
    rcases he with ⟨_, few⟩ | ⟨_, hc⟩
    · rw [frames] at few
      exact absurd few (by decide)
    · exact hc X86.plainMap_fits
  have frame : ∀ t ∈ used, entries.IsFrame t := fun t ht =>
    plainMachine_supplied.frame t (by rw [built.supply]; exact List.mem_append_left _ ht)
  refine ⟨space, m1, hbuild, frame _ built.roots.2, ?_, fun hc => ?_⟩
  · exact built.tables.low.mapped lawful frame present_blockDesc (by decide) (by decide)
  · have supply := congrArg List.length built.supply
    rw [frames, hc, List.append_nil, built.count] at supply
    exact absurd supply (by decide)

theorem plain : backend.Plain plainMachine := by
  obtain ⟨space, m₁, hbuild, frame, mapped, left⟩ := plain_built
  refine ⟨space, m₁, _, _, hbuild, rfl, fun phys => ?_⟩
  obtain ⟨made, m₃, hmap, _⟩ :=
    (ends_edit (mapPage_spec (m := inSpace m₁ space) 0x40000000 phys .rw frame)).returns
      fun e t he => by
        rcases he with ⟨_, hc⟩ | ⟨_, hc⟩
        · exact hc mapped
        · exact left hc
  exact ⟨made, m₃, hmap⟩

end Aarch64

/-! ## Agreement -/

/-- **The backends agree.**  After the same calls on both, whatever the memory at the start, there
are as many spaces, and in each every canonical address translates alike; its protection is the
same unless `map_user_page` edited its page last. -/
theorem backends_agree (ops : List SpaceCall) (hops : ∀ op ∈ ops, op.Contracted)
    (hlow : ∀ op ∈ ops, op.LowFits) (hnarrow : ∀ op ∈ ops, op.Narrow) (m : Machine X86.Regs)
    (hm : X86.backend.Supplied m) (m' : Machine Aarch64.Regs) (hm' : Aarch64.backend.Supplied m')
    (w : X86.backend.World) (hw : Run X86.backend.Performs (X86.backend.start m) ops w)
    (w' : Aarch64.backend.World)
    (hw' : Run Aarch64.backend.Performs (Aarch64.backend.start m') ops w') :
    w.spaces.length = w'.spaces.length ∧
      ∀ k space space', w.spaces[k]? = some space → w'.spaces[k]? = some space' → ∀ v, Canonical v →
        X86.translate (X86.inSpace w.machine space) v = Aarch64.translate
          (Aarch64.inSpace w'.machine space') v ∧
        (lastByUser ops k v = false →
          X86.pageProt (X86.inSpace w.machine space) v = Aarch64.pageProt
            (Aarch64.inSpace w'.machine space') v) := by
  have both : ∀ op ∈ ops, op.Contracted ∧ op.LowFits := fun op hop => ⟨hops op hop, hlow op hop⟩
  obtain ⟨count, shown⟩ := X86.shows m hm ops both w hw
  have other := Aarch64.shows m' hm' ops both w' hw'
  have same : Spaces.after X86.ADDR_MASK ops = Spaces.after Aarch64.ADDR_MASK ops := by
    refine Spaces.after_congr fun op hop v phys prot hc => ?_
    have narrow := hnarrow op hop
    rcases hc with rfl | rfl
    · exact narrow
    · exact narrow
  rw [← same] at other
  refine ⟨count.trans other.1.symm, fun k space space' hk hk' v hv => ?_⟩
  obtain ⟨address, prot⟩ := shown k space hk v hv
  obtain ⟨address', prot'⟩ := other.2 k space' hk' v hv
  exact ⟨address.trans address'.symm, fun hu => (prot hu).trans (prot' hu).symm⟩

/-- A page of RAM. -/
theorem backends_agree_plain :
    ∃ (w : X86.backend.World) (w' : Aarch64.backend.World) (space space' : AddressSpace),
    Run X86.backend.Performs (X86.backend.start X86.plainMachine) (plainOps 0x300000) w ∧
    Run Aarch64.backend.Performs (Aarch64.backend.start Aarch64.plainMachine)
      (plainOps 0x300000) w' ∧
    w.spaces[0]? = some space ∧ w'.spaces[0]? = some space' ∧
    X86.translate (X86.inSpace w.machine space) 0x40000000 = some 0x300000 ∧
    Aarch64.translate (Aarch64.inSpace w'.machine space') 0x40000000 = some 0x300000 ∧
    X86.pageProt (X86.inSpace w.machine space) 0x40000000 = Aarch64.pageProt
      (Aarch64.inSpace w'.machine space') 0x40000000 := by
  obtain ⟨w, space, hw, hk, shown⟩ :=
    plain_performs X86.shows X86.plainMachine_supplied X86.plain 0x300000
  obtain ⟨w', space', hw', hk', _⟩ :=
    plain_performs Aarch64.shows Aarch64.plainMachine_supplied Aarch64.plain 0x300000
  have contracted := plainOps_contracted 0x300000
  have narrow : ∀ op ∈ plainOps 0x300000, op.Narrow := by
    intro op hop
    simp only [plainOps, List.mem_cons, List.not_mem_nil, or_false] at hop
    rcases hop with rfl | rfl | rfl
    · trivial
    · trivial
    · show (0x300000 : U64) &&& X86.ADDR_MASK = 0x300000 &&& Aarch64.ADDR_MASK
      decide
  have agree :=
    backends_agree (plainOps 0x300000) (fun op hop => (contracted op hop).1) (fun op hop =>
    (contracted op hop).2) narrow X86.plainMachine X86.plainMachine_supplied Aarch64.plainMachine
    Aarch64.plainMachine_supplied w hw w' hw'
  obtain ⟨address, prot⟩ := agree.2 0 space space' hk hk' 0x40000000 (by decide)
  exact ⟨w, w', space, space', hw, hw', hk, hk', shown, address.symm.trans shown, prot rfl⟩

/-- A page at 2^48: x86-64 maps it, aarch64 maps the frame at 0 in its place. -/
theorem backends_differ_wide :
    (∀ op ∈ plainOps 0x1000000000000, op.Contracted) ∧
    ∃ (w : X86.backend.World) (w' : Aarch64.backend.World) (space space' : AddressSpace),
      Run X86.backend.Performs (X86.backend.start X86.plainMachine) (plainOps 0x1000000000000) w ∧
      Run Aarch64.backend.Performs (Aarch64.backend.start Aarch64.plainMachine)
        (plainOps 0x1000000000000) w' ∧
      w.spaces[0]? = some space ∧ w'.spaces[0]? = some space' ∧
      X86.translate (X86.inSpace w.machine space) 0x40000000 = some 0x1000000000000 ∧
      Aarch64.translate (Aarch64.inSpace w'.machine space') 0x40000000 = some 0 := by
  obtain ⟨w, space, hw, hk, shown⟩ :=
    plain_performs X86.shows X86.plainMachine_supplied X86.plain 0x1000000000000
  obtain ⟨w', space', hw', hk', shown'⟩ :=
    plain_performs Aarch64.shows Aarch64.plainMachine_supplied Aarch64.plain 0x1000000000000
  exact ⟨fun op hop => (plainOps_contracted _ op hop).1, w, w', space, space', hw, hw', hk, hk',
    shown, shown'⟩

end Praesidium
