import Praesidium.Kernel.ProcessTables

/-!
Reaping conserves frames, along runs that make, map and reap process spaces (x86-64).

A `World` is a state of the paging seam with the accounts of its processes.  A process stays on
the account while nothing but `map_user_page` in `[1 GiB, 2 GiB)` edits its tables.  Processes on
the account may be reaped, and what is freed may be allocated again.  Every step keeps every
process sealed (`Inv.step`), and so

    reap_process_space frees the frames on the account and the listed pages, each once,
    and nothing that another space leads to                                             (reap_conserves)
-/

namespace Praesidium

namespace X86

open Fallible Flags Paging Radix VSpace

/-! ## Runs -/

structure World where
  state : backend.State
  processes : List Process

/-- The frames allocated between two states. -/
def spent (s t : backend.State) : List U64 :=
  s.machine.supply.take (s.machine.supply.length - t.machine.supply.length)

/-- The accounts after a call. -/
def account (ev : VSpace.Event) (s t : backend.State) (ps : List Process) : List Process :=
  match ev.call with
  | .activate _ => ps
  | .newProcessSpace =>
    t.spaces.head?.toList.map (fun space => ⟨space, spent s t, fun _ => none⟩) ++ ps
  | .mapUserPage vaddr phys _ _ =>
    if InWindow vaddr then ps.map fun p =>
      if p.space = ev.active then p.mapped vaddr phys (spent s t) else p
    else ps.filter fun p => p.space ≠ ev.active
  | _ => ps.filter fun p => p.space ≠ ev.active

theorem account_window {vaddr : U64} (hwin : InWindow vaddr) (active : AddressSpace) (phys : U64)
    (prot : Prot) (domain : U64) (s t : backend.State) (ps : List Process) :
    account ⟨active, .mapUserPage vaddr phys prot domain⟩ s t ps =
      ps.map fun p => if p.space = active then p.mapped vaddr phys (spent s t) else p := if_pos hwin

/-- Pages of a process to be reaped with it: in the window, in distinct pages, mapped by
`map_user_page`, to distinct frames that are no tables. -/
structure Owns (w : World) (p : Process) (vas frames : List U64) : Prop where
  window : ∀ v ∈ vas, InWindow v
  pages : (vas.map pageNumber).Nodup
  mapped : vas.map (fun v => p.pages (pageNumber v)) = frames.map some
  distinct : frames.Nodup
  plain : ∀ f ∈ frames, ∀ space ∈ w.state.spaces, ¬ Reaches w.state.machine.mem space f

inductive Event where
  | call (ev : VSpace.Event)
  | reap (space : AddressSpace) (ownedLeafVas : List U64)

/-- A process that is not active is reaped; what is freed may be allocated from then on. -/
structure Reaped (w : World) (space : AddressSpace) (vas : List U64) (w' : World) : Prop where
  owner : ∃ p ∈ w.processes, p.space = space ∧ ∃ frames, Owns w p vas frames
  inactive : space ≠ backend.active w.state.machine.regs
  supply : ∃ freed supply, reapProcessSpace space vas w.state.machine = .ok freed w.state.machine ∧
    w'.state.machine = { w.state.machine with supply := supply } ∧ supply.Nodup ∧
    ∀ f ∈ supply, f ∈ w.state.machine.supply ∨ f ∈ freed.frames
  spaces : w'.state.spaces = w.state.spaces.filter fun other => other ≠ space
  processes : w'.processes = w.processes.filter fun p => p.space ≠ space

def Step (w : World) : Event → World → Prop
  | .call ev, w' =>
    backend.Step w.state ev w'.state ∧ w'.processes = account ev w.state w'.state w.processes
  | .reap space vas, w' => Reaped w space vas w'

/-! ## Reaping a sealed process -/

variable {w : World} {km : KernelMap} {m : Machine Regs} {s t : backend.State}
  {space : AddressSpace} {f : U64} {ev : VSpace.Event}

/-- There are as many pages in the window as addresses in distinct pages. -/
theorem Owns.few {p : Process} {vas frames : List U64} (h : Owns w p vas frames) :
    vas.length ≤ 0x40000 := by
  have pages : ∀ k ∈ vas.map pageNumber, k ∈ (List.range 0x40000).map (fun k => k + 0x40000) := by
    intro k hk
    obtain ⟨v, hv, rfl⟩ := List.mem_map.mp hk
    obtain ⟨lo, hi⟩ := h.window v hv
    refine List.mem_map.mpr ⟨pageNumber v - 0x40000, List.mem_range.mpr ?_, ?_⟩
    · unfold pageNumber
      omega
    · unfold pageNumber
      omega
  have few := (List.subperm_of_subset h.pages pages).length_le
  rw [List.length_map, List.length_map, List.length_range] at few
  exact few

section

variable {w : World} {p : Process} {vas frames : List U64}

variable {f : U64}

theorem leafFrame_frame {mem : Mem U64} {pd va : U64} (h : leafFrame mem pd va = some f) :
    entries.IsFrame f := by
  unfold leafFrame at h
  split at h
  · split at h
    · cases h
      exact Entries.isFrame_next _
    · cases h
  · cases h

section

variable (h : Sealed p w.state.machine w.state.spaces) (hown : Owns w p vas frames)

include h hown

theorem Sealed.leaves :
    vas.map (leafFrame w.state.machine.mem (entries.windowPd w.state.machine.mem p.space.primary)) =
      frames.map some := by
  rw [← hown.mapped]
  refine List.map_congr_left fun v hv => ?_
  have member : p.pages (pageNumber v) ∈ frames.map some := by
    rw [← hown.mapped]
    exact List.mem_map.mpr ⟨v, hv, rfl⟩
  obtain ⟨f, _, hf⟩ := List.mem_map.mp member
  rw [← hf]
  exact h.pages v f (hown.window v hv) hf.symm

/-- **A sealed process is freed, and nothing else.** -/
theorem Sealed.reap :
    ∃ freed, reapProcessSpace p.space vas w.state.machine = .ok freed w.state.machine ∧
      freed.frames.Perm (p.frames ++ frames) ∧ freed.frames.Nodup ∧
        freed.count.toNat = freed.frames.length := by
  have few := hown.few
  obtain ⟨freed, m', hrun, rfl, count, hframes⟩ :=
    (reapProcessSpace_spec (m := w.state.machine) p.space vas (by omega)).exists_ok
  have leaves : vas.filterMap (leafFrame w.state.machine.mem
    (entries.windowPd w.state.machine.mem p.space.primary)) = frames := by
    have same := congrArg (List.filterMap id) (h.leaves hown)
    rw [List.filterMap_map, List.filterMap_map] at same
    exact same.trans (List.filterMap_some ..)
  rw [leaves] at hframes
  have perm : freed.frames.Perm (p.frames ++ frames) := by
    rw [hframes]
    exact List.perm_append_comm.trans (h.tables.symm.append_right frames)
  have nodup : (p.frames ++ frames).Nodup := by
    refine List.nodup_append.mpr ⟨h.nodup, hown.distinct, fun f hf g hg hc => ?_⟩
    exact hown.plain g hg p.space h.listed (hc ▸ h.reaches hf)
  exact ⟨freed, hrun, perm, perm.nodup_iff.mpr nodup, count⟩

/-- No other space reaches what is freed. -/
theorem Sealed.unreached_all (hf : f ∈ p.frames ++ frames) {other : AddressSpace}
    (ho : other ∈ w.state.spaces) (hne : other ≠ p.space) :
    ¬ Reaches w.state.machine.mem other f := by
  rcases List.mem_append.mp hf with hf | hf
  · exact h.unreached hf ho hne
  · exact hown.plain f hf other ho

/-- What is freed is page frames. -/
theorem Sealed.frame_all (hroot : entries.IsFrame p.space.primary) (hf : f ∈ p.frames ++ frames) :
    entries.IsFrame f := by
  rcases List.mem_append.mp hf with hf | hf
  · rcases List.mem_append.mp (h.tables.mem_iff.mp hf) with hsplit | htop
    · obtain ⟨j, _, _, rfl⟩ := mem_splitTables.mp hsplit
      exact Entries.isFrame_next _
    · simp only [List.mem_cons, List.not_mem_nil, or_false] at htop
      rcases htop with rfl | rfl | rfl
      · exact Entries.isFrame_next _
      · exact Entries.isFrame_next _
      · exact hroot
  · have member : some f ∈ vas.map
      (leafFrame w.state.machine.mem (entries.windowPd w.state.machine.mem p.space.primary)) := by
      rw [h.leaves hown]
      exact List.mem_map.mpr ⟨f, hf, rfl⟩
    obtain ⟨v, _, hv⟩ := List.mem_map.mp member
    exact leafFrame_frame hv

end

end

/-! ## Steps -/

structure Inv (base : U64) (w : World) : Prop where
  levelled : ∃ lv, Levelled lv w.state.machine w.state.spaces
  kernel : w.state.machine.regs.kernelPml4 = base
  own : ⟨base, 0⟩ ∈ w.state.spaces
  active : ⟨w.state.machine.regs.cr3, 0⟩ ∈ w.state.spaces
  windowed : Windowed entries base w.state.machine.mem
  processes : ∀ p ∈ w.processes, Sealed p w.state.machine w.state.spaces ∧ p.space ≠ ⟨base, 0⟩

section

variable {base : U64} {w : World} {m' : Machine Regs}

variable {made : Option AddressSpace} {t : backend.State} {w' : World}

/-- Whatever the accounts are after a call, the rest of the invariant is kept. -/
theorem Inv.after (h : Inv base w) {call : VSpace.Call} (hcall : ∀ space, call ≠ .activate space)
    (hexec : exec call w.state.machine = .ok made m') {ps : List Process}
    (hps : ∀ p ∈ ps, Sealed p m' (made.toList ++ w.state.spaces) ∧ p.space ≠ ⟨base, 0⟩) :
    Inv base ⟨⟨m', made.toList ++ w.state.spaces⟩, ps⟩ := by
  obtain ⟨lv, levelled⟩ := h.levelled
  have kernel := h.kernel
  have windowed := h.windowed
  have own := h.own
  rw [← kernel] at windowed own
  obtain ⟨lv', left, levelled', _⟩ := levelled.call hcall (fun _ => h.active) own windowed hexec
  have regs := left.grown.regs
  constructor
  case levelled => exact ⟨lv', levelled'⟩
  case kernel =>
    show m'.regs.kernelPml4 = base
    rw [regs]
    exact kernel
  case own => exact List.mem_append_right _ h.own
  case active =>
    show (⟨m'.regs.cr3, 0⟩ : AddressSpace) ∈ _
    rw [regs]
    exact List.mem_append_right _ h.active
  case windowed =>
    have kept := left.windowed levelled.heap (levelled.roots _ own).level windowed
    rw [kernel] at kept
    exact kept
  case processes => exact hps

/-- A process keeps its tables through calls made elsewhere. -/
theorem Inv.elsewhere (h : Inv base w) {call : VSpace.Call}
    (hcall : ∀ space, call ≠ .activate space) (hexec : exec call w.state.machine = .ok made m')
    {p : Process} (hp : p ∈ w.processes)
    (hcr3 : call ≠ .newProcessSpace → p.space ≠ ⟨w.state.machine.regs.cr3, 0⟩) :
    Sealed p m' (made.toList ++ w.state.spaces) ∧ p.space ≠ ⟨base, 0⟩ := by
  obtain ⟨sealed, hne⟩ := h.processes p hp
  have windowed := h.windowed
  have own := h.own
  have hne' := hne
  rw [← h.kernel] at windowed own hne'
  exact ⟨sealed.other hcall h.active (fun hc => (hcr3 hc).symm) own hne'.symm windowed hexec, hne⟩

theorem spent_eq {s : backend.State} {taken : List U64}
    (h : s.machine.supply = taken ++ t.machine.supply) : spent s t = taken := by
  unfold spent
  rw [h, List.length_append, Nat.add_sub_cancel]
  exact List.take_left

/-- **A call.** -/
theorem Inv.call (h : Inv base w) {ev : VSpace.Event} (hs : backend.Step w.state ev t) :
    Inv base ⟨t, account ev w.state t w.processes⟩ := by
  obtain ⟨hactive, hspace, made, m', hexec, rfl⟩ := hs
  obtain ⟨active, call⟩ := ev
  have hact : active = ⟨w.state.machine.regs.cr3, 0⟩ := hactive
  change exec call w.state.machine = _ at hexec
  -- the processes of other spaces than the active one
  have others : ∀ call, (∀ space, call ≠ .activate space) →
    exec call w.state.machine = .ok made m' → ∀ p ∈ w.processes.filter (fun p => p.space ≠ active),
      Sealed p m' (made.toList ++ w.state.spaces) ∧ p.space ≠ ⟨base, 0⟩ := by
    intro call hcall hexec p hp
    obtain ⟨hp, hne⟩ := List.mem_filter.mp hp
    rw [hact] at hne
    exact h.elsewhere hcall hexec hp fun _ => of_decide_eq_true hne
  cases call with
  | activate space =>
    have mem := hspace space rfl
    cases hexec
    obtain ⟨lv, levelled⟩ := h.levelled
    refine ⟨⟨lv, levelled.heap.setRegs _, levelled.secondary, levelled.roots⟩, h.kernel, h.own, ?_,
      h.windowed, ?_⟩
    · show (⟨space.primary, 0⟩ : AddressSpace) ∈ w.state.spaces
      rw [← levelled.secondary space mem]
      exact mem
    · intro p hp
      obtain ⟨sealed, hne⟩ := h.processes p hp
      obtain ⟨lv', away, hnone⟩ := sealed.away
      exact ⟨sealed.congr sealed.listed ⟨lv', ⟨away.heap.setRegs _, away.secondary, away.roots⟩,
        hnone⟩ sealed.spent fun _ _ => rfl, hne⟩
  | newProcessSpace =>
    have hcall : ∀ space, VSpace.Call.newProcessSpace ≠ .activate space := fun _ hc => by cases hc
    obtain ⟨lv, levelled⟩ := h.levelled
    have windowed := h.windowed
    have own := h.own
    rw [← h.kernel] at windowed own
    have level := (levelled.roots _ own).level
    obtain ⟨root, pdpt, pd, pts, used, rfl, copied, count⟩ :=
      (newProcessSpace_copied levelled.heap level windowed).ok hexec
    refine h.after hcall hexec fun p hp => ?_
    have frames : spent w.state ⟨m', (some (⟨root, 0⟩ : AddressSpace)).toList ++ w.state.spaces⟩ =
        root :: pdpt :: pd :: used := spent_eq copied.supply
    rcases List.mem_cons.mp hp with rfl | hp
    · rw [frames]
      refine ⟨sealed_new levelled windowed copied count, fun hc => ?_⟩
      refine levelled.heap.not_free level ?_
      have root_eq : root = base := congrArg AddressSpace.primary hc
      rw [copied.supply, h.kernel, ← root_eq]
      exact List.mem_cons_self
    · exact h.elsewhere hcall hexec hp fun hc => absurd rfl hc
  | mapUserPage vaddr phys prot domain =>
    have hcall : ∀ space, VSpace.Call.mapUserPage vaddr phys prot domain ≠ .activate space :=
      fun _ hc => by cases hc
    by_cases hwin : InWindow vaddr
    · rw [account_window hwin]
      refine h.after hcall hexec fun p hp => ?_
      obtain ⟨q, hq, rfl⟩ := List.mem_map.mp hp
      by_cases hmine : q.space = active
      · rw [if_pos hmine]
        obtain ⟨sealed, hne⟩ := h.processes q hq
        obtain ⟨lv, levelled⟩ := h.levelled
        have root : w.state.machine.regs.cr3 = q.space.primary := by rw [hmine, hact]
        obtain ⟨rfl, tables, paged⟩ :=
          sealed.paged (levelled.roots _ sealed.listed).frame root hwin hexec
        rw [spent_eq (s := w.state) (t := ⟨m',
          (none : Option AddressSpace).toList ++ w.state.spaces⟩) paged.supply]
        exact ⟨sealed.mapped paged, hne⟩
      · rw [if_neg hmine]
        refine h.elsewhere hcall hexec hq fun _ => ?_
        rw [← hact]
        exact hmine
    · have acc : account ⟨active, .mapUserPage vaddr phys prot domain⟩ w.state ⟨m',
        made.toList ++ w.state.spaces⟩ w.processes =
          w.processes.filter fun p => p.space ≠ active := if_neg hwin
      rw [acc]
      exact h.after hcall hexec (others _ hcall hexec)
  | mapPage vaddr phys prot =>
    have hcall : ∀ space, VSpace.Call.mapPage vaddr phys prot ≠ .activate space := fun _ hc => by
      cases hc
    exact h.after hcall hexec (others _ hcall hexec)
  | installGuardPage vaddr =>
    have hcall : ∀ space, VSpace.Call.installGuardPage vaddr ≠ .activate space := fun _ hc => by
      cases hc
    exact h.after hcall hexec (others _ hcall hexec)
  | isolate vaddr =>
    have hcall : ∀ space, VSpace.Call.isolate vaddr ≠ .activate space := fun _ hc => by cases hc
    exact h.after hcall hexec (others _ hcall hexec)

/-- **A reap.** -/
theorem Inv.reaped (h : Inv base w) {space : AddressSpace} {vas : List U64}
    (hr : Reaped w space vas w') : Inv base w' := by
  obtain ⟨p, hp, rfl, frames, hown⟩ := hr.owner
  obtain ⟨freed, supply, hreap, machine, hnodup, hsupply⟩ := hr.supply
  obtain ⟨sealed, hne⟩ := h.processes p hp
  obtain ⟨lv, levelled⟩ := h.levelled
  obtain ⟨freed', hreap', perm, _⟩ := sealed.reap hown
  have same : freed' = freed := by
    rw [hreap] at hreap'
    cases hreap'
    rfl
  subst same
  have cases : ∀ f ∈ supply, f ∈ w.state.machine.supply ∨ f ∈ p.frames ++ frames := fun f hf =>
    (hsupply f hf).imp_right fun hc => perm.mem_iff.mp hc
  have frame : ∀ f ∈ supply, entries.IsFrame f := fun f hf => by
    rcases cases f hf with hold | hnew
    · exact levelled.heap.frame f hold
    · exact sealed.frame_all hown (levelled.roots _ sealed.listed).frame hnew
  have free : ∀ f ∈ supply, ∀ other ∈ w.state.spaces.filter (fun other => other ≠ p.space),
      ¬ Reaches w.state.machine.mem other f := fun f hf other ho => by
    obtain ⟨ho, hother⟩ := List.mem_filter.mp ho
    rcases cases f hf with hold | hnew
    · exact fun hc => levelled.reached ho hc (levelled.heap.free f hold)
    · exact sealed.unreached_all hown hnew ho (of_decide_eq_true hother)
  obtain ⟨⟨machine', spaces'⟩, processes'⟩ := w'
  obtain ⟨rfl⟩ : machine' = { w.state.machine with supply := supply } := machine
  obtain ⟨rfl⟩ : spaces' = w.state.spaces.filter fun other => other ≠ p.space := hr.spaces
  obtain ⟨rfl⟩ : processes' = w.processes.filter fun q => q.space ≠ p.space := hr.processes
  constructor
  case levelled =>
    obtain ⟨lv', pruned, _⟩ :=
      (levelled.mono fun s hs => (List.mem_filter.mp hs).1).prune hnodup frame free
    exact ⟨lv', pruned⟩
  case kernel => exact h.kernel
  case own => exact List.mem_filter.mpr ⟨h.own, decide_eq_true hne.symm⟩
  case active => exact List.mem_filter.mpr ⟨h.active, decide_eq_true (Ne.symm hr.inactive)⟩
  case windowed => exact h.windowed
  case processes =>
    intro q hq
    obtain ⟨hq, hqp⟩ := List.mem_filter.mp hq
    have hqp := of_decide_eq_true hqp
    obtain ⟨sealedQ, hneQ⟩ := h.processes q hq
    obtain ⟨lvQ, away, hnone⟩ := sealedQ.away
    have fewer : ∀ s ∈ (w.state.spaces.filter fun other => other ≠ p.space).filter (fun other =>
      other ≠ q.space), s ∈ w.state.spaces.filter fun other => other ≠ q.space := fun s hs => by
      obtain ⟨hs, hsq⟩ := List.mem_filter.mp hs
      exact List.mem_filter.mpr ⟨(List.mem_filter.mp hs).1, hsq⟩
    obtain ⟨lv', pruned, forgets⟩ := (away.mono fewer).prune hnodup frame fun f hf s hs =>
      free f hf s (List.mem_filter.mp hs).1
    refine ⟨sealedQ.congr (List.mem_filter.mpr ⟨sealedQ.listed, decide_eq_true hqp⟩)
      ⟨lv', pruned, fun f hf => forgets f (hnone f hf)⟩ (fun f hf hc => ?_) fun _ _ => rfl, hneQ⟩
    rcases cases f hc with hold | hnew
    · exact sealedQ.spent f hf hold
    · exact sealed.unreached_all hown hnew sealedQ.listed hqp (sealedQ.reaches hf)

theorem Inv.step (h : Inv base w) {ev : Event} (hs : Step w ev w') : Inv base w' := by
  cases ev with
  | call ev =>
    obtain ⟨hstep, hps⟩ := hs
    have after := h.call hstep
    rw [← hps] at after
    exact after
  | reap space vas => exact h.reaped hs

end

theorem boots_inv (hkm : km.Admitted) (hslots : Slots km) (hm : backend.Supplied m)
    (hboot : backend.Boots km m s) : Inv (kernelSpace s.machine).primary ⟨s, []⟩ := by
  obtain ⟨lv, heap, _, roots⟩ := guarded.boots_inv hkm hm hboot
  obtain ⟨base, kernel, _, traced⟩ := boots_traced hslots hkm.identity hm hboot
  obtain ⟨ty, isolated⟩ := traced.isolated
  rw [kernel]
  refine ⟨⟨lv, heap, fun space hs => (isolated.roots space hs).secondary, fun space hs => ?_⟩,
    isolated.kernel, isolated.own, isolated.active, isolated.windowed, fun p hp => by cases hp⟩
  exact roots space hs _ (List.mem_singleton.mpr rfl)

/-- Walks that read none of the changed tables are the same. -/
theorem walk_unreached (hframe : entries.IsFrame space.primary) {mem' : Mem U64}
    (hsame : ∀ f, Reaches m.mem space f → mem' f = m.mem f) (v : U64) :
    walk (inSpace { m with mem := mem' } space) v = walk (inSpace m space) v := by
  have frame : space.primary &&& ADDR_MASK = space.primary := hframe
  have root : Reached entries.format 512 m.mem (fun t => t = space.primary) 3 3 space.primary :=
    .root rfl
  rw [walk_inSpace, walk_inSpace, frame]
  refine congrArg _ (Reached.walk_eq (index_lt v) (fun n t ht i _ => ?_) root)
  show mem' t i = m.mem t i
  rw [hsame t ⟨n, ht⟩]

/-! ## Frames that are no tables -/

/-- `f` is no table, and will not be made one. -/
structure Unused (f : U64) (s : backend.State) : Prop where
  spent : f ∉ s.machine.supply
  level : ∃ lv, Levelled lv s.machine s.spaces ∧ lv f = none

theorem boots_unused (hkm : km.Admitted) (hslots : Slots km) (hm : backend.Supplied m)
    (hboot : backend.Boots km m s) (hf : f ∉ m.supply) : Unused f s := by
  have pages : ∀ (i : Nat) pa prot, ImageAddr km pa → backend.Allowed 0 (entries.page pa prot) := fun _ pa prot hpa =>
    allowed_page prot (has_aligned (hpa.trans hkm.phys) (by decide))
  obtain ⟨base, _, _, traced⟩ := boots_traced hslots hkm.identity hm hboot
  obtain ⟨ty, isolated⟩ := traced.isolated
  obtain ⟨space, m', hsetup, rfl⟩ := hboot
  have setup : Ends (do let space ← buildAddressSpace km; let _ ← exec (.activate space); pure space) m
      (fun space m' => f ∉ m'.supply ∧ ∃ lv, Heap entries backend.shape lv m' ∧
      IsRoot entries lv space.primary ∧ lv f = none) (fun _ _ => True) := by
    rw [ends_bind]
    refine (buildAddressSpace_grown keeps (r := 3) rfl (.empty hm.nodup hm.frame) km
      (fun _ _ _ _ => allowed_block _) pages).imp_any fun space m' hQ => ?_
    obtain ⟨frame, _, spends, lv, heap, root, fresh⟩ := hQ
    rw [ends_bind]
    exact ⟨fun hc => hf (spends f hc), lv, heap.setRegs _, ⟨frame, root⟩, fresh f hf⟩
  obtain ⟨hspent, lv, heap, root, hnone⟩ := setup.ok hsetup
  refine ⟨hspent, lv, ⟨heap, fun other ho => (isolated.roots other ho).secondary, fun other ho =>
    ?_⟩, hnone⟩
  cases List.mem_singleton.mp ho
  exact root

theorem Unused.call {base : U64} (h : Unused f w.state) (hinv : Inv base w)
    (hs : backend.Step w.state ev t) : Unused f t := by
  obtain ⟨_, _, made, m', hexec, rfl⟩ := hs
  obtain ⟨hspent, lv, levelled, hnone⟩ := h
  by_cases hcall : ∀ space, ev.call ≠ .activate space
  · have windowed := hinv.windowed
    have own := hinv.own
    rw [← hinv.kernel] at windowed own
    obtain ⟨lv', left, levelled', _⟩ :=
      levelled.call hcall (fun _ => hinv.active) own windowed hexec
    refine ⟨fun hc => hspent (left.grown.spends f hc), lv', levelled', ?_⟩
    rw [left.grown.same f hspent]
    exact hnone
  · obtain ⟨space, hc⟩ := not_forall.mp hcall
    rw [not_not.mp hc] at hexec
    cases hexec
    exact ⟨hspent, lv, ⟨levelled.heap.setRegs _, levelled.secondary, levelled.roots⟩, hnone⟩

theorem Unused.plain (h : Unused f s) (hs : space ∈ s.spaces) :
    ¬ Reaches s.machine.mem space f := by
  obtain ⟨_, lv, levelled, hnone⟩ := h
  exact fun hr => levelled.reached hs hr hnone

/-- **Reaping conserves frames.**  From boot on, through any calls with any spaces active and any
reaps, take a process space that since `new_process_space` was edited by `map_user_page` in the
window only, and pages of it as `Owns` says.  `reap_process_space` frees exactly the frames that
were allocated for its tables and those of the pages, each once, and returns their number.  No
walk from the kernel's space or from any other reads a freed frame, so that these walks are the
same whatever the freed frames hold from then on. -/
theorem reap_conserves (km : KernelMap) (hkm : km.Admitted) (hslots : Slots km) (m : Machine Regs)
    (hm : backend.Supplied m) (s : backend.State) (hboot : backend.Boots km m s) (tr : List Event)
    (w : World) (hrun : Run Step ⟨s, []⟩ tr w) (p : Process) (hp : p ∈ w.processes)
    (vas frames : List U64) (hown : Owns w p vas frames) :
    kernelSpace w.state.machine ∈ w.state.spaces ∧ kernelSpace w.state.machine ≠ p.space ∧
      ∃ freed, reapProcessSpace p.space vas w.state.machine = .ok freed w.state.machine ∧
        freed.frames.Perm (p.frames ++ frames) ∧ freed.frames.Nodup ∧
          freed.count.toNat = freed.frames.length ∧
        ∀ space ∈ w.state.spaces, space ≠ p.space →
          (∀ f ∈ freed.frames, ¬ Reaches w.state.machine.mem space f) ∧
          ∀ mem' : Mem U64, (∀ f, f ∉ freed.frames → mem' f = w.state.machine.mem f) → ∀ v,
            walk (inSpace { w.state.machine with mem := mem' } space) v = walk
              (inSpace w.state.machine space) v := by
  have inv := hrun.inv (Inv (kernelSpace s.machine).primary) (boots_inv hkm hslots hm hboot) fun _ _
    _ h hs => h.step hs
  obtain ⟨sealed, hne⟩ := inv.processes p hp
  have kernel : kernelSpace w.state.machine = ⟨(kernelSpace s.machine).primary, 0⟩ :=
    congrArg (fun root => (⟨root, 0⟩ : AddressSpace)) inv.kernel
  rw [kernel]
  refine ⟨inv.own, hne.symm, ?_⟩
  obtain ⟨freed, hreap, perm, nodup, count⟩ := sealed.reap hown
  refine ⟨freed, hreap, perm, nodup, count, fun space hs hother => ?_⟩
  have unreached : ∀ f ∈ freed.frames, ¬ Reaches w.state.machine.mem space f := fun f hf =>
    sealed.unreached_all hown (perm.mem_iff.mp hf) hs hother
  refine ⟨unreached, fun mem' hmem v => ?_⟩
  obtain ⟨lv, levelled⟩ := inv.levelled
  exact walk_unreached (levelled.roots space hs).frame (fun f hf => hmem f fun hc =>
    unreached f hc hf) v

theorem step_call (h : backend.Step w.state ev t) :
    Step w (.call ev) ⟨t, account ev w.state t w.processes⟩ := ⟨h, rfl⟩

/-- A process with a page, on its account. -/
theorem plain_account :
    ∃ (s : backend.State) (tr : List Event) (w : World) (p : Process),
    backend.Boots plainMap plainMachine s ∧ Run Step ⟨s, []⟩ tr w ∧ p ∈ w.processes ∧
      Owns w p [0x40001000] [0x300000] := by
  obtain ⟨s, t, space, hboot, _, hother, hrun⟩ := plain_run
  have inv0 := boots_inv plainMap_admitted plainMap_slots plainMachine_supplied hboot
  have unused0 : Unused 0x300000 s := by
    refine boots_unused plainMap_admitted plainMap_slots plainMachine_supplied hboot fun hc => ?_
    exact absurd (plainFrames_le (Nat.le_refl 600) hc) (by decide)
  have only : s.spaces = [kernelSpace s.machine] := by
    obtain ⟨space0, m0, _, rfl⟩ := hboot
    exact congrArg (fun space => [space]) (List.mem_singleton.mp inv0.own).symm
  obtain ⟨s1, h1, hrun⟩ := hrun.cons_inv
  obtain ⟨s2, h2, hrun⟩ := hrun.cons_inv
  obtain ⟨s3, h3, hrun⟩ := hrun.cons_inv
  cases hrun.nil_inv
  have inv1 := inv0.call h1
  have inv2 := inv1.call h2
  have unused1 := unused0.call inv0 h1
  have unused2 := unused1.call (w := ⟨s1, _⟩) inv1 h2
  have unused3 := unused2.call (w := ⟨s2, _⟩) inv2 h3
  -- the new space is the one made active
  have made : s1.spaces = space :: s.spaces := by
    have listed := h2.2.1 space rfl
    obtain ⟨_, _, made, m1, exec1, rfl⟩ := h1
    obtain ⟨lv, levelled⟩ := inv0.levelled
    have windowed := inv0.windowed
    have own := inv0.own
    rw [← inv0.kernel] at windowed own
    obtain ⟨root, _, _, _, _, rfl, _⟩ :=
      (newProcessSpace_copied levelled.heap (levelled.roots _ own).level windowed).ok exec1
    rcases List.mem_cons.mp listed with rfl | hc
    · rfl
    · change space ∈ s.spaces at hc
      rw [only] at hc
      exact absurd (List.mem_singleton.mp hc) hother
  have acc1 : account ⟨kernelSpace s.machine, .newProcessSpace⟩ s s1 [] =
    [⟨space, spent s s1, fun _ => none⟩] := by
    show s1.spaces.head?.toList.map _ ++ [] = _
    rw [made]
    rfl
  have acc3 : account ⟨space, .mapUserPage 0x40001000 0x300000 .rw 0⟩ s2 t
    [⟨space, spent s s1, fun _ => none⟩] =
      [Process.mapped ⟨space, spent s s1, fun _ => none⟩ 0x40001000 0x300000 (spent s2 t)] := by
    rw [account_window (by decide), List.map_cons, if_pos rfl]
    rfl
  have run : Run Step ⟨s, []⟩ [.call _, .call _, .call _] ⟨t, _⟩ :=
    .cons (step_call h1) (.cons (step_call h2) (.cons (step_call h3) (.nil _)))
  refine ⟨s, _, _, Process.mapped ⟨space, spent s s1, fun _ => none⟩ 0x40001000 0x300000
    (spent s2 t), hboot, run, ?_, ?_, ?_, ?_, ?_, ?_⟩
  · show _ ∈ account ⟨space, .mapUserPage 0x40001000 0x300000 .rw 0⟩ s2 t
      (account ⟨kernelSpace s.machine, .newProcessSpace⟩ s s1 [])
    rw [acc1, acc3]
    exact List.mem_singleton.mpr rfl
  · simp only [List.forall_mem_singleton]
    decide
  · exact List.nodup_singleton _
  · rfl
  · exact List.nodup_singleton _
  · intro f hf space hs
    rw [List.mem_singleton.mp hf]
    exact unused3.plain hs

/-- The process of `plain_account` is reaped, with its page. -/
theorem reap_conserves_plain :
    ∃ (s : backend.State) (w : World) (p : Process) (freed : Freed),
    backend.Boots plainMap plainMachine s ∧ p ∈ w.processes ∧
      reapProcessSpace p.space [0x40001000] w.state.machine = .ok freed w.state.machine ∧
      freed.frames.Perm (p.frames ++ [0x300000]) ∧ freed.frames.Nodup ∧
        freed.count.toNat = freed.frames.length := by
  obtain ⟨s, tr, w, p, hboot, hrun, hp, hown⟩ := plain_account
  obtain ⟨_, _, freed, hreap, perm, nodup, count, _⟩ :=
    reap_conserves plainMap plainMap_admitted plainMap_slots plainMachine plainMachine_supplied s
    hboot tr w
    hrun p hp _ _ hown
  exact ⟨s, w, p, freed, hboot, hp, hreap, perm, nodup, count⟩

end X86

end Praesidium
