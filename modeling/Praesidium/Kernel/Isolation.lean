import Praesidium.Kernel.PagingBoot
import Praesidium.Kernel.Ring3
import Praesidium.Kernel.VSpace
import Mathlib.Data.List.Nodup

/-!
Per-process page tables isolate (x86-64).

`Isolated` is kept by every permitted call, whatever the space it is made in, and a call
changes what ring 3 reaches only in the space that is active and on the page it names
(`Effect`).  Over a run, what ring 3 reaches is what the last edit of the page left there:

    ring3 space v = some (0, userLeaf ..) if that was a mapUserPage, none otherwise
        (ring3_lastEdit)
-/

namespace Praesidium

open Fallible Flags Paging Radix

namespace VSpace

/-- The address whose page a call edits. -/
def Call.target : Call → Option U64
  | .mapPage vaddr _ _ => some vaddr
  | .mapUserPage vaddr _ _ _ => some vaddr
  | .installGuardPage vaddr => some vaddr
  | _ => none

/-- The page of `v` in `space` is edited. -/
def Event.edits (space : AddressSpace) (v : U64) (ev : Event) : Bool :=
  decide (ev.active = space) && ev.call.target.any fun w => pageNumber w == pageNumber v

theorem Event.not_edits {ev : Event} (h : ev.call.target = none) (space : AddressSpace) (v : U64) :
    ev.edits space v = false := by
  rw [edits, h]
  exact Bool.and_false _

def lastEdit (tr : List Event) (space : AddressSpace) (v : U64) : Option Call :=
  (tr.filter (Event.edits space v)).getLast?.map Event.call

theorem lastEdit_snoc (tr : List Event) (ev : Event) (space : AddressSpace) (v : U64) :
    lastEdit (tr ++ [ev]) space v = if ev.edits space v then some ev.call else lastEdit tr
      space v := by
  unfold lastEdit
  rw [List.filter_append]
  cases h : ev.edits space v with
  | true => simp [h]
  | false => simp [h]

theorem lastEdit_of_inactive {tr : List Event} {space : AddressSpace}
    (h : ∀ ev ∈ tr, ev.active ≠ space) (v : U64) : lastEdit tr space v = none := by
  unfold lastEdit
  have none_left : tr.filter (Event.edits space v) = [] := by
    refine List.filter_eq_nil_iff.mpr fun ev hev => ?_
    unfold Event.edits
    rw [decide_eq_false (h ev hev)]
    simp
  rw [none_left]
  rfl

end VSpace

namespace X86

open VSpace

/-! ## What is observed -/

/-- The machine with `space` active. -/
def inSpace (m : Machine Regs) (space : AddressSpace) : Machine Regs :=
  { m with regs := m.regs.load space }

/-- What ring 3 reaches in a space. -/
def ring3 (m : Machine Regs) (space : AddressSpace) (v : U64) : Option (Nat × U64) :=
  ring3From m.mem (space.primary &&& ADDR_MASK) v

/-- What an edit leaves to ring 3. -/
def shownBy : VSpace.Call → Option (Nat × U64)
  | .mapUserPage _ phys prot domain => some (0, userLeaf phys prot domain)
  | _ => none

/-- The calls that processes and the kernel make while no domain is carved out of a space: pages
for ring 3 are mapped for processes only, in their window. -/
structure Permitted (base : AddressSpace) (ev : VSpace.Event) : Prop where
  shared : ∀ v, ev.call ≠ .isolate v
  user : ∀ v phys prot domain, ev.call = .mapUserPage v phys prot domain →
    ev.active ≠ base ∧ 0x40000000 ≤ v.toNat ∧ v.toNat < 0x80000000

theorem walk_inSpace (m : Machine Regs) (space : AddressSpace) (v : U64) :
    walk (inSpace m space) v =
      (seenFrom m.mem (space.primary &&& ADDR_MASK) v).map fun (level, e) =>
        (e, offsetMask level) :=
  walkFrom_eq _ _ v

/-! ## The invariant -/

structure IsSpace (ty : U64 → Option (Place U64)) (space : AddressSpace) : Prop where
  secondary : space.secondary = 0
  frame : entries.IsFrame space.primary
  place : ty space.primary = some ⟨space.primary, []⟩

variable {ty : U64 → Option (Place U64)} {space : AddressSpace} {m : Machine Regs}

theorem IsSpace.mono {ty' : U64 → Option (Place U64)} (h : IsSpace ty space)
    (hty : Extends ty ty') :
    IsSpace ty' space := ⟨h.secondary, h.frame, hty _ _ h.place⟩

theorem IsSpace.ring3_eq (h : IsSpace ty space) (m : Machine Regs) (v : U64) :
    ring3 m space v = ring3From m.mem space.primary v := by
  have frame : space.primary &&& ADDR_MASK = space.primary := h.frame
  rw [ring3, frame]

structure Isolated (base : U64) (ty : U64 → Option (Place U64)) (m : Machine Regs)
    (spaces : List AddressSpace) : Prop where
  heap : Heap entries (userShape base) ty m
  windowed : Windowed entries base m.mem
  kernel : m.regs.kernelPml4 = base
  own : ⟨base, 0⟩ ∈ spaces
  active : ⟨m.regs.cr3, 0⟩ ∈ spaces
  roots : ∀ space ∈ spaces, IsSpace ty space
  closed : ∀ space ∈ spaces, space.primary ≠ base → Closed m.mem space.primary

section

variable {base : U64} {ty : U64 → Option (Place U64)} {m m' : Machine Regs}
  {spaces : List AddressSpace}

/-- **Ring 3 reaches nothing in the kernel's space.** -/
theorem Isolated.ring3_base (h : Isolated base ty m spaces) (v : U64) :
    ring3From m.mem base v = none := by
  refine Option.eq_none_iff_forall_ne_some.mpr fun y hy => ?_
  exact (ring3From_window (n := y.1) (e := y.2) h.heap (h.roots _ h.own).place hy).1 rfl

theorem Isolated.active_frame (h : Isolated base ty m spaces) :
    m.regs.cr3 &&& ADDR_MASK = m.regs.cr3 :=
  (h.roots _ h.active).frame

variable {v e : U64}

/-- An edit in the active space, `y` what it leaves on the page of `v`. -/
theorem Isolated.edit {ty' : U64 → Option (Place U64)} {y : Option (Nat × U64)}
    (h : Isolated base ty m spaces) (grown : Grows entries (userShape base) ty m ty' m')
    (hc : OwnedChange base m.regs.cr3 ty m m')
    (hshow : m.regs.cr3 ≠ base → Shows m.regs.cr3 v y m m') (hbase : m.regs.cr3 = base → y = none) :
    Isolated base ty' m' spaces ∧
      ∀ space ∈ spaces, ∀ w, ring3 m' space w =
        if space.primary = m.regs.cr3 ∧ path w = path v then y else ring3 m space w := by
  have hty := grown.keeps h.heap
  have isolated : Isolated base ty' m' spaces := by
    refine ⟨grown.heap, hc.windowed h.heap (h.roots _ h.own).place h.windowed, ?_, h.own, ?_,
      fun space hs => (h.roots space hs).mono hty, fun space hs hsb => ?_⟩
    · rw [grown.regs]; exact h.kernel
    · rw [grown.regs]; exact h.active
    · by_cases hact : space.primary = m.regs.cr3
      · rw [hact] at hsb ⊢
        exact (hshow hsb).closed
      · exact closed_other h.heap hc (h.roots space hs).place hsb hact (h.closed space hs hsb)
  refine ⟨isolated, fun space hs w => ?_⟩
  rw [(h.roots space hs).ring3_eq, (h.roots space hs).ring3_eq]
  by_cases hact : space.primary = m.regs.cr3
  · by_cases hb : m.regs.cr3 = base
    · rw [hact, hb, isolated.ring3_base, h.ring3_base, hbase hb, ite_self]
    · rw [hact]
      split
      · next hw => exact (hshow hb).page w hw.2
      · next hw => exact (hshow hb).off w fun hc => hw ⟨rfl, hc⟩
  · rw [if_neg fun hc => hact hc.1]
    exact ring3From_other h.heap grown.heap hty hc (h.roots space hs).place hact w

/-- An edit for the kernel. -/
theorem Isolated.edit_kernel (h : Isolated base ty m spaces) (hu : has e USER = false)
    (he : Edited entries m.regs.cr3 v e m m') :
    ∃ ty', OwnedChange base m.regs.cr3 ty m m' ∧ m'.regs = m.regs ∧ Isolated base ty' m' spaces ∧
      ∀ space ∈ spaces, ∀ w, ring3 m' space w =
        if space.primary = m.regs.cr3 ∧ path w = path v then none else ring3 m space w := by
  have place := (h.roots _ h.active).place
  have owned := editedOwned h.heap place he
  obtain ⟨ty', grown⟩ := he.typed lawful userKeeps h.heap (s := m.regs.cr3) place fun _ hc => by
    rw [hu] at hc
    cases hc
  refine ⟨ty', owned, grown.regs, h.edit grown owned (fun hsb => ?_) fun _ => rfl⟩
  exact editedShows h.heap place grown.heap (grown.keeps h.heap) (h.closed _ h.active hsb) hu he

theorem userLeaf_present (phys : U64) (prot : Prot) (domain : U64) :
    has (userLeaf phys prot domain) PRESENT = true := by
  have bits : has (leafBits prot) PRESENT = true := by
    decide +revert
  exact has_or_left _ (has_or_left _ (has_or_right _ bits))

theorem userLeaf_user (phys : U64) (prot : Prot) (domain : U64) :
    has (userLeaf phys prot domain) USER = true :=
  has_or_left _ (has_or_right _ (by decide))

/-- An edit for ring 3. -/
theorem Isolated.edit_user (h : Isolated base ty m spaces) (hsb : m.regs.cr3 ≠ base)
    (hv : window (path v) = true) (hp : has e PRESENT = true) (huser : has e USER = true)
    (hu : UserMapped m.regs.cr3 v e m m') :
    ∃ ty', OwnedChange base m.regs.cr3 ty m m' ∧ m'.regs = m.regs ∧ Isolated base ty' m' spaces ∧
      ∀ space ∈ spaces, ∀ w, ring3 m' space w =
        if space.primary = m.regs.cr3 ∧ path w = path v then some (0, e) else ring3 m space w := by
  have place := (h.roots _ h.active).place
  obtain ⟨ty', grown, marks, owned⟩ := hu.steps h.heap place hsb hv
  refine ⟨ty', owned, grown.regs, h.edit grown owned (fun _ => ?_) fun hc => absurd hc hsb⟩
  exact hu.shows h.heap place hsb hv hp huser (h.closed _ h.active hsb) grown.heap
    (grown.keeps h.heap _ _ place) marks

/-! ## A new process -/

variable {root pdpt pd : U64} {pts : Nat → U64} {used : List U64}

/-- The pages of the kernel's window are not for ring 3. -/
theorem Isolated.base_closed (h : Isolated base ty m spaces) {w : U64} (hw : window (path w) = true)
    {n : Nat} (hseen : seenFrom m.mem base w = some (n, e)) : has e USER = false := by
  refine eq_false_of_ne_true fun hu => ?_
  have place : ty base = some ((windowOwners base).place base []) := by
    rw [place_base rfl]
    exact (h.roots _ h.own).place
  obtain ⟨r, level, leaf, onPath⟩ := h.heap.typed.walk (index_lt w) place hseen
  obtain ⟨q, rfl, hq⟩ := Owners.onPath_place onPath
  rw [List.nil_append, place_base rfl] at leaf
  exact (leaf hu).2 (window_initial hq hw) rfl

section

variable (h : Isolated base ty m spaces)
  (hc : WindowCopied entries base m root pdpt pd pts used m')

include h hc

/-- Tables with a place are not touched by a copy. -/
theorem Isolated.copy_owned (s : U64) :
    OwnedChange base s ty m m' :=
  fun _ _ i ht hne => absurd (congrFun (hc.mem_placed h.heap ht) i) hne

/-- No entry of the kernel's root is for ring 3, and the copies are not either. -/
theorem Isolated.copy_root {i : Nat} (hi : i < 512) (hp : has (m'.mem root i) PRESENT = true) :
    has (m'.mem root i) USER = false := by
  have plain : has (m.mem base i) PRESENT = true → has (m.mem base i) USER = false :=
    fun present => by
    refine eq_false_of_ne_true fun hu => ?_
    have link := (h.heap.typed base _ (h.roots _ h.own).place i hi).link present
      (by decide : (3 : Nat) ≠ 0) rfl
    exact (link.1 hu).1 rfl
  by_cases h0 : i = 0
  · subst h0
    have frame := (hc.frames h.heap.frame).2.1
    rw [hc.root_window] at hp ⊢
    rw [has_moved_user _ frame]
    exact plain ((lawful.present_moved pdpt _ frame).symm.trans hp)
  · rw [hc.root_other i hi h0] at hp ⊢
    exact plain hp

theorem Isolated.copy :
    ⟨root, 0⟩ ∉ spaces ∧ (∀ w, ring3 m' ⟨root, 0⟩ w = none) ∧
      (∀ space ∈ spaces, ∀ w, ring3 m' space w = ring3 m space w) ∧
      ∃ ty', Isolated base ty' m' (⟨root, 0⟩ :: spaces) := by
  have base_place := (h.roots _ h.own).place
  obtain ⟨ty', grown, root_place⟩ :=
    hc.typed (s := root) h.heap lawful userKeeps base_place (h.windowed.topped lawful).1
      userInherits rfl rfl
  have hty := grown.keeps h.heap
  have other : ∀ space ∈ spaces, space.primary ≠ root := fun space hs =>
    (hc.not_supply (h.heap.not_free (h.roots space hs).place)).1
  have root_frame := (hc.frames h.heap.frame).1
  have owned := h.copy_owned hc root
  have fresh : ∀ w, ring3From m'.mem root w = none := fun w => by
    refine Option.eq_none_iff_forall_ne_some.mpr fun y hy => ?_
    have both : has (m'.mem root (index w 3)) PRESENT = true ∧
      has (m'.mem root (index w 3)) USER = true := Bool.and_eq_true_iff.mp (walk_present hy)
    rw [h.copy_root hc (index_lt w 3) both.1] at both
    cases both.2
  have root_space : IsSpace ty' ⟨root, 0⟩ := ⟨rfl, root_frame, root_place⟩
  refine ⟨fun hs => other _ hs rfl, fun w => ?_, fun space hs w => ?_, ty', ?_⟩
  · rw [root_space.ring3_eq]
    exact fresh w
  · rw [(h.roots space hs).ring3_eq, (h.roots space hs).ring3_eq]
    exact ring3From_other h.heap grown.heap hty owned (h.roots space hs).place (other space hs) w
  · refine ⟨grown.heap, owned.windowed h.heap base_place
      h.windowed, by rw [grown.regs]; exact h.kernel, List.mem_cons_of_mem _
      h.own, by rw [grown.regs]; exact List.mem_cons_of_mem _ h.active, ?_, ?_⟩
    · intro space hs
      rcases List.mem_cons.mp hs with rfl | hs
      · exact root_space
      · exact (h.roots space hs).mono hty
    · intro space hs hsb
      rcases List.mem_cons.mp hs with rfl | hs
      · -- a copy starts with the pages of the kernel, none of them for ring 3
        intro w n e hw hseen hu
        have same : seenFrom m'.mem root w = seenFrom m.mem base w :=
          hc.walk_eq h.heap lawful userKeeps base_place (h.windowed.topped lawful).1 w
        rw [same] at hseen
        rw [h.base_closed hw hseen] at hu
        cases hu
      · exact closed_other h.heap owned (h.roots space hs).place hsb (other space hs)
          (h.closed space hs hsb)

end

end

/-! ## One call -/

section

variable {base : U64} {ty : U64 → Option (Place U64)} {s t : backend.State} {ev : VSpace.Event}

/-- What a call does to what is reached. -/
structure Effect (base : U64) (s : backend.State) (ev : VSpace.Event) (t : backend.State) :
    Prop where
  active : ev.active ∈ s.spaces
  kept : ∀ space ∈ s.spaces, space ∈ t.spaces
  shown : ∀ space ∈ s.spaces, ∀ w, ring3 t.machine space w =
    if ev.edits space w then shownBy ev.call else ring3 s.machine space w
  fresh : ∀ space ∈ t.spaces, space ∉ s.spaces → ∀ w, ring3 t.machine space w = none
  apart : ∀ space ∈ s.spaces, space ≠ ev.active → space ≠ ⟨base, 0⟩ → ∀ w, window (path w) = true →
    seenFrom t.machine.mem (space.primary &&& ADDR_MASK) w = seenFrom s.machine.mem
    (space.primary &&& ADDR_MASK) w

variable {m' m : Machine Regs} {call : VSpace.Call} {v : U64}

theorem edits_iff {cr3 : U64} (htarget : call.target = some v) {space : AddressSpace}
    (hspace : space.secondary = 0) (w : U64) :
    VSpace.Event.edits space w ⟨⟨cr3, 0⟩, call⟩ = true ↔ space.primary = cr3 ∧
      path w = path (pageAlign v) := by
  have same : (⟨cr3, 0⟩ : AddressSpace) = space ↔ space.primary = cr3 := by
    constructor
    · intro hc
      rw [← hc]
    · intro hc
      rw [← hc, ← hspace]
  unfold VSpace.Event.edits
  rw [htarget, path_pageAlign, path_eq_iff, Option.any_some, Bool.and_eq_true, decide_eq_true_iff,
    same, beq_iff_eq, eq_comm (a := pageNumber v)]

theorem newProcessSpace_copies (hnodup : m.supply.Nodup) {kbase : U64}
    (hk : m.regs.kernelPml4 = kbase) (hw : WindowSettled entries kbase m) :
    Ends (exec .newProcessSpace) m
      (fun made m' => ∃ root pdpt pd pts used, made = some ⟨root, 0⟩ ∧
        WindowCopied entries kbase m root pdpt pd pts used m')
      (fun e _ => e = .outOfFrames ∧ m.supply.length < 515) := by
  subst hk
  refine ends_newProcessSpace ((cloneWindow_spec hnodup hw).imp_ok fun root m' hQ => ?_)
  obtain ⟨pdpt, pd, pts, used, copied⟩ := hQ
  exact ⟨root, pdpt, pd, pts, used, rfl, copied⟩

theorem newProcessSpace_spec (h : Isolated base ty m s.spaces) :
    Ends (exec .newProcessSpace) m
      (fun made m' => ∃ root pdpt pd pts used, made = some ⟨root, 0⟩ ∧
        WindowCopied entries base m root pdpt pd pts used m')
      (fun e _ => e = .outOfFrames ∧ m.supply.length < 515) :=
  newProcessSpace_copies h.heap.nodup h.kernel
    ((h.windowed.topped lawful).1.settled lawful userKeeps h.heap (h.roots _ h.own).place)

section

variable (h : Isolated base ty s.machine s.spaces)

include h

/-- A change of what the active space owns shows in no other window. -/
theorem Isolated.apart {x : U64} (hx : ∀ space ∈ s.spaces, space ≠ ev.active → space.primary ≠ x)
    (hc : OwnedChange base x ty s.machine m') :
    ∀ space ∈ s.spaces, space ≠ ev.active → space ≠ ⟨base, 0⟩ → ∀ w, window (path w) = true →
      seenFrom m'.mem (space.primary &&& ADDR_MASK) w = seenFrom s.machine.mem
        (space.primary &&& ADDR_MASK) w := by
  intro space hs hact hbase w hw
  have isSpace := h.roots space hs
  have frame : space.primary &&& ADDR_MASK = space.primary := isSpace.frame
  have other : space.primary ≠ base := fun hcb => hbase (by rw [← hcb, ← isSpace.secondary])
  rw [frame]
  exact walk_other h.heap.typed hc isSpace.place other (hx space hs hact) hw

theorem Isolated.effect_edit (htarget : call.target = some v)
    (hc : OwnedChange base s.machine.regs.cr3 ty s.machine m')

    (hring : ∀ space ∈ s.spaces, ∀ w, ring3 m' space w = if space.primary = s.machine.regs.cr3 ∧
    path w = path (pageAlign v) then shownBy call else ring3 s.machine space w) :
    Effect base s ⟨⟨s.machine.regs.cr3, 0⟩, call⟩ ⟨m', s.spaces⟩ where
  active := h.active
  kept _ hs := hs
  shown space hs w := by
    rw [hring space hs w]
    exact if_congr (edits_iff htarget (h.roots space hs).secondary w).symm rfl rfl
  fresh space hs hnot := absurd hs hnot
  apart := h.apart (fun space hs hact hx => hact (by rw [← hx, ← (h.roots space hs).secondary])) hc

/-- **One permitted call.** -/
theorem Isolated.step (hp : Permitted ⟨base, 0⟩ ev) (hs : backend.Step s ev t) :
    Effect base s ev t ∧ ∃ ty', Isolated base ty' t.machine t.spaces := by
  obtain ⟨hactive, hspace, made, m', hexec, rfl⟩ := hs
  obtain ⟨active, call⟩ := ev
  cases hactive
  cases call with
  | activate space =>
    have mem := hspace space rfl
    cases hexec
    have kept := h.roots space mem
    refine ⟨⟨h.active, fun _ hs => hs, fun _ _ _ => ?_, fun _ hs hnot => absurd hs hnot,
      fun _ _ _ _ _ _ => rfl⟩, ty,
      h.heap.setRegs _, h.windowed, h.kernel, h.own, ?_, h.roots, h.closed⟩
    · rw [VSpace.Event.not_edits rfl]
      rfl
    · show (⟨space.primary, 0⟩ : AddressSpace) ∈ s.spaces
      rw [← kept.secondary]
      exact mem
  | newProcessSpace =>
    obtain ⟨root, pdpt, pd, pts, used, rfl, copied⟩ := (newProcessSpace_spec h).ok hexec
    obtain ⟨hnew, fresh, same, ty', isolated⟩ := h.copy copied
    have root_ne : ∀ space ∈ s.spaces, space.primary ≠ root := fun space hs hc =>
      hnew (by rw [← hc, ← (h.roots space hs).secondary]; exact hs)
    refine ⟨⟨h.active, fun _ hs => List.mem_cons_of_mem _ hs, fun space hs w =>
      ?_, fun space hs hnot w => ?_,
      h.apart (fun space hs _ => root_ne space hs) (h.copy_owned copied root)⟩, ty', isolated⟩
    · rw [VSpace.Event.not_edits rfl]
      exact same space hs w
    · rcases List.mem_cons.mp hs with rfl | hs
      · exact fresh w
      · exact absurd hs hnot
  | mapPage vaddr phys prot =>
    obtain ⟨rfl, edited⟩ := (ends_edit (mapPage_spec h.active_frame vaddr phys prot)).ok hexec
    have plain : has ((phys &&& ADDR_MASK) ||| leafBits prot) USER = false := by
      rw [has_or, has_leafBits_user, Bool.or_false]
      exact Entries.has_frame (d := entries) (Entries.isFrame_next phys) (by decide)
    obtain ⟨ty', owned, _, isolated, hring⟩ := h.edit_kernel plain edited
    exact ⟨h.effect_edit (v := vaddr) rfl owned hring, ty', isolated⟩
  | mapUserPage vaddr phys prot domain =>
    obtain ⟨rfl, mapped⟩ :=
      (ends_edit (mapUserPage_spec h.heap (h.roots _ h.active).place h.active_frame vaddr phys prot
      domain)).ok hexec
    obtain ⟨hact, range⟩ := hp.user vaddr phys prot domain rfl
    have hsb : s.machine.regs.cr3 ≠ base := fun hc => hact (by rw [← hc])
    have hwin : window (path (pageAlign vaddr)) = true := by
      rw [path_pageAlign]
      exact window_path vaddr range
    obtain ⟨ty', owned, _, isolated, hring⟩ :=
      h.edit_user hsb hwin (userLeaf_present phys prot domain)
      (userLeaf_user phys prot domain) mapped
    exact ⟨h.effect_edit (v := vaddr) rfl owned hring, ty', isolated⟩
  | installGuardPage vaddr =>
    obtain ⟨rfl, edited⟩ := (ends_edit (installGuardPage_spec h.active_frame vaddr)).ok hexec
    obtain ⟨ty', owned, _, isolated, hring⟩ := h.edit_kernel (has_zero USER) edited
    exact ⟨h.effect_edit (v := vaddr) rfl owned hring, ty', isolated⟩
  | isolate vaddr => exact absurd rfl (hp.shared vaddr)

end

end

/-! ## Boot -/

/-- The kernel's space is active and isolated, with its window mapped. -/
structure Booted (base : U64) (ty : U64 → Option (Place U64)) (m : Machine Regs) : Prop where
  isolated : Isolated base ty m [⟨base, 0⟩]
  active : m.regs.cr3 = base
  mapped : ∀ v, window (path v) = true → entries.Mapped m.mem base v

/-- The leaves of the physical map are not for ring 3. -/
theorem block_plain (g j : Nat) :
    has (entries.block (BitVec.ofNat 64 g <<< 30 ||| BitVec.ofNat 64 j <<< 21)) USER = false := by
  have shifted : ∀ (n k : Nat), has (BitVec.ofNat 64 n <<< (12 + k)) USER = false := fun n k => by
    refine has_aligned ?_ (by decide)
    rw [BitVec.toNat_shiftLeft, Nat.shiftLeft_eq, Nat.pow_add, Nat.mul_left_comm]
    omega
  show has (BitVec.ofNat 64 g <<< 30 ||| BitVec.ofNat 64 j <<< 21 ||| PRESENT ||| WRITABLE |||
    HUGE ||| NX) USER = false
  have flags : has PRESENT USER = false ∧ has WRITABLE USER = false ∧ has HUGE USER = false ∧
    has NX USER = false := by
    decide
  rw [has_or, has_or, has_or, has_or, has_or, shifted g 18, shifted j 9, flags.1, flags.2.1,
    flags.2.2.1, flags.2.2.2]
  rfl

theorem Built.booted {base : U64} {km : KernelMap} {m' : Machine Regs} {pdpt : U64}
    {pds used : List U64} (hbytes : km.identityBytes = 0x100000000)
    (hframe : ∀ f ∈ m.supply, entries.IsFrame f) (hb : Built km m base pdpt pds used m')
    (heap : Heap entries (userShape base) ty m') (hroot : ty base = some ⟨base, []⟩) :
    Booted base ty { m' with regs := m'.regs.load ⟨base, 0⟩ } := by
  have frame : ∀ t ∈ base :: pdpt :: pds, entries.IsFrame t := fun t ht => by
    refine hframe t ?_
    rw [hb.supply]
    exact List.mem_append_left _ (hb.tables t ht)
  have four : pds.length = 4 := by
    rw [hb.gibs, lowGibs, hbytes]
    decide
  obtain ⟨pd, hpd⟩ : ∃ pd, pds[1]? = some pd := ⟨pds.get ⟨1, by omega⟩, by simp⟩
  have frame_pdpt := frame pdpt (by simp)
  have frame_pd := frame pd (by simp [List.mem_of_getElem? hpd])
  have mapped : ∀ v, window (path v) = true → entries.Mapped m'.mem base v := fun v hv =>
    hb.low.mapped lawful frame_pdpt hpd frame_pd present_block (window_index hv).1
    (window_index hv).2
  have windowed : Windowed entries base m'.mem :=
    (mapped 0x40000000 (window_path _ (by decide))).windowed
  refine ⟨⟨heap.setRegs _, windowed, ?_, List.mem_singleton.mpr rfl, List.mem_singleton.mpr rfl, ?_,
    ?_⟩, rfl, mapped⟩
  · show m'.regs.kernelPml4 = base
    rw [hb.regs]
  · intro space hs
    cases List.mem_singleton.mp hs
    exact ⟨rfl, frame base (by simp), hroot⟩
  · intro space hs hne
    cases List.mem_singleton.mp hs
    exact absurd rfl hne

/-- **Boot.** -/
theorem setup_spec (hm : backend.Supplied m) (km : KernelMap) (hkm : Slots km)
    (hbytes : km.identityBytes = 0x100000000) :
    Ends (do let space ← buildAddressSpace km; let _ ← exec (.activate space); pure space) m
      (fun space m' => ∃ base ty, space = ⟨base, 0⟩ ∧ Booted base ty m' ∧
        m.supply.length = bootFrames km + m'.supply.length ∧ m'.supply ⊆ m.supply ∧
        ∀ v, index v 3 = index km.hhdmOffset 3 → index v 2 < 4 → entries.Mapped m'.mem base v)
      (fun e _ => (e = .outOfFrames ∧ m.supply.length < bootFrames km) ∨
        (e = .overflow ∧ ¬ ImageFits km)) := by
  rw [ends_bind]
  refine (buildAddressSpace_spec hm.nodup km hkm).with_eq.imp (fun space m' hQ =>
    ?_) (fun e _ he => he.2)
  obtain ⟨hrun, pml4, pdpt, pds, used, rfl, hb, tables, _⟩ := hQ
  have typed := buildAddressSpace_grown (S := userShape pml4) (r := ⟨pml4, []⟩) userKeeps rfl
    (.empty hm.nodup hm.frame) km ?_ ?_
  · obtain ⟨_, _, _, ty, heap, root, _⟩ := typed.ok hrun
    rw [ends_bind]
    refine ⟨pml4, ty, rfl, hb.booted hbytes hm.frame heap root, ?_, ?_, fun v h3 h2 => ?_⟩
    · show m.supply.length = bootFrames km + m'.supply.length
      rw [hb.supply, List.length_append, hb.count]
    · show m'.supply ⊆ m.supply
      rw [hb.supply]
      exact List.subset_append_right _ _
    · have frames : ∀ t ∈ used, entries.IsFrame t := fun t ht =>
        hm.frame t (by rw [hb.supply]; exact List.mem_append_left _ ht)
      have four : lowGibs km = 4 := by rw [lowGibs, hbytes]; decide
      exact tables.hhdm.mapped lawful frames present_block h3 (by rw [four]; exact h2)
  · intro i g j _ hu
    rw [block_plain] at hu
    cases hu
  · -- the image lies outside the window
    intro i pa prot _ _
    refine ⟨rfl, fun hwin => absurd hwin ?_⟩
    show ¬ window [index km.kernelVbase 3, index km.kernelVbase 2, index km.kernelVbase 1, i] = true
    simp [window, hkm.kernel]

/-! ## Runs -/

section

variable {s t : backend.State} {tr : List VSpace.Event}

/-- The invariant along a run: what ring 3 reaches is what the last edits left. -/
structure Traced (base : U64) (tr : List VSpace.Event) (t : backend.State) : Prop where
  isolated : ∃ ty, Isolated base ty t.machine t.spaces
  active : ∀ ev ∈ tr, ev.active ∈ t.spaces
  shown : ∀ space ∈ t.spaces, ∀ v, ring3 t.machine space v = (lastEdit tr space v).bind shownBy

variable {base v phys domain : U64} {m : Machine Regs} {space : AddressSpace} {prot : Prot}
  {km : KernelMap} {n : Nat}

theorem Booted.traced {ty : U64 → Option (Place U64)} (h : Booted base ty m) :
    Traced base [] ⟨m, [⟨base, 0⟩]⟩ where
  isolated := ⟨ty, h.isolated⟩
  active ev hev := by cases hev
  shown space hs v := by
    rw [(h.isolated.roots space hs).ring3_eq]
    cases List.mem_singleton.mp hs
    exact h.isolated.ring3_base v

theorem Traced.step {ev : VSpace.Event} {u : backend.State} (h : Traced base tr t)
    (hp : Permitted ⟨base, 0⟩ ev) (hs : backend.Step t ev u) : Traced base (tr ++ [ev]) u := by
  obtain ⟨ty, isolated⟩ := h.isolated
  obtain ⟨effect, isolated'⟩ := isolated.step hp hs
  refine ⟨isolated', fun ev' hev => ?_, fun space hspace v => ?_⟩
  · rcases List.mem_append.mp hev with hold | hnew
    · exact effect.kept _ (h.active ev' hold)
    · cases List.mem_singleton.mp hnew
      exact effect.kept _ effect.active
  · rw [lastEdit_snoc]
    by_cases hold : space ∈ t.spaces
    · rw [effect.shown space hold v]
      split
      · rfl
      · exact h.shown space hold v
    · -- a space that is new was never active
      have quiet : ∀ ev' ∈ tr, ev'.active ≠ space := fun ev' hev hc => hold (hc ▸ h.active ev' hev)
      have unedited : ev.edits space v = false := by
        unfold VSpace.Event.edits
        rw [decide_eq_false fun hc : ev.active = space => hold (hc ▸ effect.active), Bool.false_and]
      rw [effect.fresh space hspace hold v, unedited, lastEdit_of_inactive quiet]
      rfl

theorem Traced.run (h : Traced base [] s) (hr : Run backend.Step s tr t)
    (hp : ∀ ev ∈ tr, Permitted ⟨base, 0⟩ ev) : Traced base tr t := by
  induction hr with
  | nil => exact h
  | snoc _ hs ih =>
    exact (ih fun ev hev => hp ev (List.mem_append_left _ hev)).step
      (hp _ (List.mem_append_right _ (List.mem_singleton.mpr rfl))) hs

section

variable (h : ring3 m space v = some (0, userLeaf phys prot domain))

include h

/-- What a page mapped for ring 3 is to a walk. -/
theorem walk_shown :
    walk (inSpace m space) v = some (userLeaf phys prot domain, 0xfff) := by
  rw [walk_inSpace, (seenFrom_of_ring3 h).1]
  rfl

theorem translate_shown :
    translate (inSpace m space) v = some ((phys &&& ADDR_MASK) + (v &&& 0xfff)) := by
  have whole : ADDR_MASK &&& ~~~0xfff = ADDR_MASK := by decide
  unfold translate
  rw [walk_shown h, Option.map_some]
  dsimp only
  rw [userLeaf_frame, BitVec.and_assoc, whole]

theorem pageProt_shown :
    pageProt (inSpace m space) v = some (decide (prot = .rw), decide (prot = .rx)) := by
  unfold pageProt
  rw [walk_shown h, Option.map_some]
  dsimp only
  rw [has_userLeaf _ _ _ (by decide) (by decide) (by decide),
    has_userLeaf _ _ _ (by decide) (by decide) (by decide)]
  clear h
  revert prot
  decide

end

theorem same_view {m' : Machine Regs}
    (h : seenFrom m'.mem (space.primary &&& ADDR_MASK) v = seenFrom m.mem
      (space.primary &&& ADDR_MASK) v) :
    translate (inSpace m' space) v = translate (inSpace m space) v ∧
      pageProt (inSpace m' space) v = pageProt (inSpace m space) v := by
  unfold translate pageProt
  rw [walk_inSpace, walk_inSpace, h]
  exact ⟨rfl, rfl⟩

/-- A region stays mapped while the tables on the way to it stay. -/
theorem mapped_same {mem mem' : Mem U64} {root : U64} (hm : entries.Mapped mem root v)
    (hroot : mem' root = mem root)
    (hpdpt : mem' (entries.pdptOf mem root v) = mem (entries.pdptOf mem root v))
    (hpd : mem' (entries.pdOf mem root v) = mem (entries.pdOf mem root v)) :
    entries.Mapped mem' root v := by
  have pdpt : entries.pdptOf mem' root v = entries.pdptOf mem root v := by
    unfold Entries.pdptOf
    rw [hroot]
  have pd : entries.pdOf mem' root v = entries.pdOf mem root v := by
    unfold Entries.pdOf
    rw [pdpt, hpdpt]
  refine ⟨by rw [hroot]; exact hm.pml4e, by rw [pdpt, hpdpt]; exact hm.pdpte, ?_⟩
  unfold Entries.pdeOf
  rw [pd, hpd]
  exact hm.pde

/-- A space that is loaded is given a page for ring 3. -/
theorem Isolated.page {ty : U64 → Option (Place U64)} {spaces : List AddressSpace} {root : U64}
    (h : Isolated base ty m spaces) (hs : ⟨root, 0⟩ ∈ spaces)
    (hv : 0x40000000 ≤ v.toNat ∧ v.toNat < 0x80000000)
    (hmapped : ∀ w, window (path w) = true → entries.Mapped m.mem root w)
    (hframes : 1 ≤ m.supply.length) (phys : U64) (prot : Prot) (domain : U64) :
    ∃ m', Run backend.Step ⟨m, spaces⟩ [⟨⟨m.regs.cr3, 0⟩, .activate ⟨root, 0⟩⟩,
      ⟨⟨root, 0⟩, .mapUserPage v phys prot domain⟩] ⟨m', spaces⟩ ∧
      m'.regs = m.regs.load ⟨root, 0⟩ := by
  have load : backend.Step ⟨m, spaces⟩ ⟨⟨m.regs.cr3, 0⟩, .activate ⟨root, 0⟩⟩
      ⟨{ m with regs := m.regs.load ⟨root, 0⟩ }, spaces⟩ :=
    ⟨rfl, fun _ hc => by cases hc; exact hs, none, _, rfl, rfl⟩
  obtain ⟨_, ty', h'⟩ := h.step (s := ⟨m, spaces⟩) ⟨by simp, by simp⟩ load
  have hwin : window (path (pageAlign v)) = true := by
    rw [path_pageAlign]
    exact window_path v hv
  have page := (ends_edit (mapUserPage_spec h'.heap (h'.roots _ h'.active).place h'.active_frame v
      phys prot domain)).returns fun _ _ he => by
    rcases he with ⟨_, hno⟩ | ⟨_, hnone⟩
    · exact hno (hmapped _ hwin)
    · rw [show m.supply = [] from hnone] at hframes
      cases hframes
  obtain ⟨_, _, exec, rfl, _, m1, edited, rfl⟩ := page
  exact ⟨_, .cons load (.cons ⟨rfl, fun _ hc => (by cases hc), none, _, exec, rfl⟩ (.nil _)),
    edited.regs⟩

section

variable (hkm : Slots km) (hbytes : km.identityBytes = 0x100000000)

include hkm hbytes

theorem boots_traced (hm : backend.Supplied m) (hboot : backend.Boots km m s) :
    ∃ base, kernelSpace s.machine = ⟨base, 0⟩ ∧ ⟨base, 0⟩ ∈ s.spaces ∧ Traced base [] s := by
  obtain ⟨space, m', hsetup, rfl⟩ := hboot
  obtain ⟨base, ty, rfl, booted, _⟩ := (setup_spec hm km hkm hbytes).ok hsetup
  refine ⟨base, ?_, List.mem_singleton.mpr rfl, booted.traced⟩
  show (⟨m'.regs.kernelPml4, 0⟩ : AddressSpace) = _
  rw [booted.isolated.kernel]

/-- With frames enough, the kernel boots and a process is made, with `n` frames left. -/
theorem process_made (hfits : ImageFits km) (hm : backend.Supplied m)
    (hframes : bootFrames km + 515 + n ≤ m.supply.length) :
    ∃ (m0 m1 : Machine Regs) (base root : U64) (ty : U64 → Option (Place U64)),
      backend.Boots km m ⟨m0, [⟨base, 0⟩]⟩ ∧ kernelSpace m0 = ⟨base, 0⟩ ∧ root ∈ m.supply ∧
      root ≠ base ∧
      backend.Step ⟨m0, [⟨base, 0⟩]⟩ ⟨⟨base, 0⟩, .newProcessSpace⟩ ⟨m1, [⟨root, 0⟩, ⟨base, 0⟩]⟩ ∧
      Isolated base ty m1 [⟨root, 0⟩, ⟨base, 0⟩] ∧ m1.regs.cr3 = base ∧ n ≤ m1.supply.length ∧
      (∀ v, window (path v) = true → entries.Mapped m1.mem root v) ∧
      ∀ v, index v 3 = index km.hhdmOffset 3 → index v 2 < 4 → entries.Mapped m1.mem base v := by
  -- boot
  have boot := (setup_spec hm km hkm hbytes).returns fun _ _ he => by
    rcases he with ⟨_, few⟩ | ⟨_, hover⟩
    · omega
    · exact hover hfits
  obtain ⟨space0, m0, setup, base, ty, rfl, booted, frames0, rest, direct⟩ := boot
  have h0 := booted.isolated
  -- a process
  have made := (newProcessSpace_spec (s := ⟨m0, [⟨base, 0⟩]⟩) h0).returns fun _ _ he => by
    have few := he.2
    omega
  obtain ⟨_, m1, new, root, pdpt, pd, pts, used, rfl, copied⟩ := made
  obtain ⟨hnew, _, _, ty1, h1⟩ := h0.copy copied
  refine ⟨m0, m1, base, root, ty1, ⟨_, m0, setup, rfl⟩, by rw [kernelSpace, h0.kernel],
    rest (by rw [copied.supply]; exact List.mem_cons_self), fun hc =>
    hnew (by rw [hc]; exact List.mem_cons_self), ⟨?_, fun _ hc => (by cases hc), _, m1,
    new, rfl⟩, h1, by rw [copied.regs]; exact booted.active, ?_, fun v hv => ?_, fun v h3 h2 => ?_⟩
  · show _ = (⟨m0.regs.cr3, 0⟩ : AddressSpace)
    rw [booted.active]
  · have count := congrArg List.length copied.supply
    rw [List.length_cons, List.length_cons, List.length_cons, List.length_append] at count
    have few := copied.few
    omega
  · exact copied.mapped lawful h0.heap.frame (window_index hv).1 (window_index hv).2
      (booted.mapped v hv)
  · have mapped := direct v h3 h2
    have place := (h0.roots _ h0.own).place
    obtain ⟨pdptPlace, pdPlace⟩ := mapped.places lawful userKeeps h0.heap (s := base) place
    exact mapped_same mapped (copied.mem_placed h0.heap place)
      (copied.mem_placed h0.heap pdptPlace) (copied.mem_placed h0.heap pdPlace)

/-- With frames enough, a process is made, made active and given a page. -/
theorem process_run (hfits : ImageFits km) (hm : backend.Supplied m)
    (hframes : bootFrames km + 516 ≤ m.supply.length) (v phys : U64) (prot : Prot) (domain : U64)
    (hv : 0x40000000 ≤ v.toNat ∧ v.toNat < 0x80000000) :
    ∃ (s t : backend.State) (space : AddressSpace), backend.Boots km m s ∧
      space ∈ t.spaces ∧ space ≠ kernelSpace s.machine ∧
      Run backend.Step s [⟨kernelSpace s.machine, .newProcessSpace⟩,
        ⟨kernelSpace s.machine, .activate space⟩,
        ⟨space, .mapUserPage v phys prot domain⟩] t := by
  obtain ⟨m0, m1, base, root, ty, boots, kernel, _, hne, made, h1, active, left, mapped, _⟩ :=
    process_made (n := 1) hkm hbytes hfits hm hframes
  obtain ⟨m2, given, _⟩ := h1.page List.mem_cons_self hv mapped left phys prot domain
  refine ⟨⟨m0, [⟨base, 0⟩]⟩, ⟨m2, [⟨root, 0⟩, ⟨base, 0⟩]⟩, ⟨root, 0⟩, boots, List.mem_cons_self, ?_,
    ?_⟩
  · show _ ≠ kernelSpace m0
    rw [kernel]
    exact fun hc => hne (congrArg AddressSpace.primary hc)
  · show Run backend.Step _ [⟨kernelSpace m0, _⟩, ⟨kernelSpace m0, _⟩, _] _
    rw [active] at given
    rw [kernel]
    exact .cons made given

end

/-- A kernel of two pages at the usual places. -/
def plainMap : KernelMap where
  hhdmOffset := 0xffff800000000000
  identityBytes := 0x100000000
  kernelVbase := 0xffffffff80000000
  kernelVend := 0xffffffff80002000
  kernelPhys := 0x200000
  text := (0xffffffff80000000, 0xffffffff80001000)
  rodata := (0xffffffff80001000, 0xffffffff80001000)
  data := (0xffffffff80001000, 0xffffffff80002000)

@[irreducible] def plainFrames (n : Nat) : List U64 :=
  (List.range n).map fun k => BitVec.ofNat 64 (4096 * (k + 1))

/-- Frames enough for the kernel and a process. -/
def plainMachine : Machine Regs where
  mem _ _ := 0
  supply := plainFrames 600
  regs := ⟨0, 0⟩

theorem plainMap_admitted : plainMap.Admitted :=
  ⟨rfl, by decide, by decide, by decide, by decide⟩

theorem plainMap_slots : Slots plainMap := ⟨by decide, by decide, by decide⟩

theorem plainMap_fits : ImageFits plainMap := ⟨by decide, by decide⟩

theorem plainFrames_nodup (hn : n ≤ 600) : (plainFrames n).Nodup := by
  unfold plainFrames
  refine List.Nodup.map_on (fun a ha b hb hab => ?_) List.nodup_range
  rw [List.mem_range] at ha hb
  have same := congrArg BitVec.toNat hab
  simp only [BitVec.toNat_ofNat] at same
  omega

theorem plainFrames_frame (hn : n ≤ 600) (f : U64) (hf : f ∈ plainFrames n) :
    entries.IsFrame f := by
  unfold plainFrames at hf
  obtain ⟨k, hk, rfl⟩ := List.mem_map.mp hf
  have all : ∀ k < 600, BitVec.ofNat 64 (4096 * (k + 1)) &&& ADDR_MASK =
    BitVec.ofNat 64 (4096 * (k + 1)) := by
    decide +kernel
  exact all k (Nat.lt_of_lt_of_le (List.mem_range.mp hk) hn)

theorem plainFrames_le (hn : n ≤ 600) {f : U64} (hf : f ∈ plainFrames n) : f.toNat ≤ 4096 * n := by
  unfold plainFrames at hf
  obtain ⟨k, hk, rfl⟩ := List.mem_map.mp hf
  have := List.mem_range.mp hk
  rw [BitVec.toNat_ofNat]
  omega

theorem plainMachine_supplied : backend.Supplied plainMachine :=
  ⟨plainFrames_nodup (Nat.le_refl 600), plainFrames_frame (Nat.le_refl 600)⟩

theorem plain_built :
    ∃ space m1, buildAddressSpace plainMap plainMachine = .ok space m1 ∧
      entries.IsFrame space.primary ∧
    entries.Mapped m1.mem space.primary 0x40000000 ∧ 4 ≤ m1.supply.length := by
  have frames : plainMachine.supply.length = 600 := by simp [plainMachine, plainFrames]
  have building := buildAddressSpace_spec plainMachine_supplied.nodup plainMap plainMap_slots
  obtain ⟨space, m1, hbuild, pml4, pdpt, pds, used, rfl, built, tables, _⟩ :=
    building.returns fun e t he => by
    rcases he with ⟨_, few⟩ | ⟨_, hc⟩
    · rw [frames] at few
      exact absurd few (by decide)
    · exact hc plainMap_fits
  have frame : ∀ t ∈ used, entries.IsFrame t := fun t ht =>
    plainMachine_supplied.frame t (by rw [built.supply]; exact List.mem_append_left _ ht)
  refine ⟨_, m1, hbuild, frame pml4 (built.tables pml4 List.mem_cons_self), ?_, ?_⟩
  · exact tables.low.mapped lawful frame present_block (by decide) (by decide)
  · have few : bootFrames plainMap ≤ 596 := by decide
    have supply := congrArg List.length built.supply
    rw [frames, List.length_append, built.count] at supply
    omega

theorem plain_run :
    ∃ (s t : backend.State) (space : AddressSpace), backend.Boots plainMap plainMachine s ∧
    space ∈ t.spaces ∧ space ≠ kernelSpace s.machine ∧
    Run backend.Step s [⟨kernelSpace s.machine, .newProcessSpace⟩,
      ⟨kernelSpace s.machine, .activate space⟩,
      ⟨space, .mapUserPage 0x40001000 0x300000 .rw 0⟩] t := by
  refine process_run plainMap_slots rfl plainMap_fits plainMachine_supplied ?_ 0x40001000 0x300000
    .rw 0 (by decide)
  have frames : plainMachine.supply.length = 600 := by simp [plainMachine, plainFrames]
  rw [frames]
  decide

/-- **Isolation.**  After any permitted calls from boot on, ring 3 reaches an address in a space if
and only if the last edit of its page there mapped it for ring 3, and then it reaches the frame of
that call with the protection of that call.  In the kernel's space it reaches nothing.  A call
changes nothing that ring 3 reaches in another space than the active one, and no translation
in the window of another process. -/
theorem ring3_isolated (km : KernelMap) (hkm : Slots km) (hbytes : km.identityBytes = 0x100000000)
    (m : Machine Regs) (hm : backend.Supplied m) (s t : backend.State) (tr : List VSpace.Event)
    (hboot : backend.Boots km m s) (hrun : Run backend.Step s tr t)
    (hper : ∀ ev ∈ tr, Permitted (kernelSpace s.machine) ev) :
    (∀ space ∈ t.spaces, ∀ v,
      ((ring3 t.machine space v).isSome = true ↔
        ∃ vaddr phys prot domain, lastEdit tr space v =
          some (.mapUserPage vaddr phys prot domain)) ∧
      ∀ vaddr phys prot domain, lastEdit tr space v = some (.mapUserPage vaddr phys prot domain) →
        translate (inSpace t.machine space) v = some ((phys &&& ADDR_MASK) + (v &&& 0xfff)) ∧
        pageProt (inSpace t.machine space) v = some (decide (prot = .rw), decide (prot = .rx))) ∧
    (∀ v, ring3 t.machine (kernelSpace s.machine) v = none) ∧
    ∀ ev u, Permitted (kernelSpace s.machine) ev → backend.Step t ev u → ∀ space ∈ t.spaces,
      space ≠ ev.active →
      (∀ v, ring3 u.machine space v = ring3 t.machine space v) ∧
      (space ≠ kernelSpace s.machine → ∀ v, 0x40000000 ≤ v.toNat → v.toNat < 0x80000000 →
        translate (inSpace u.machine space) v = translate (inSpace t.machine space) v ∧
        pageProt (inSpace u.machine space) v = pageProt (inSpace t.machine space) v) := by
  obtain ⟨base, hbase, _, start⟩ := boots_traced hkm hbytes hm hboot
  rw [hbase] at hper ⊢
  have traced := start.run hrun hper
  obtain ⟨ty, isolated⟩ := traced.isolated
  refine ⟨fun space hs v => ⟨?_, fun vaddr phys prot domain hlast => ?_⟩, fun v =>
    ?_, fun ev u hp hstep space hs hact => ?_⟩
  · rw [traced.shown space hs v]
    constructor
    · intro hsome
      cases hlast : lastEdit tr space v with
      | none => rw [hlast] at hsome; cases hsome
      | some call =>
        rw [hlast] at hsome
        cases call with
        | mapUserPage vaddr phys prot domain => exact ⟨vaddr, phys, prot, domain, rfl⟩
        | _ => cases hsome
    · rintro ⟨vaddr, phys, prot, domain, hlast⟩
      rw [hlast]
      rfl
  · have shown : ring3 t.machine space v = some (0, userLeaf phys prot domain) := by
      rw [traced.shown space hs v, hlast]
      rfl
    exact ⟨translate_shown shown, pageProt_shown shown⟩
  · exact ((isolated.roots _ isolated.own).ring3_eq _ v).trans (isolated.ring3_base v)
  · have effect := (isolated.step hp hstep).1
    refine ⟨fun v => ?_, fun hother v hlo hhi => ?_⟩
    · have unedited : ev.edits space v = false := by
        unfold VSpace.Event.edits
        rw [decide_eq_false (Ne.symm hact), Bool.false_and]
      rw [effect.shown space hs v, unedited]
      rfl
    · exact same_view (effect.apart space hs hact hother v (window_path v ⟨hlo, hhi⟩))

theorem ring3_isolated_plain :
    ∃ (s t : backend.State) (space : AddressSpace),
    backend.Boots plainMap plainMachine s ∧ space ∈ t.spaces ∧
    (ring3 t.machine space 0x40001234).isSome = true ∧ ring3 t.machine space 0x40002234 = none ∧
    translate (inSpace t.machine space) 0x40001234 = some 0x300234 ∧
    pageProt (inSpace t.machine space) 0x40001234 = some (true, false) ∧
    ring3 t.machine (kernelSpace s.machine) 0x40001234 = none := by
  obtain ⟨s, t, space, hboot, hmem, hother, hrun⟩ := plain_run
  have permitted : ∀ ev ∈ [⟨kernelSpace s.machine, .newProcessSpace⟩,
    ⟨kernelSpace s.machine, .activate space⟩,
      (⟨space, .mapUserPage 0x40001000 0x300000 .rw 0⟩ : VSpace.Event)],
      Permitted (kernelSpace s.machine) ev := by
    simp only [List.forall_mem_cons]
    refine ⟨⟨by simp, by simp⟩, ⟨by simp, by simp⟩,
      ⟨by simp, fun v phys prot domain hcall => ?_⟩, by simp⟩
    cases hcall
    exact ⟨hother, by decide⟩
  obtain ⟨reach, kernel, _⟩ :=
    ring3_isolated plainMap plainMap_slots rfl plainMachine plainMachine_supplied s t _ hboot hrun
    permitted
  have last : ∀ v, lastEdit [⟨kernelSpace s.machine, .newProcessSpace⟩,
    ⟨kernelSpace s.machine, .activate space⟩,
      ⟨space, .mapUserPage 0x40001000 0x300000 .rw 0⟩] space v =
      if pageNumber 0x40001000 = pageNumber v then some (.mapUserPage 0x40001000 0x300000 .rw 0)
        else none := by
    intro v
    simp [lastEdit, VSpace.Event.edits, VSpace.Call.target]
  have here : lastEdit _ space 0x40001234 = some (.mapUserPage 0x40001000 0x300000 .rw 0) :=
    (last _).trans (if_pos (by decide))
  have there := last 0x40002234
  rw [if_neg (by decide)] at there
  refine ⟨s, t, space, hboot, hmem, (reach space hmem _).1.mpr ⟨_, _, _, _, here⟩, ?_,
    ((reach space hmem _).2 _ _ _ _ here).1, ((reach space hmem _).2 _ _ _ _ here).2, kernel _⟩
  rw [← Option.not_isSome_iff_eq_none, (reach space hmem _).1, there]
  rintro ⟨_, _, _, _, hc⟩
  cases hc

end

end X86

end Praesidium
