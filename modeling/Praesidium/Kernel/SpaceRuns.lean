import Praesidium.Kernel.AddressSpaces

/-!
Runs of the seam on a backend, and when they are runs of the spaces they stand for.

A world is a machine with the spaces made so far.  `Performs` is one call that returns: a space
is copied after one was built, one of those made is activated, and pages are edited with one of
them active.  A `Seam` says where a backend keeps the roots; `Refines` relates a world to the
spaces it shows, with a rule for each kind of call:

    activate   Refines.activate
    build      Refines.built    from what the tables hold at the end
    copy       Refines.copied   from WindowCopied
    edit       Refines.edited   from Changed
-/

namespace Praesidium

open Paging Radix

namespace VSpace

/-- The page alone counts. -/
theorem Spaces.editIn_pageAlign (A : Spaces) (k : Nat) (v : U64)
    (shown : U64 → Option (U64 × (Bool × Bool))) (byUser : Bool) :
    A.editIn k (pageAlign v) shown byUser = A.editIn k v shown byUser := by
  have page : pageNumber (pageAlign v) = pageNumber v := (path_eq_iff _ _).mp (path_pageAlign v)
  have own : PerProcess (pageAlign v) ↔ PerProcess v := by
    unfold PerProcess
    rw [page]
  have shares : ∀ j, A.Shares (pageAlign v) j k ↔ A.Shares v j k := fun j => by
    unfold Spaces.Shares
    simp only [own]
  simp only [Spaces.editIn, page, shares]

variable {A : Spaces}

theorem Spaces.edit_active {k : Nat} (h : A.active = some k) (v : U64)
    (shown : U64 → Option (U64 × (Bool × Bool))) (byUser : Bool) :
    A.edit v shown byUser = A.editIn k (pageAlign v) shown byUser := by
  unfold Spaces.edit
  rw [h, A.editIn_pageAlign]

/-! ## Worlds -/

structure Backend.World (b : Backend) where
  machine : Machine b.Regs
  /-- in the order they were made -/
  spaces : List AddressSpace
  active : Option Nat

/-- A page edit, as a call. -/
def SpaceCall.edit : SpaceCall → Option Call
  | .mapPage vaddr phys prot => some (.mapPage vaddr phys prot)
  | .installGuardPage vaddr => some (.installGuardPage vaddr)
  | .mapUserPage vaddr phys prot => some (.mapUserPage vaddr phys prot 0)
  | _ => none

inductive Backend.Performs (b : Backend) : b.World → SpaceCall → b.World → Prop
  | build {w : b.World} {km : KernelMap} {space : AddressSpace} {m' : Machine b.Regs} :
      b.build km w.machine = .ok space m' →
      b.Performs w (.buildAddressSpace km) ⟨m', w.spaces ++ [space], w.active⟩
  | copy {w : b.World} {space : AddressSpace} {m' : Machine b.Regs} : w.spaces ≠ [] →
      b.exec .newProcessSpace w.machine = .ok (some space) m' →
      b.Performs w .newProcessSpace ⟨m', w.spaces ++ [space], w.active⟩
  | activate {w : b.World} {k : Nat} {space : AddressSpace} {made : Option AddressSpace}
      {m' : Machine b.Regs} :
      w.spaces[k]? = some space → b.exec (.activate space) w.machine = .ok made m' →
      b.Performs w (.activateAddressSpace k) ⟨m', w.spaces, some k⟩
  | edit {w : b.World} {op : SpaceCall} {call : Call} {k : Nat} {made : Option AddressSpace}
      {m' : Machine b.Regs} :
      op.edit = some call → w.active = some k → b.exec call w.machine = .ok made m' →
      b.Performs w op ⟨m', w.spaces, w.active⟩

/-- Before any space is made. -/
def Backend.start (b : Backend) (m : Machine b.Regs) : b.World := ⟨m, [], none⟩

/-! ## Refinement -/

/-- Where a backend keeps the roots. -/
structure Seam (b : Backend) where
  sides : Sides
  access : U64 → Bool × Bool
  root : AddressSpace → Bool → U64
  kernel : b.Regs → AddressSpace

variable {b : Backend} (M : Seam b)

/-- The root that space `o.1` was made with on side `o.2`. -/
def Seam.tree (spaces : List AddressSpace) (o : Nat × Bool) : U64 :=
  M.root (spaces.getD o.1 ⟨0, 0⟩) o.2

/-- The machine shows the spaces `A`. -/
structure Seam.Refines (B : Family Nat) (A : Spaces) (w : b.World) : Prop where
  holds : Holds M.sides b.entries M.access B A (M.tree w.spaces) w.machine
  count : w.spaces.length = A.count
  active : w.active = A.active
  active_lt : ∀ k, A.active = some k → k < A.count
  frame : ∀ space ∈ w.spaces, ∀ s, (s = true → M.sides.high = true) →
    b.entries.IsFrame (M.root space s)
  shared : ∀ k space, w.spaces[k]? = some space → ∀ s, (s = true → M.sides.high = true) →
    M.root space s = M.tree w.spaces (A.owner k s)
  kernel : 0 < A.count → w.spaces[A.kernel]? = some (M.kernel w.machine.regs)
  loaded : ∀ k, A.active = some k → ∀ s, M.root (b.active w.machine.regs) s = M.tree w.spaces (k, s)

section

variable {M} {B : Family Nat} {A : Spaces} {w : b.World}

variable {spaces : List AddressSpace} {k : Nat} {space : AddressSpace} {v e vaddr : U64}
  {m' : Machine b.Regs} {shown : U64 → Option (U64 × (Bool × Bool))} {byUser : Bool}

theorem Seam.tree_of (h : spaces[k]? = some space) (s : Bool) :
    M.tree spaces (k, s) = M.root space s := by
  show M.root (spaces.getD k ⟨0, 0⟩) s = _
  rw [List.getD_eq_getElem?_getD, h]
  rfl

theorem Seam.tree_append {o : Nat × Bool} (h : o.1 < spaces.length) (space : AddressSpace) :
    M.tree (spaces ++ [space]) o = M.tree spaces o := by
  show M.root ((spaces ++ [space]).getD o.1 ⟨0, 0⟩) o.2 = M.root (spaces.getD o.1 ⟨0, 0⟩) o.2
  rw [List.getD_eq_getElem?_getD, List.getD_eq_getElem?_getD, List.getElem?_append_left h]

theorem Seam.tree_new (spaces : List AddressSpace) (space : AddressSpace) (s : Bool) :
    M.tree (spaces ++ [space]) (spaces.length, s) = M.root space s :=
  M.tree_of (by simp) s

section

variable (h : M.Refines B A w)

include h

theorem Seam.Refines.lt (hk : w.spaces[k]? = some space) : k < A.count := by
  rw [← h.count]
  exact (List.getElem?_eq_some_iff.mp hk).1

/-- The roots of the spaces there are, with one more. -/
theorem Seam.Refines.tree_old (space : AddressSpace) (o : Nat × Bool) (ho : A.live M.sides o) :
    M.tree (w.spaces ++ [space]) o = M.tree w.spaces o :=
  M.tree_append (by rw [h.count]; exact ho.1) space

/-- **What a space shows.** -/
theorem Seam.Refines.view (hk : w.spaces[k]? = some space) (hv : Canonical v) :
    Alike (A.user k v) (b.entries.view M.access w.machine.mem (M.root space (M.sides.side v)) v)
      (A.view k v) := by
  rw [h.shared k space hk _ (M.sides.high_of v)]
  exact h.holds.shows k (h.lt hk) v hv

/-- The roots that are loaded. -/
theorem Seam.Refines.root_active (hact : A.active = some k) {s : Bool}
    (hs : s = true → M.sides.high = true) :
    M.root (b.active w.machine.regs) s = M.tree w.spaces (A.owner k s) ∧
      b.entries.IsFrame (M.tree w.spaces (A.owner k s)) := by
  have below : k < w.spaces.length := by rw [h.count]; exact h.active_lt k hact
  have there : w.spaces[k]? = some w.spaces[k] := List.getElem?_eq_getElem below
  have root := h.loaded k hact s
  rw [M.tree_of there, h.shared k _ there s hs] at root
  refine ⟨root, ?_⟩
  rw [← h.shared k _ there s hs]
  exact h.frame _ (List.mem_of_getElem? there) s hs

theorem Seam.Refines.activate (hk : w.spaces[k]? = some space) {regs : b.Regs}
    (hactive : ∀ s, M.root (b.active regs) s = M.root space s)
    (hkernel : M.kernel regs = M.kernel w.machine.regs) :
    M.Refines B { A with active := some k } ⟨{ w.machine with regs := regs }, w.spaces,
      some k⟩ where
  holds := by
    have holds := h.holds.setRegs regs
    obtain ⟨base_base, base_lt, fresh, kernel, kernel_le, kernel_lt⟩ := holds.formed
    exact ⟨⟨base_base, base_lt, fresh, kernel, kernel_le, kernel_lt⟩, holds.under, holds.forest,
      holds.halves, holds.shows⟩
  count := h.count
  active := rfl
  active_lt j hj := by
    cases hj
    exact h.lt hk
  frame := h.frame
  shared := h.shared
  kernel hpos := by
    rw [hkernel]
    exact h.kernel hpos
  loaded j hj s := by
    cases hj
    rw [M.tree_of hk]
    exact hactive s

theorem Seam.Refines.edited (hact : A.active = some k)
    (hmapped : b.entries.Mapped w.machine.mem (M.tree w.spaces (A.owner k (M.sides.side v))) v)
    (hc : Changed b.entries M.access (family B) LowSide (A.live M.sides) (M.tree w.spaces)
      (A.owner k (M.sides.side v)) v e w.machine m') (hregs : m'.regs = w.machine.regs)
    (hshown : ∀ x, Alike byUser (b.entries.leafView M.access x (b.entries.pageAt e)) (shown x)) :
    M.Refines B (A.editIn k v shown byUser) ⟨m', w.spaces, w.active⟩ where
  holds := by
    have hk := h.active_lt k hact
    have live := h.holds.live_owner hk (M.sides.high_of v)
    have half := h.holds.halves _ live _ (index_lt v 3) hmapped.pml4e
    rw [Spaces.owner_snd] at half
    exact h.holds.edit hk hc half hshown
  count := h.count
  active := h.active
  active_lt := h.active_lt
  frame := h.frame
  shared := h.shared
  kernel hpos := by
    show _ = some (M.kernel m'.regs)
    rw [hregs]
    exact h.kernel hpos
  loaded j hj s := by
    show M.root (b.active m'.regs) s = _
    rw [hregs]
    exact h.loaded j hj s

section

variable (hd : b.entries.Lawful) (hr : b.entries.Reads M.access) (hact : A.active = some k)

include hd hr hact

/-- A page is written, and no entry above it. -/
theorem Seam.Refines.written
    (he : Edited b.entries (M.tree w.spaces (A.owner k (M.sides.side v))) v e w.machine m')
    (hshown : ∀ x, Alike byUser (b.entries.leafView M.access x (b.entries.pageAt e)) (shown x)) :
    M.Refines B (A.editIn k v shown byUser) ⟨m', w.spaces, w.active⟩ := by
  obtain ⟨ty, forest⟩ := h.holds.forest
  have live := h.holds.live_owner (h.active_lt k hact) (M.sides.high_of v)
  exact h.edited hact he.1 (forest.changed hd hr live he) he.regs hshown

/-- A page is mapped to a frame. -/
theorem Seam.Refines.pageMapped {phys : U64} {prot : Prot}

    (he : Edited b.entries (M.tree w.spaces (A.owner k (M.sides.side (pageAlign vaddr))))
    (pageAlign vaddr) (b.entries.page (phys &&& b.entries.addrMask) prot) w.machine m') :
    M.Refines B (A.step b.entries.addrMask (.mapPage vaddr phys prot))
      ⟨m', w.spaces, w.active⟩ := by
  rw [Spaces.step, Spaces.edit_active hact]
  refine h.written hd hr hact he fun x => ?_
  have shown : framePage b.entries.addrMask phys prot x = _ :=
    (hr.view_page (b.entries.isFrame_next phys) prot x).symm
  rw [shown]
  exact .refl ..

/-- A page is unmapped. -/
theorem Seam.Refines.guarded {mask : U64}

    (he : Edited b.entries (M.tree w.spaces (A.owner k (M.sides.side (pageAlign vaddr))))
    (pageAlign vaddr) 0 w.machine m') :
    M.Refines B (A.step mask (.installGuardPage vaddr)) ⟨m', w.spaces, w.active⟩ := by
  rw [Spaces.step, Spaces.edit_active hact]
  refine h.written hd hr hact he fun x => ?_
  rw [hd.pageAt_zero]
  exact .refl ..

end

/-- The tables of the space built last are in place for a copy. -/
theorem Seam.Refines.settled (hd : b.entries.Lawful) (hpos : 0 < A.count) :
    WindowSettled b.entries (M.root (M.kernel w.machine.regs) false) w.machine := by
  obtain ⟨ty, forest⟩ := h.holds.forest
  have kernel := h.kernel hpos
  have live : A.live M.sides (A.kernel, false) :=
    ⟨h.lt kernel, fun hc => absurd hc Bool.false_ne_true⟩
  rw [← M.tree_of kernel]
  exact (forest.topped _ live rfl).settled hd ((family B).keeps _) forest.heap
    (forest.root _ live)

/-- What a new space has of the rest of `Refines`. -/
theorem Seam.Refines.added {o kernel : Nat} {view : U64 → Option (U64 × (Bool × Bool))}
    {user : U64 → Bool}
    (hholds : Holds M.sides b.entries M.access B { A.add o view user with kernel := kernel }
      (M.tree (w.spaces ++ [space])) m')
    (hframe : ∀ s, (s = true → M.sides.high = true) → b.entries.IsFrame (M.root space s))
    (hshared : ∀ s, (s = true → M.sides.high = true) → M.root space s = M.tree (w.spaces ++ [space])
      ((A.add o view user).owner A.count s)) (hactive : b.active m'.regs = b.active w.machine.regs)
    (hkernel : (w.spaces ++ [space])[kernel]? = some (M.kernel m'.regs)) :
    M.Refines B { A.add o view user with kernel := kernel } ⟨m', w.spaces ++ [space],
      w.active⟩ where
  holds := hholds
  count := by
    show (w.spaces ++ [space]).length = A.count + 1
    rw [List.length_append, h.count]
    rfl
  active := h.active
  active_lt k hk := Nat.lt_succ_of_lt (h.active_lt k hk)
  frame x hx := by
    rcases List.mem_append.mp hx with hx | hx
    · exact h.frame x hx
    · rw [List.mem_singleton.mp hx]
      exact hframe
  shared k x hx s hs := by
    by_cases hk : k < w.spaces.length
    · have old : w.spaces[k]? = some x := by
        rw [← List.getElem?_append_left hk]
        exact hx
      have below : k < A.count := h.lt old
      have owner : (A.add o view user).owner k s = A.owner k s :=
        A.owner_add _ _ (Nat.ne_of_lt below) s
      have live := h.holds.live_owner below hs
      show M.root x s = M.tree (w.spaces ++ [space]) ((A.add o view user).owner k s)
      rw [owner, h.tree_old space _ live]
      exact h.shared k x old s hs
    · have last : k = w.spaces.length := by
        have bound := (List.getElem?_eq_some_iff.mp hx).1
        rw [List.length_append, List.length_singleton] at bound
        omega
      have same : x = space := by
        rw [last] at hx
        simpa using hx.symm
      rw [same, last, h.count]
      exact hshared s hs
  kernel _ := hkernel
  loaded k hk s := by
    have below : k < w.spaces.length := by rw [h.count]; exact h.active_lt k hk
    show M.root (b.active m'.regs) s = M.tree (w.spaces ++ [space]) (k, s)
    rw [hactive, M.tree_append below]
    exact h.loaded k hk s

theorem Seam.Refines.copied (hd : b.entries.Lawful) (hpos : 0 < A.count) (hunder : A.copy.Under B)
    {pdpt pd : U64} {pts : Nat → U64} {used : List U64}
    (hc : WindowCopied b.entries (M.root (M.kernel w.machine.regs) false) w.machine
      (M.root space false) pdpt pd pts used m')
    (hhigh : M.sides.high = true → M.root space true = M.root (M.kernel w.machine.regs) true) :
    M.Refines B A.copy ⟨m', w.spaces ++ [space], w.active⟩ := by
  have kernel := h.kernel hpos
  obtain ⟨ty, forest⟩ := h.holds.forest
  have new : ∀ s, M.tree (w.spaces ++ [space]) (A.count, s) = M.root space s := fun s => by
    rw [← h.count]
    exact M.tree_new ..
  have copied := hc
  rw [← M.tree_of kernel] at copied
  have kernel_lt : A.kernel < A.count := h.lt kernel
  refine h.added (h.holds.copy hd hpos hunder copied (h.tree_old space) (new false)) (fun s hs =>
    ?_) (fun s hs => ?_) ?_ ?_
  · cases s with
    | false => exact (hc.frames forest.heap.frame).1
    | true =>
      rw [hhigh (hs rfl)]
      exact h.frame _ (List.mem_of_getElem? kernel) true hs
  · cases s with
    | false => exact (new false).symm
    | true =>
      have owner : A.copy.owner A.count true = (A.kernel, true) :=
        congrArg (fun k => (k, true)) (A.add_base_new ..)
      have live : A.live M.sides (A.kernel, true) :=
        ⟨kernel_lt, fun _ => ⟨hs rfl, h.holds.formed.kernel⟩⟩
      have tree := h.tree_old space _ live
      rw [M.tree_of kernel, ← owner] at tree
      rw [hhigh (hs rfl)]
      exact tree.symm
  · rw [hc.regs]
  · rw [hc.regs, List.getElem?_append_left (by rw [h.count]; exact kernel_lt)]
    exact kernel

theorem Seam.Refines.built (hd : b.entries.Lawful) {km : KernelMap} (hunder : (A.build km).Under B)
    {ty ty' : U64 → Option (Place (Nat × Bool))}
    (hforest : Forest b.entries (family B) LowSide (A.live M.sides) (M.tree w.spaces) ty w.machine)
    (heap : Heap b.entries (family B).shape ty' m') (hty : ∀ t, t ∉ w.machine.supply → ty' t = ty t)
    (hsame : ∀ t, t ∉ w.machine.supply → m'.mem t = w.machine.mem t)
    (hplace : ∀ s, (s = true → M.sides.high = true) →
      ty' (M.root space s) = some ⟨(A.count, s), []⟩)
    (hframe : ∀ s, (s = true → M.sides.high = true) → b.entries.IsFrame (M.root space s))
    (htop : Topped b.entries (M.root space false) m'.mem)
    (hhalf : ∀ s, (s = true → M.sides.high = true) → ∀ i, i < 512 →
      b.entries.present (m'.mem (M.root space s) i) = true → M.sides.half s i)
    (hshow : ∀ v, Canonical v → b.entries.view M.access m'.mem (M.root space (M.sides.side v))
      v = design km v) (hactive : b.active m'.regs = b.active w.machine.regs)
    (hkernel : M.kernel m'.regs = space) :
    M.Refines B (A.build km) ⟨m', w.spaces ++ [space], w.active⟩ := by
  have new : ∀ s, M.tree (w.spaces ++ [space]) (A.count, s) = M.root space s := fun s => by
    rw [← h.count]
    exact M.tree_new ..
  have extends_ty : Extends ty ty' := fun t r hr => (hty t (hforest.heap.not_free hr)).trans hr
  obtain ⟨forest, old⟩ := hforest.grown M.access hd heap extends_ty hsame
  have base_new : ∀ s, (family B).base (A.count, s) = (A.count, s) := fun s => by
    show (B.base A.count, s) = _
    rw [← hunder _ (Nat.lt_succ_self _)]
    exact congrArg (fun k => (k, s)) (A.add_base_new (design km) fun _ => false)
  have sides : ∀ x, x = (A.count, false) ∨ x = (A.count, true) ∧ M.sides.high = true →
      ∃ s, (s = true → M.sides.high = true) ∧ x = (A.count, s) := by
    rintro x (rfl | ⟨rfl, hs⟩)
    · exact ⟨false, fun hc => absurd hc Bool.false_ne_true, rfl⟩
    · exact ⟨true, fun _ => hs, rfl⟩
  have forest' : Forest b.entries (family B) LowSide ((A.build km).live M.sides)
    (M.tree (w.spaces ++ [space])) ty' m' := by
    refine forest.add (h.tree_old space) (Spaces.live_build km) (fun x hx => ?_) (fun x hx =>
      ?_) (fun x hx hl => ?_) fun x hx hb => ?_
    · obtain ⟨s, hs, rfl⟩ := sides x hx
      rw [new s]
      exact hplace s hs
    · have live := (Spaces.live_build km x).mpr (.inr hx)
      obtain ⟨s, _, rfl⟩ := sides x hx
      rw [base_new]
      exact live
    · obtain ⟨s, _, rfl⟩ := sides x hx
      have low : s = false := hl
      rw [low, new false]
      exact htop
    · obtain ⟨s, _, rfl⟩ := sides x hx
      exact absurd (base_new s) hb
  have holds : Holds M.sides b.entries M.access B (A.build km) (M.tree (w.spaces ++ [space]))
    m' := by
    refine h.holds.build hunder ⟨ty', forest'⟩ (h.tree_old space) old (fun o ho =>
      ?_) (fun s hs i hi hp => ?_) fun v hv => ?_
    · exact hsame _ (hforest.heap.not_free (hforest.root o ho))
    · rw [new s] at hp
      exact hhalf s hs i hi hp
    · rw [new]
      exact hshow v hv
  refine h.added holds hframe (fun s _ => ?_) hactive ?_
  · have owner : (A.build km).owner A.count s = (A.count, s) := by
      cases s with
      | false => rfl
      | true => exact congrArg (fun k => (k, true)) (A.add_base_new (design km) fun _ => false)
    exact (new s).symm.trans (congrArg _ owner.symm)
  · rw [hkernel, ← h.count]
    simp

end

/-! ## Runs -/

theorem Seam.Refines.start (B : Family Nat) {m : Machine b.Regs} (hm : b.Supplied m) :
    M.Refines B .empty (b.start m) where
  holds := by
    have none : ∀ o, ¬ Spaces.empty.live M.sides o := fun o ho => absurd ho.1 (Nat.not_lt_zero _)
    refine ⟨Spaces.empty_formed, fun k hk => absurd hk (Nat.not_lt_zero k), ⟨fun _ => .none, ?_⟩,
      fun o ho => absurd ho (none o), fun k hk => absurd hk (Nat.not_lt_zero k)⟩
    exact ⟨.empty hm.nodup hm.frame, fun o ho => absurd ho (none o), fun o ho => absurd ho (none o),
      fun o ho => absurd ho (none o), fun o ho => absurd ho (none o)⟩
  count := rfl
  active := rfl
  active_lt k hk := by cases hk
  frame space hs := by cases hs
  shared k space hk := by cases hk
  kernel hpos := absurd hpos (Nat.lt_irrefl 0)
  loaded k hk := by cases hk

/-- What spaces are copies of, once and for all. -/
def Spaces.Formed.copies (h : A.Formed) : Family Nat := ⟨A.base, h.base_base⟩

end

/-- The calls of a backend keep the refinement, those of build and edit under the conditions `P`. -/
structure Seam.Sound (mask : U64) (P : SpaceCall → Prop) : Prop where
  build : ∀ {B A} {w : b.World} {km space m'}, M.Refines B A w → P (.buildAddressSpace km) →
    (A.build km).Under B → b.build km w.machine = .ok space m' →
    M.Refines B (A.build km) ⟨m', w.spaces ++ [space], w.active⟩
  copy : ∀ {B A} {w : b.World} {space m'}, M.Refines B A w → 0 < A.count → A.copy.Under B →
    b.exec .newProcessSpace w.machine = .ok (some space) m' →
    M.Refines B A.copy ⟨m', w.spaces ++ [space], w.active⟩
  activate : ∀ {m : Machine b.Regs} {space made m'}, b.exec (.activate space) m = .ok made m' →
    ∃ regs, m' = { m with regs := regs } ∧ (∀ s, M.root (b.active regs) s = M.root space s) ∧
    M.kernel regs = M.kernel m.regs
  edit : ∀ {B A} {w : b.World} {op call k made m'}, M.Refines B A w → P op → op.edit = some call →
    A.active = some k →
    b.exec call w.machine = .ok made m' → M.Refines B (A.step mask op) ⟨m', w.spaces, w.active⟩

variable {M} {mask : U64} {P : SpaceCall → Prop} {w : b.World}

/-- **One call.** -/
theorem Seam.Sound.step (hM : M.Sound mask P) {B : Family Nat} (h : M.Refines B A w)
    {op : SpaceCall} (hop : P op) (hunder : (A.step mask op).Under B) {w' : b.World}
    (hs : b.Performs w op w') : M.Refines B (A.step mask op) w' := by
  cases hs with
  | build hbuild => exact hM.build h hop hunder hbuild
  | copy hne hexec =>
    have hpos : 0 < A.count := by
      rw [← h.count]
      exact List.length_pos_iff.mpr hne
    exact hM.copy h hpos hunder hexec
  | activate hk hexec =>
    obtain ⟨regs, rfl, hactive, hkernel⟩ := hM.activate hexec
    exact h.activate hk hactive hkernel
  | edit hcall hact hexec =>
    rw [h.active] at hact
    exact hM.edit h hop hcall hact hexec

/-- **From calls to runs.** -/
theorem Seam.Sound.run (hM : M.Sound mask P) {m : Machine b.Regs} (hm : b.Supplied m)
    {ops : List SpaceCall} (hops : ∀ op ∈ ops, P op) (hrun : Run b.Performs (b.start m) ops w) :
    ∃ B, M.Refines B (Spaces.after mask ops) w := by
  -- the copies of the last state are those of every state before
  suffices all : ∀ B, (Spaces.after mask ops).Under B → M.Refines B (Spaces.after mask ops) w from
    ⟨(Spaces.after_formed mask ops).copies, all _ fun _ _ => rfl⟩
  induction hrun with
  | nil =>
    intro B _
    exact .start B hm
  | @snoc w1 w2 ops op _ hs ih =>
    intro B hunder
    rw [Spaces.after_snoc] at hunder ⊢
    refine hM.step (ih ?_ B hunder.of_step) ?_ hunder hs
    · exact fun op' hop => hops op' (List.mem_append_left _ hop)
    · exact hops op (List.mem_append_right _ (List.mem_singleton.mpr rfl))

/-! ## What is reported -/

/-- `translate` and `page_prot` tell what the spaces show; of a page that was mapped for user code
last, only where it leads. -/
def Spaces.ReportedBy (A : Spaces) (spaces : List AddressSpace)
    (translate : AddressSpace → U64 → Option U64)
    (pageProt : AddressSpace → U64 → Option (Bool × Bool)) : Prop :=
  spaces.length = A.count ∧ ∀ k space, spaces[k]? = some space → ∀ v, Canonical v →
    translate space v = (A.view k v).map Prod.fst ∧
    (A.user k v = false → pageProt space v = (A.view k v).map Prod.snd)

/-- A backend reports the spaces it was called for. -/
def Backend.Shows (b : Backend) (mask : U64) (P : SpaceCall → Prop)
    (translate : Machine b.Regs → AddressSpace → U64 → Option U64)
    (pageProt : Machine b.Regs → AddressSpace → U64 → Option (Bool × Bool)) : Prop :=
  ∀ m, b.Supplied m → ∀ ops, (∀ op ∈ ops, P op) → ∀ w, Run b.Performs (b.start m) ops w →
    (Spaces.after mask ops).ReportedBy w.spaces (translate w.machine) (pageProt w.machine)

/-- A sound backend does, if its walks read the tables. -/
theorem Seam.Sound.shows (hM : M.Sound mask P)
    {translate : Machine b.Regs → AddressSpace → U64 → Option U64}
    {pageProt : Machine b.Regs → AddressSpace → U64 → Option (Bool × Bool)}
    (hread : ∀ m space, (∀ s, (s = true → M.sides.high = true) →
      b.entries.IsFrame (M.root space s)) → ∀ v,
      translate m space v =
        (b.entries.view M.access m.mem (M.root space (M.sides.side v)) v).map Prod.fst ∧
      pageProt m space v =
        (b.entries.view M.access m.mem (M.root space (M.sides.side v)) v).map Prod.snd) :
    b.Shows mask P translate pageProt := by
  intro m hm ops hops w hrun
  obtain ⟨B, h⟩ := hM.run hm hops hrun
  refine ⟨h.count, fun k space hk v hv => ?_⟩
  obtain ⟨address, all⟩ := h.view hk hv
  obtain ⟨translated, prot⟩ := hread w.machine space (h.frame space (List.mem_of_getElem? hk)) v
  refine ⟨translated.trans address, fun hu => ?_⟩
  exact prot.trans (congrArg (Option.map Prod.snd) (all hu))

end VSpace

end Praesidium
