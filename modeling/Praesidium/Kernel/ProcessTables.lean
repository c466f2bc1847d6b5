import Praesidium.Kernel.Reap
import Mathlib.Data.List.Perm.Subperm

/-!
The page tables of a process (x86-64).

A process space comes with an account: which frames were allocated for it, and what
`map_user_page` mapped there.  `Sealed`: its tables are exactly the frames on the account, and
no other space leads to them.

    a new process space is sealed                                     (sealed_new)
    it stays sealed when map_user_page edits its window               (Sealed.paged, Sealed.mapped)
    and whatever is called with another space active                  (Sealed.other)
-/

namespace Praesidium

namespace X86

open Fallible Flags Paging Radix VSpace

/-! ## Accounts -/

/-- A process space, with the frames allocated for it and, by page, what was mapped there. -/
structure Process where
  space : AddressSpace
  frames : List U64
  pages : Nat → Option U64

def InWindow (v : U64) : Prop := 0x40000000 ≤ v.toNat ∧ v.toNat < 0x80000000

instance (v : U64) : Decidable (InWindow v) := inferInstanceAs (Decidable (_ ∧ _))

/-- `map_user_page(vaddr, phys, ..)` with the process active, which allocated `tables`. -/
def Process.mapped (p : Process) (vaddr phys : U64) (tables : List U64) : Process where
  space := p.space
  frames := p.frames ++ tables
  pages k := if k = pageNumber vaddr then some (phys &&& ADDR_MASK) else p.pages k

/-! ## What a page of a process changes -/

section

variable {m m' : Machine Regs} {root v leaf : U64}

/-- The page of `v` is `leaf`, in the table `pt` of its region, which was there or is new. -/
structure Placed (root v leaf : U64) (m m' : Machine Regs) (pt : U64) : Prop where
  table : entries.isTable (m'.mem (entries.pdOf m.mem root v) (index v 1)) = true
  next : m'.mem (entries.pdOf m.mem root v) (index v 1) &&& ADDR_MASK = pt
  page : m'.mem pt (index v 0) = leaf
  pd_other : ∀ k, k ≠ index v 1 →
    m'.mem (entries.pdOf m.mem root v) k = m.mem (entries.pdOf m.mem root v) k
  other : ∀ x, x ≠ entries.pdOf m.mem root v → x ≠ pt → m'.mem x = (granted root v m).mem x
  source :
    (entries.isTable (entries.pdeOf m.mem root v) = true ∧
    entries.pdeOf m.mem root v &&& ADDR_MASK = pt ∧
      m'.supply = m.supply ∧ ∀ k, k ≠ index v 0 → m'.mem pt k = (granted root v m).mem pt k) ∨
    (entries.isTable (entries.pdeOf m.mem root v) = false ∧ m.supply = pt :: m'.supply)

theorem granted_other (m : Machine Regs) {root v x : U64} (hr : x ≠ root)
    (hp : x ≠ entries.pdptOf m.mem root v) : (granted root v m).mem x = m.mem x := by
  funext i
  rcases granted_cases m root v x i with same | ⟨_, rfl | rfl⟩
  · exact same
  · exact absurd rfl hr
  · exact absurd rfl hp

theorem isTable_or_user (e : U64) : entries.isTable (e ||| USER) = entries.isTable e := by
  show (has (e ||| USER) PRESENT && !has (e ||| USER) HUGE) = (has e PRESENT && !has e HUGE)
  rw [has_or_user _ (by decide), has_or_user _ (by decide)]

theorem UserMapped.placed (hu : UserMapped root v leaf m m') (ht : Tiered root v m)
    (hframe : ∀ f ∈ m.supply, entries.IsFrame f) : ∃ pt, Placed root v leaf m m' pt := by
  obtain ⟨hm, m1, ⟨hm', pt, t, hens, rfl⟩, rfl⟩ := hu
  have ha := ht.apart hm.pml4e hm.pdpte
  obtain ⟨_, pdEq, pdeEq⟩ := granted_tables ha
  have pdSame := granted_other m ha.pd.1 ha.pd.2
  have isTable_eq := lawful.isTable_eq 1 (entries.pdeOf m.mem root v) (.inl rfl)
  cases hens with
  | found hleaf =>
    rw [pdeEq] at hleaf ⊢
    have away := ht.pt hm hleaf
    generalize hpt : entries.pdeOf m.mem root v &&& ADDR_MASK = pt at away
    have table : entries.isTable (entries.pdeOf m.mem root v) = true := by
      rw [isTable_eq, hm.pde, hleaf]
      rfl
    change entries.pdeOf m.mem root v &&& entries.addrMask = pt at hpt
    rw [hpt]
    have entry :
      (grant { granted root v m with mem := (granted root v m).mem.set pt (index v 0) leaf }
        (entries.pdOf m.mem root v) (index v 1)).mem (entries.pdOf m.mem root v) (index v 1) =
          entries.pdeOf m.mem root v ||| USER := by
      rw [grant_self]
      dsimp only
      rw [Mem.set_table_ne _ away.symm, pdSame]
      rfl
    refine ⟨pt, ?_, ?_, ?_, ?_, ?_, .inl ⟨table, hpt, rfl, ?_⟩⟩
    · rw [entry, isTable_or_user]
      exact table
    · rw [entry, next_or_user]
      exact hpt
    · rw [grant_of_ne _ fun hc => away hc.1]
      exact Mem.set_self ..
    · intro k hk
      rw [grant_of_ne _ fun hc => hk hc.2]
      dsimp only
      rw [Mem.set_table_ne _ away.symm, pdSame]
    · intro x hx hx'
      funext k
      rw [grant_of_ne _ fun hc => hx hc.1]
      dsimp only
      rw [Mem.set_table_ne _ hx']
    · intro k hk
      rw [grant_of_ne _ fun hc => away hc.1]
      exact Mem.set_index_ne _ hk _
  | @split _ rest hleaf hs =>
    rw [pdeEq] at hleaf ⊢
    rw [pdEq]
    have hs' : m.supply = pt :: rest := hs
    have away : entries.pdOf m.mem root v ≠ pt := fun hc => (ht.pd hm.pml4e hm.pdpte).2.2 (by
      rw [hs', hc]
      exact List.mem_cons_self)
    have block : entries.isTable (entries.pdeOf m.mem root v) = false := by
      rw [isTable_eq, hleaf]
      exact Bool.and_false _
    have frame : entries.IsFrame pt := hframe pt (by rw [hs']; exact List.mem_cons_self)
    generalize hmem : (granted root v m).mem.fill pt
      (full (entries.split (entries.pdeOf m.mem root v))) = mem1
    have other1 : ∀ x, x ≠ pt → mem1 x = (granted root v m).mem x := fun x hx => by
      rw [← hmem]
      exact Mem.fill_ne _ hx _
    have linked : entries.isTable (pt ||| entries.tableBits) = true := by
      rw [lawful.isTable_eq 1 _ (.inl rfl), lawful.present_table pt frame,
        lawful.isLeaf_table 1 pt frame]
      rfl
    refine ⟨pt, ?_, ?_, ?_, ?_, ?_, .inr ⟨block, hs'⟩⟩
    · rw [grant_self]
      dsimp only
      rw [Mem.set_table_ne _ away, Mem.set_self, isTable_or_user]
      exact linked
    · rw [grant_self]
      dsimp only
      rw [Mem.set_table_ne _ away, Mem.set_self, next_or_user]
      exact lawful.next_table frame
    · rw [grant_of_ne _ fun hc => away hc.1.symm]
      exact Mem.set_self ..
    · intro k hk
      rw [grant_of_ne _ fun hc => hk hc.2]
      dsimp only
      rw [Mem.set_table_ne _ away, Mem.set_index_ne _ hk, other1 _ away, pdSame]
    · intro x hx hx'
      funext k
      rw [grant_of_ne _ fun hc => hx hc.1]
      dsimp only
      rw [Mem.set_table_ne _ hx', Mem.set_table_ne _ hx, other1 x hx']

end

/-! ## Sealed tables -/

structure Sealed (p : Process) (m : Machine Regs) (spaces : List AddressSpace) : Prop where
  listed : p.space ∈ spaces
  away : ∃ lv, Levelled lv m (spaces.filter fun other => other ≠ p.space) ∧ ∀ f ∈ p.frames,
    lv f = none
  spent : ∀ f ∈ p.frames, f ∉ m.supply
  windowed : Windowed entries p.space.primary m.mem
  tables : p.frames.Perm (ownTables m.mem p.space.primary)
  nodup : p.frames.Nodup
  pages : ∀ v f, InWindow v → p.pages (pageNumber v) = some f →
    leafFrame m.mem (entries.windowPd m.mem p.space.primary) v = some f

section

variable {p : Process} {m m' : Machine Regs} {spaces : List AddressSpace}

theorem Sealed.root_mem (h : Sealed p m spaces) : p.space.primary ∈ p.frames :=
  h.tables.mem_iff.mpr (by simp [ownTables])

theorem Sealed.pdpt_mem (h : Sealed p m spaces) :
    entries.windowPdpt m.mem p.space.primary ∈ p.frames :=
  h.tables.mem_iff.mpr (by simp [ownTables])

theorem Sealed.pd_mem (h : Sealed p m spaces) : entries.windowPd m.mem p.space.primary ∈ p.frames :=
  h.tables.mem_iff.mpr (by simp [ownTables])

variable {mem mem' : Mem U64} {pd f base root pdpt v w leaf pt phys : U64} {j : Nat}
  {made : Option AddressSpace} {pts : Nat → U64} {used : List U64}

theorem mem_splitTables {n : Nat} :
    f ∈ splitTables mem pd n ↔ ∃ j, j < n ∧ entries.isTable (mem pd j) = true ∧
      mem pd j &&& ADDR_MASK = f := by
  unfold splitTables
  rw [List.mem_map]
  constructor
  · rintro ⟨j, hj, rfl⟩
    obtain ⟨hlt, htab⟩ := Entries.mem_tablesIn.mp hj
    exact ⟨j, hlt, htab, rfl⟩
  · rintro ⟨j, hlt, htab, rfl⟩
    exact ⟨j, Entries.mem_tablesIn.mpr ⟨hlt, htab⟩, rfl⟩

section

variable (h : Sealed p m spaces)

include h

theorem Sealed.table_mem (hj : j < 512)
    (htab : entries.isTable (m.mem (entries.windowPd m.mem p.space.primary) j) = true) :
    m.mem (entries.windowPd m.mem p.space.primary) j &&& ADDR_MASK ∈ p.frames := by
  refine h.tables.mem_iff.mpr (List.mem_append_left _ ?_)
  exact mem_splitTables.mpr ⟨j, hj, htab, rfl⟩

/-- The tables of a process are different ones. -/
theorem Sealed.distinct :
    entries.windowPdpt m.mem p.space.primary ≠ p.space.primary ∧
      entries.windowPd m.mem p.space.primary ≠ p.space.primary ∧
      entries.windowPd m.mem p.space.primary ≠ entries.windowPdpt m.mem p.space.primary ∧
      (splitTables m.mem (entries.windowPd m.mem p.space.primary) 512).Nodup ∧
      ∀ f ∈ splitTables m.mem (entries.windowPd m.mem p.space.primary) 512,
        f ≠ entries.windowPd m.mem p.space.primary ∧ f ≠ entries.windowPdpt m.mem p.space.primary ∧
          f ≠ p.space.primary := by
  have nodup := h.tables.nodup h.nodup
  unfold ownTables at nodup
  obtain ⟨split, top, apart⟩ := List.nodup_append.mp nodup
  simp only [List.nodup_cons, List.mem_cons, List.not_mem_nil, or_false, not_or] at top
  refine ⟨top.2.1, top.1.2, top.1.1, split, fun f hf => ⟨?_, ?_, ?_⟩⟩
  · exact apart f hf _ (by simp)
  · exact apart f hf _ (by simp)
  · exact apart f hf _ (by simp)

/-- Different entries lead to different tables. -/
theorem Sealed.table_inj {k : Nat} (hj : j < 512) (hk : k < 512)
    (tj : entries.isTable (m.mem (entries.windowPd m.mem p.space.primary) j) = true)
    (tk : entries.isTable (m.mem (entries.windowPd m.mem p.space.primary) k) = true)
    (heq : m.mem (entries.windowPd m.mem p.space.primary) j &&& ADDR_MASK = m.mem
      (entries.windowPd m.mem p.space.primary) k &&& ADDR_MASK) : j = k :=
  List.inj_on_of_nodup_map h.distinct.2.2.2.1 (Entries.mem_tablesIn.mpr ⟨hj, tj⟩)
  (Entries.mem_tablesIn.mpr ⟨hk, tk⟩) heq

/-- All its tables are reached from its root. -/
theorem Sealed.reaches (hf : f ∈ p.frames) : Reaches m.mem p.space f := by
  have root : Reached entries.format 512 m.mem (fun t => t = p.space.primary) 3 3 p.space.primary :=
    .root rfl
  have pdpt : Reached entries.format 512 m.mem (fun t => t = p.space.primary) 3 2
    (entries.windowPdpt m.mem p.space.primary) := .link root (by decide) h.windowed.pml4e rfl
  have table := h.windowed.pdpte
  rw [lawful.isTable_eq 2 _ (.inr rfl), Bool.and_eq_true, Bool.not_eq_true'] at table
  have pd : Reached entries.format 512 m.mem (fun t => t = p.space.primary) 3 1
    (entries.windowPd m.mem p.space.primary) := .link pdpt (by decide) table.1 table.2
  rcases List.mem_append.mp (h.tables.mem_iff.mp hf) with hsplit | htop
  · obtain ⟨j, hj, htab, rfl⟩ := mem_splitTables.mp hsplit
    rw [lawful.isTable_eq 1 _ (.inl rfl), Bool.and_eq_true, Bool.not_eq_true'] at htab
    exact ⟨0, .link pd hj htab.1 htab.2⟩
  · simp only [List.mem_cons, List.not_mem_nil, or_false] at htop
    rcases htop with rfl | rfl | rfl
    · exact ⟨1, pd⟩
    · exact ⟨2, pdpt⟩
    · exact ⟨3, root⟩

/-- No other space reaches them. -/
theorem Sealed.unreached (hf : f ∈ p.frames) {other : AddressSpace}
    (ho : other ∈ spaces) (hne : other ≠ p.space) : ¬ Reaches m.mem other f := by
  obtain ⟨lv, levelled, hnone⟩ := h.away
  intro hr
  refine levelled.reached (List.mem_filter.mpr ⟨ho, ?_⟩) hr (hnone f hf)
  exact decide_eq_true hne

/-- What a process has depends on its tables only. -/
theorem Sealed.congr {spaces' : List AddressSpace} (hlisted : p.space ∈ spaces')
    (haway : ∃ lv, Levelled lv m' (spaces'.filter fun other => other ≠ p.space) ∧ ∀ f ∈ p.frames,
      lv f = none) (hspent : ∀ f ∈ p.frames, f ∉ m'.supply)
    (hmem : ∀ f ∈ p.frames, m'.mem f = m.mem f) : Sealed p m' spaces' := by
  have pdpt : entries.windowPdpt m'.mem p.space.primary = entries.windowPdpt m.mem
    p.space.primary := by
    unfold Entries.windowPdpt
    rw [hmem _ h.root_mem]
  have pd : entries.windowPd m'.mem p.space.primary = entries.windowPd m.mem p.space.primary := by
    unfold Entries.windowPd
    rw [pdpt, hmem _ h.pdpt_mem]
  have pdSame := hmem _ h.pd_mem
  constructor
  case listed => exact hlisted
  case away => exact haway
  case spent => exact hspent
  case windowed =>
    refine ⟨?_, ?_⟩
    · rw [hmem _ h.root_mem]
      exact h.windowed.pml4e
    · rw [pdpt, hmem _ h.pdpt_mem]
      exact h.windowed.pdpte
  case tables =>
    have own : ownTables m'.mem p.space.primary = ownTables m.mem p.space.primary := by
      unfold ownTables splitTables Entries.tablesIn
      rw [pd, pdpt, pdSame]
    rw [own]
    exact h.tables
  case nodup => exact h.nodup
  case pages =>
    intro v f hv hf
    have leaf := h.pages v f hv hf
    rw [pd]
    unfold leafFrame at leaf ⊢
    rw [pdSame]
    by_cases htab : entries.isTable (m.mem (entries.windowPd m.mem p.space.primary) (index v 1)) =
      true
    · rw [hmem _ (h.table_mem (index_lt v 1) htab)]
      exact leaf
    · rw [if_neg htab] at leaf
      cases leaf

/-- **A call made elsewhere.** -/
theorem Sealed.other {call : VSpace.Call} (hcall : ∀ space, call ≠ .activate space)
    (hactive : ⟨m.regs.cr3, 0⟩ ∈ spaces)
    (hcr3 : call ≠ .newProcessSpace → (⟨m.regs.cr3, 0⟩ : AddressSpace) ≠ p.space)
    (hkernel : ⟨m.regs.kernelPml4, 0⟩ ∈ spaces)
    (hne : (⟨m.regs.kernelPml4, 0⟩ : AddressSpace) ≠ p.space)
    (hw : Windowed entries m.regs.kernelPml4 m.mem) (hexec : exec call m = .ok made m') :
    Sealed p m' (made.toList ++ spaces) := by
  obtain ⟨lv, levelled, hnone⟩ := h.away
  obtain ⟨lv', left, levelled', hmade⟩ := levelled.call hcall
    (fun hc => List.mem_filter.mpr ⟨hactive, decide_eq_true (hcr3 hc)⟩)
    (List.mem_filter.mpr ⟨hkernel, decide_eq_true hne⟩) hw hexec
  refine h.congr (List.mem_append_right _ h.listed) ⟨lv', levelled'.mono fun space hs =>
    ?_, fun f hf => ?_⟩ (fun f hf hc => h.spent f hf (left.grown.spends f hc)) (fun f hf =>
    left.away f (h.spent f hf) (hnone f hf))
  · obtain ⟨hs, hother⟩ := List.mem_filter.mp hs
    rcases List.mem_append.mp hs with hnew | hold
    · exact List.mem_append_left _ hnew
    · exact List.mem_append_right _ (List.mem_filter.mpr ⟨hold, hother⟩)
  · rw [left.grown.same f (h.spent f hf)]
    exact hnone f hf

end

/-! ## A new process -/

theorem isTable_moved (hf : entries.IsFrame f) (e : U64) :
    entries.isTable (entries.moved f e) = entries.isTable e := by
  rw [lawful.isTable_eq 1 _ (.inl rfl), lawful.isTable_eq 1 _ (.inl rfl),
    lawful.present_moved f e hf, lawful.isLeaf_moved 1 f e hf]

/-- The frames of a copy are those of its tables. -/
theorem copied_tables (hc : WindowCopied entries base m root pdpt pd pts used m')
    (hframe : ∀ f ∈ m.supply, entries.IsFrame f) (hl : entries.hasWindow m.mem base = true)
    (hcount : used.length = (entries.tablesIn m.mem (entries.windowPd m.mem base) 512).length) :
    used.Perm (splitTables m'.mem pd 512) := by
  have frame : ∀ f ∈ used, entries.IsFrame f := fun f hf => hframe f (by rw [hc.supply]; simp [hf])
  have entry : ∀ j, j < 512 → entries.isTable (m'.mem pd j) =
    entries.isTable (m.mem (entries.windowPd m.mem base) j) := by
    intro j hj
    cases htab : entries.isTable (m.mem (entries.windowPd m.mem base) j) with
    | false => rw [hc.plain hl j hj htab, htab]
    | true =>
      have tab : entries.WindowTable m.mem base j := ⟨hl, hj, htab⟩
      rw [hc.table j tab, isTable_moved (frame _ (hc.taken j tab)), htab]
  have split : splitTables m'.mem pd 512 =
    (entries.tablesIn m.mem (entries.windowPd m.mem base) 512).map pts := by
    unfold splitTables
    rw [Entries.tablesIn_congr entry]
    refine List.map_congr_left fun j hj => ?_
    have tab : entries.WindowTable m.mem base j := ⟨hl, Entries.mem_tablesIn.mp hj⟩
    rw [hc.table j tab]
    exact Entries.next_moved (frame _ (hc.taken j tab)) _
  rw [split]
  have nodup : ((entries.tablesIn m.mem (entries.windowPd m.mem base) 512).map pts).Nodup := by
    refine List.Nodup.map_on (fun j hj k hk heq => ?_) (List.nodup_range.filter _)
    exact hc.distinct j k ⟨hl, Entries.mem_tablesIn.mp hj⟩ ⟨hl, Entries.mem_tablesIn.mp hk⟩ heq
  refine (List.Subperm.perm_of_length_le (List.subperm_of_subset nodup fun f hf => ?_) ?_).symm
  · obtain ⟨j, hj, rfl⟩ := List.mem_map.mp hf
    exact hc.taken j ⟨hl, Entries.mem_tablesIn.mp hj⟩
  · rw [List.length_map]
    exact Nat.le_of_eq hcount

theorem sealed_new {lv : U64 → Option Nat} (h : Levelled lv m spaces)
    (hw : Windowed entries base m.mem) (hc : WindowCopied entries base m root pdpt pd pts used m')
    (hcount : used.length = (entries.tablesIn m.mem (entries.windowPd m.mem base) 512).length) :
    Sealed ⟨⟨root, 0⟩, root :: pdpt :: pd :: used, fun _ => none⟩ m' (⟨root, 0⟩ :: spaces) := by
  have supply : m.supply = (root :: pdpt :: pd :: used) ++ m'.supply := hc.supply
  have nodup := h.heap.nodup
  rw [supply] at nodup
  obtain ⟨own, rest, apart⟩ := List.nodup_append.mp nodup
  have taken : ∀ f ∈ root :: pdpt :: pd :: used, f ∈ m.supply := fun f hf => by
    rw [supply]
    exact List.mem_append_left _ hf
  have frame_pdpt : entries.IsFrame pdpt := h.heap.frame _ (taken _ (by simp))
  have frame_pd : entries.IsFrame pd := h.heap.frame _ (taken _ (by simp))
  have pdptEq : entries.windowPdpt m'.mem root = pdpt := by
    unfold Entries.windowPdpt
    rw [hc.root_window]
    exact Entries.next_moved frame_pdpt _
  have pdEq : entries.windowPd m'.mem root = pd := by
    unfold Entries.windowPd
    rw [pdptEq, hc.pdpt_window]
    exact Entries.next_moved frame_pd _
  constructor
  case listed => exact List.mem_cons_self
  case away =>
    refine ⟨lv, (h.same (fun t n hn => hc.other t (h.heap.not_free hn)) rest fun f hf =>
      ?_).mono fun space hs => ?_, fun f hf => h.heap.free f (taken f hf)⟩
    · rw [supply]
      exact List.mem_append_right _ hf
    · obtain ⟨hs, hne⟩ := List.mem_filter.mp hs
      rcases List.mem_cons.mp hs with rfl | hs
      · exact absurd rfl (of_decide_eq_true hne)
      · exact hs
  case spent => exact fun f hf hf' => apart f hf f hf' rfl
  case windowed =>
    refine ⟨?_, ?_⟩
    · show entries.present (m'.mem root 0) = true
      rw [hc.root_window, lawful.present_moved _ _ frame_pdpt]
      exact hw.pml4e
    · show entries.isTable (m'.mem (entries.windowPdpt m'.mem root) 1) = true
      rw [pdptEq, hc.pdpt_window, isTable_moved frame_pd]
      exact hw.pdpte
  case tables =>
    show (root :: pdpt :: pd :: used).Perm (ownTables m'.mem root)
    have split := copied_tables hc h.heap.frame (hw.topped lawful).2 hcount
    unfold ownTables
    rw [pdEq, pdptEq]
    have turned : ([root, pdpt, pd] ++ used).Perm (used ++ [pd, pdpt, root]) :=
      List.perm_append_comm.trans ((List.reverse_perm [pd, pdpt, root]).append_left used)
    exact turned.trans (split.append_right _)
  case nodup => exact own
  case pages =>
    intro v f _ hf
    cases hf

/-! ## A page of a process -/

theorem InWindow.index (h : InWindow v) : index v 3 = 0 ∧ index v 2 = 1 :=
  window_index (window_path v h)

theorem InWindow.pageAlign (h : InWindow v) :
    Paging.index (pageAlign v) 3 = 0 ∧ Paging.index (pageAlign v) 2 = 1 :=
  window_index (by rw [path_pageAlign]; exact window_path v h)

theorem pdptOf_window (mem : Mem U64) (root : U64) (h3 : index v 3 = 0) :
    entries.pdptOf mem root v = entries.windowPdpt mem root := by
  unfold Entries.pdptOf Entries.windowPdpt
  rw [h3]

theorem pdOf_window (mem : Mem U64) (root : U64) (h3 : index v 3 = 0) (h2 : index v 2 = 1) :
    entries.pdOf mem root v = entries.windowPd mem root := by
  unfold Entries.pdOf Entries.windowPd
  rw [pdptOf_window _ _ h3, h2]

theorem Sealed.tiered (h : Sealed p m spaces) (h3 : index v 3 = 0) (h2 : index v 2 = 1) :
    Tiered p.space.primary v m := by
  obtain ⟨d1, d2, d3, _, d4⟩ := h.distinct
  have pdpt := pdptOf_window m.mem p.space.primary h3
  have pd := pdOf_window m.mem p.space.primary h3 h2
  constructor
  case pdpt =>
    intro _
    rw [pdpt]
    exact d1
  case pd =>
    intro _ _
    rw [pd, pdpt]
    exact ⟨d2, d3, h.spent _ h.pd_mem⟩
  case pt =>
    intro hm hleaf
    have table : entries.isTable (m.mem (entries.windowPd m.mem p.space.primary) (index v 1)) =
      true := by
      have pde := hm.pde
      unfold Entries.pdeOf at pde hleaf
      rw [pd] at pde hleaf
      rw [lawful.isTable_eq 1 _ (.inl rfl), pde, hleaf]
      rfl
    unfold Entries.pdeOf
    rw [pd]
    exact (d4 _ (mem_splitTables.mpr ⟨_, index_lt v 1, table, rfl⟩)).1

theorem splitTables_congr
    (h : ∀ k, k < 512 → entries.isTable (mem' pd k) = entries.isTable (mem pd k) ∧
      (entries.isTable (mem pd k) = true → mem' pd k &&& ADDR_MASK = mem pd k &&& ADDR_MASK)) :
    splitTables mem' pd 512 = splitTables mem pd 512 := by
  unfold splitTables
  rw [Entries.tablesIn_congr fun k hk => (h k hk).1]
  refine List.map_congr_left fun k hk => ?_
  obtain ⟨hlt, htab⟩ := Entries.mem_tablesIn.mp hk
  exact (h k hlt).2 htab

/-- One more entry leads to a table. -/
theorem splitTables_insert (hj : j < 512) (hold : entries.isTable (mem pd j) = false)
    (hnew : entries.isTable (mem' pd j) = true) (hsame : ∀ k, k ≠ j → mem' pd k = mem pd k) :
    (splitTables mem' pd 512).Perm ((mem' pd j &&& ADDR_MASK) :: splitTables mem pd 512) := by
  have fresh : j ∉ entries.tablesIn mem pd 512 := fun hc => by
    rw [(Entries.mem_tablesIn.mp hc).2] at hold
    cases hold
  have range : ∀ mem, (entries.tablesIn mem pd 512).Nodup := fun mem => List.nodup_range.filter _
  have indices : (entries.tablesIn mem' pd 512).Perm (j :: entries.tablesIn mem pd 512) := by
    refine (List.perm_ext_iff_of_nodup (range mem') (List.nodup_cons.mpr ⟨fresh, range mem⟩)).mpr
      fun k => ?_
    rw [List.mem_cons, Entries.mem_tablesIn, Entries.mem_tablesIn]
    by_cases hk : k = j
    · subst hk
      exact ⟨fun _ => .inl rfl, fun _ => ⟨hj, hnew⟩⟩
    · rw [hsame k hk]
      exact ⟨.inr, fun hc => hc.resolve_left hk⟩
  have mapped := indices.map fun k => mem' pd k &&& ADDR_MASK
  rw [List.map_cons] at mapped
  refine mapped.trans ?_
  have rest : (entries.tablesIn mem pd 512).map (fun k => mem' pd k &&& ADDR_MASK) =
    splitTables mem pd 512 := by
    refine List.map_congr_left fun k hk => ?_
    rw [hsame k fun hc => fresh (hc ▸ hk)]
  rw [rest]

/-- `map_user_page` in the window of a process: its new page, in a table of its own. -/
structure Paged (p : Process) (v phys : U64) (m m' : Machine Regs) (tables : List U64) : Prop where
  supply : m.supply = tables ++ m'.supply
  other : ∀ x, x ∉ p.frames → x ∉ m.supply → m'.mem x = m.mem x
  windowed : Windowed entries p.space.primary m'.mem
  own : (p.frames ++ tables).Perm (ownTables m'.mem p.space.primary)
  pages : ∀ w f, InWindow w → (p.mapped v phys tables).pages (pageNumber w) = some f →
    leafFrame m'.mem (entries.windowPd m'.mem p.space.primary) w = some f

/-- The indices below the window tell its pages apart. -/
theorem pageNumber_window (hv : InWindow v) (hw : InWindow w) (h1 : index w 1 = index v 1)
    (h0 : index w 0 = index v 0) : pageNumber w = pageNumber v := by
  obtain ⟨v3, v2, v1, v0⟩ := index_pageNumber v
  obtain ⟨w3, w2, w1, w0⟩ := index_pageNumber w
  obtain ⟨hv3, hv2⟩ := hv.index
  obtain ⟨hw3, hw2⟩ := hw.index
  omega

/-- The tables above the pages of a process keep their places. -/
theorem Placed.top (h : Sealed p m spaces) (h3 : index v 3 = 0) (h2 : index v 2 = 1)
    (hp : Placed p.space.primary v leaf m m' pt) (hroot : pt ≠ p.space.primary)
    (hpdpt : pt ≠ entries.windowPdpt m.mem p.space.primary) :
    Windowed entries p.space.primary m'.mem ∧
      entries.windowPdpt m'.mem p.space.primary = entries.windowPdpt m.mem p.space.primary ∧
      entries.windowPd m'.mem p.space.primary = entries.windowPd m.mem p.space.primary := by
  obtain ⟨d1, d2, d3, _, _⟩ := h.distinct
  have pdptEq := pdptOf_window m.mem p.space.primary h3
  have pdEq := pdOf_window m.mem p.space.primary h3 h2
  have other := hp.other
  rw [pdEq] at other
  obtain ⟨root4, pdpt3⟩ := granted_entries (m := m) (show entries.pdptOf m.mem p.space.primary v ≠
    p.space.primary by rw [pdptEq]; exact d1)
  rw [pdptEq, h2] at pdpt3
  rw [h3] at root4
  have root : m'.mem p.space.primary 0 = m.mem p.space.primary 0 ||| USER := by
    rw [other _ d2.symm hroot.symm]
    exact root4
  have pdpt : entries.windowPdpt m'.mem p.space.primary = entries.windowPdpt m.mem
    p.space.primary := by
    unfold Entries.windowPdpt
    rw [root]
    exact next_or_user _
  have entry : m'.mem (entries.windowPdpt m.mem p.space.primary) 1 =
      m.mem (entries.windowPdpt m.mem p.space.primary) 1 ||| USER := by
    rw [other _ d3.symm hpdpt.symm]
    exact pdpt3
  refine ⟨⟨?_, ?_⟩, pdpt, ?_⟩
  · rw [root]
    exact (has_or_user _ (by decide)).trans h.windowed.pml4e
  · rw [pdpt, entry, isTable_or_user]
    exact h.windowed.pdpte
  · unfold Entries.windowPd
    rw [pdpt, entry]
    exact next_or_user _

/-- The same in the terms of the window: `leaf` is written to the page of `v`. -/
structure Written (p : Process) (v leaf : U64) (m m' : Machine Regs) (pt : U64) : Prop where
  windowed : Windowed entries p.space.primary m'.mem
  pdpt : entries.windowPdpt m'.mem p.space.primary = entries.windowPdpt m.mem p.space.primary
  pd : entries.windowPd m'.mem p.space.primary = entries.windowPd m.mem p.space.primary
  table : entries.isTable (m'.mem (entries.windowPd m.mem p.space.primary) (index v 1)) = true
  next : m'.mem (entries.windowPd m.mem p.space.primary) (index v 1) &&& ADDR_MASK = pt
  page : m'.mem pt (index v 0) = leaf
  pd_other : ∀ k, k ≠ index v 1 →
    m'.mem (entries.windowPd m.mem p.space.primary) k =
    m.mem (entries.windowPd m.mem p.space.primary) k
  other : ∀ x, x ≠ pt → x ≠ entries.windowPd m.mem p.space.primary →
    x ≠ entries.windowPdpt m.mem p.space.primary → x ≠ p.space.primary → m'.mem x = m.mem x
  source :
    (entries.isTable (m.mem (entries.windowPd m.mem p.space.primary) (index v 1)) = true ∧
      m.mem (entries.windowPd m.mem p.space.primary) (index v 1) &&& ADDR_MASK = pt ∧
      m'.supply = m.supply ∧ ∀ k, k ≠ index v 0 → m'.mem pt k = m.mem pt k) ∨
    (entries.isTable (m.mem (entries.windowPd m.mem p.space.primary) (index v 1)) = false ∧
    m.supply = pt :: m'.supply)

theorem index_pageAlign (v : U64) :
    index (pageAlign v) 1 = index v 1 ∧ index (pageAlign v) 0 = index v 0 := by
  have same := region_of_path (path_pageAlign v)
  exact ⟨(index_of_region same.1).2.2, same.2⟩

theorem Sealed.written (h : Sealed p m spaces) (hv : InWindow v)
    (hp : Placed p.space.primary (pageAlign v) leaf m m' pt) : Written p v leaf m m' pt := by
  obtain ⟨h3, h2⟩ := hv.pageAlign
  obtain ⟨i1, i0⟩ := index_pageAlign v
  obtain ⟨_, _, _, _, below⟩ := h.distinct
  have pdptEq := pdptOf_window m.mem p.space.primary h3
  have pdEq := pdOf_window m.mem p.space.primary h3 h2
  have source := hp.source
  unfold Entries.pdeOf at source
  rw [pdEq, i1, i0] at source
  -- the table of the page is none of those above it
  have away : pt ≠ entries.windowPdpt m.mem p.space.primary ∧ pt ≠ p.space.primary := by
    rcases source with ⟨htab, rfl, _⟩ | ⟨_, hs⟩
    · exact (below _ (mem_splitTables.mpr ⟨_, index_lt v 1, htab, rfl⟩)).2
    · have free : ∀ f ∈ p.frames, pt ≠ f :=
        fun f hf hc => h.spent f hf (by rw [hs, ← hc]; exact List.mem_cons_self)
      exact ⟨free _ h.pdpt_mem, free _ h.root_mem⟩
  obtain ⟨windowed, pdpt, pd⟩ := hp.top h h3 h2 away.2 away.1
  have table := hp.table
  have next := hp.next
  have page := hp.page
  have pd_other := hp.pd_other
  rw [pdEq, i1] at table next pd_other
  rw [i0] at page
  refine ⟨windowed, pdpt, pd, table, next, page, pd_other, fun x h1 h2 h3 h4 => ?_, ?_⟩
  · rw [hp.other x (by rw [pdEq]; exact h2) h1]
    exact granted_other m h4 (by rw [pdptEq]; exact h3)
  · refine source.imp_left fun hfound => ⟨hfound.1, hfound.2.1, hfound.2.2.1, fun k hk => ?_⟩
    rw [hfound.2.2.2 k hk, granted_other m away.2 (by rw [pdptEq]; exact away.1)]

/-- Pages that were mapped before are where they were. -/
theorem Written.kept (h : Sealed p m spaces) (hv : InWindow v) (hw : Written p v leaf m m' pt)
    (hin : InWindow w) (hne : pageNumber w ≠ pageNumber v) (hf : p.pages (pageNumber w) = some f) :
    leafFrame m'.mem (entries.windowPd m'.mem p.space.primary) w = some f := by
  rw [hw.pd]
  have leaf := h.pages w f hin hf
  have htab : entries.isTable (m.mem (entries.windowPd m.mem p.space.primary) (index w 1)) =
    true := by
    by_contra hc
    rw [leafFrame, if_neg hc] at leaf
    cases leaf
  by_cases hregion : index w 1 = index v 1
  · rcases hw.source with ⟨_, hpt, _, hsame⟩ | ⟨hblock, _⟩
    · have i0 : index w 0 ≠ index v 0 := fun hc => hne (pageNumber_window hv hin hregion hc)
      unfold leafFrame at leaf ⊢
      rw [if_pos htab, hregion, hpt] at leaf
      rw [hregion, hw.next, if_pos hw.table, hsame _ i0]
      exact leaf
    · rw [hregion, hblock] at htab
      cases htab
  · have apart : m.mem (entries.windowPd m.mem p.space.primary) (index w 1) &&& ADDR_MASK ≠ pt := by
      rcases hw.source with ⟨htab', hpt, _⟩ | ⟨_, hs⟩
      · exact fun hc => hregion (h.table_inj (index_lt w 1) (index_lt v 1) htab htab'
          (hc.trans hpt.symm))
      · exact fun hc => h.spent _ (h.table_mem (index_lt w 1) htab)
          (by rw [hs, hc]; exact List.mem_cons_self)
    obtain ⟨e1, e2, e3⟩ := h.distinct.2.2.2.2 _ (mem_splitTables.mpr ⟨_, index_lt w 1, htab, rfl⟩)
    unfold leafFrame at leaf ⊢
    rw [hw.pd_other _ hregion, hw.other _ apart e1 e2 e3]
    exact leaf

/-- The page of `v` is the new one. -/
theorem Written.newest (hw : Written p v leaf m m' pt) (hpresent : entries.present leaf = true)
    (hpage : pageNumber w = pageNumber v) :
    leafFrame m'.mem (entries.windowPd m'.mem p.space.primary) w = some (leaf &&& ADDR_MASK) := by
  obtain ⟨hregion, i0⟩ := region_of_path ((path_eq_iff w v).mpr hpage)
  rw [hw.pd, leafFrame, (index_of_region hregion).2.2, i0, hw.next, if_pos hw.table, hw.page,
    if_pos hpresent]

theorem Written.outside (h : Sealed p m spaces) (hw : Written p v leaf m m' pt) {x : U64}
    (hx : x ∉ p.frames) (hs : x ∉ m.supply) : m'.mem x = m.mem x := by
  have apart : ∀ f ∈ p.frames, x ≠ f := fun f hf hc => hx (hc ▸ hf)
  refine hw.other x ?_ (apart _ h.pd_mem) (apart _ h.pdpt_mem) (apart _ h.root_mem)
  rcases hw.source with ⟨htab, rfl, _⟩ | ⟨_, hsupply⟩
  · exact apart _ (h.table_mem (index_lt v 1) htab)
  · exact fun hc => hs (by rw [hsupply, hc]; exact List.mem_cons_self)

/-- A table is added to those of the process if it was split off for the page. -/
theorem Written.own (h : Sealed p m spaces) (hw : Written p v leaf m m' pt) :
    ∃ tables, m.supply = tables ++ m'.supply ∧
      (p.frames ++ tables).Perm (ownTables m'.mem p.space.primary) := by
  have tables := h.tables
  unfold ownTables at tables ⊢
  rw [hw.pd, hw.pdpt]
  rcases hw.source with ⟨htab, hpt, hs, _⟩ | ⟨hblock, hs⟩
  · refine ⟨[], hs.symm, ?_⟩
    have split : splitTables m'.mem (entries.windowPd m.mem p.space.primary) 512 =
        splitTables m.mem (entries.windowPd m.mem p.space.primary) 512 := by
      refine splitTables_congr fun k _ => ?_
      by_cases hk : k = index v 1
      · subst hk
        exact ⟨hw.table.trans htab.symm, fun _ => hw.next.trans hpt.symm⟩
      · rw [hw.pd_other k hk]
        exact ⟨rfl, fun _ => rfl⟩
    rw [List.append_nil, split]
    exact tables
  · refine ⟨[pt], hs, ?_⟩
    have split := splitTables_insert (index_lt v 1) hblock hw.table hw.pd_other
    rw [hw.next] at split
    refine List.perm_append_comm.trans ((tables.cons pt).trans ?_)
    rw [← List.cons_append]
    exact (split.append_right _).symm

theorem Sealed.paged (h : Sealed p m spaces) (hframe : entries.IsFrame p.space.primary)
    (hcr3 : m.regs.cr3 = p.space.primary) {domain : U64} {prot : Prot} (hv : InWindow v)
    (hexec : exec (.mapUserPage v phys prot domain) m = .ok made m') :
    made = none ∧ ∃ tables, Paged p v phys m m' tables := by
  have tiered := h.tiered hv.pageAlign.1 hv.pageAlign.2
  have cr3 : m.regs.cr3 &&& ADDR_MASK = p.space.primary := by
    rw [hcr3]
    exact hframe
  obtain ⟨rfl, mapped⟩ := (ends_edit (mapUserPage_tiered v phys prot domain tiered cr3)).ok hexec
  obtain ⟨lv, levelled, _⟩ := h.away
  obtain ⟨pt, placed⟩ := mapped.placed tiered levelled.heap.frame
  have written := h.written hv placed
  obtain ⟨tables, supply, own⟩ := written.own h
  refine ⟨rfl, tables, supply, fun x hx hs => written.outside h hx hs, written.windowed, own,
    fun w f hin hf => ?_⟩
  by_cases hpage : pageNumber w = pageNumber v
  · have value : (p.mapped v phys tables).pages (pageNumber w) = some (phys &&& ADDR_MASK) :=
      if_pos hpage
    rw [value] at hf
    cases hf
    rw [written.newest (userLeaf_present phys prot domain) hpage, userLeaf_frame]
  · refine written.kept h hv hin hpage ?_
    rw [← hf]
    exact (if_neg hpage).symm

theorem Sealed.mapped (h : Sealed p m spaces) {tables : List U64}
    (hp : Paged p v phys m m' tables) : Sealed (p.mapped v phys tables) m' spaces := by
  obtain ⟨lv, levelled, hnone⟩ := h.away
  have nodup := levelled.heap.nodup
  rw [hp.supply] at nodup
  obtain ⟨hnew, hrest, hapart⟩ := List.nodup_append.mp nodup
  have taken : ∀ f ∈ tables, f ∈ m.supply := fun f hf => by
    rw [hp.supply]
    exact List.mem_append_left _ hf
  have later : ∀ f ∈ m'.supply, f ∈ m.supply := fun f hf => by
    rw [hp.supply]
    exact List.mem_append_right _ hf
  constructor
  case listed => exact h.listed
  case away =>
    refine ⟨lv, levelled.same (fun t n hn => ?_) hrest later, fun f hf => ?_⟩
    · refine hp.other t (fun hc => ?_) (levelled.heap.not_free hn)
      rw [hnone t hc] at hn
      cases hn
    · rcases List.mem_append.mp hf with hf | hf
      · exact hnone f hf
      · exact levelled.heap.free f (taken f hf)
  case spent =>
    intro f hf hc
    rcases List.mem_append.mp hf with hf | hf
    · exact h.spent f hf (later f hc)
    · exact hapart f hf f hc rfl
  case windowed => exact hp.windowed
  case tables => exact hp.own
  case nodup =>
    refine List.nodup_append.mpr ⟨h.nodup, hnew, fun f hf g hg hc => ?_⟩
    exact h.spent f hf (hc ▸ taken g hg)
  case pages => exact hp.pages

end

end X86

end Praesidium
