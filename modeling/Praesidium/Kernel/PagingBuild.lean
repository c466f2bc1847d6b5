import Praesidium.Kernel.PagingTyped

/-!
What the tables that are built and copied hold.

`mapLow`, `mapKernel` and `cloneWindow` take their frames from the head of the supply and
write to nothing else but the root they are given:

    mapLow    the supply gives pdpt and pds; root[i] leads to pdpt, pdpt[g] to pds[g], and
              pds[g] holds the 2 MiB leaves of gibibyte g                      (mapLow_spec)
    mapKernel three tables, entered under the image's own entry of the root; the last holds the
              image page by page, and the entries around it are zero         (mapKernel_spec)

Both return when the supply has the frames, `mapKernel` when no address sum overflows.
-/

namespace Praesidium

namespace Paging

open Fallible Radix

variable {R : Type} {d : Entries} {m : Machine R}

/-! ## The low physical map -/

/-- Leaf `j` of gibibyte `g`. -/
def Entries.lowLeaf (d : Entries) (g j : Nat) : U64 :=
  d.block (BitVec.ofNat 64 g <<< 30 ||| BitVec.ofNat 64 j <<< 21)

/-- The tables after `n` gibibytes of `mapLow`. -/
structure LowMapped (d : Entries) (root : U64) (i : Nat) (m : Machine R) (pdpt : U64)
    (pds : List U64) (m' : Machine R) : Prop where
  supply : m.supply = pdpt :: (pds ++ m'.supply)
  regs : m'.regs = m.regs
  root_entry : m'.mem root i = pdpt ||| d.tableBits
  root_other : ∀ i', i' ≠ i → m'.mem root i' = m.mem root i'
  pdpt_entry : ∀ g pd, pds[g]? = some pd → m'.mem pdpt g = pd ||| d.tableBits
  pdpt_other : ∀ g, pds.length ≤ g → m'.mem pdpt g = 0
  pd_entries : ∀ g pd, pds[g]? = some pd → m'.mem pd = full (d.lowLeaf g)
  other : ∀ t, t ∉ m.supply → t ≠ root → m'.mem t = m.mem t

variable {root pdpt v f kbase : U64} {i : Nat} {pds rest : List U64} {m' : Machine R}
  {mem mem' : Mem U64} {km : KernelMap}

theorem LowMapped.step {pd : U64} {t : Machine R} (hnodup : m.supply.Nodup)
    (hroot : root ∉ m.supply) (h : LowMapped d root i m pdpt pds t) (hs : t.supply = pd :: rest) :
    LowMapped d root i m pdpt (pds ++ [pd])
      { t with
        mem := ((t.mem.fill pd fun _ => 0).set pdpt pds.length (pd ||| d.tableBits)).fill pd
          (full (d.lowLeaf pds.length))
        supply := rest } := by
  have supply : m.supply = pdpt :: (pds ++ (pd :: rest)) := hs ▸ h.supply
  rw [supply] at hnodup hroot
  have hpdpt : pdpt ∉ pds ++ (pd :: rest) := (List.nodup_cons.mp hnodup).1
  have hpd : pd ≠ pdpt := fun hc => hpdpt (by rw [← hc]; simp)
  have hroot_pd : root ≠ pd := fun hc => hroot (by rw [hc]; simp)
  have hroot_pdpt : root ≠ pdpt := fun hc => hroot (by rw [hc]; simp)
  have hpds : ∀ x ∈ pds, x ≠ pd ∧ x ≠ pdpt := by
    intro x hx
    have disjoint := (List.nodup_append.mp (List.nodup_cons.mp hnodup).2).2.2
    exact ⟨disjoint x hx pd List.mem_cons_self, fun hc => hpdpt (by rw [← hc]; simp [hx])⟩
  constructor
  case supply => rw [supply]; simp
  case regs => exact h.regs
  case root_entry =>
    show Mem.fill _ pd _ root i = _
    rw [Mem.fill_ne _ hroot_pd, Mem.set_table_ne _ hroot_pdpt, Mem.fill_ne _ hroot_pd, h.root_entry]
  case root_other =>
    intro i' hi'
    show Mem.fill _ pd _ root i' = _
    rw [Mem.fill_ne _ hroot_pd, Mem.set_table_ne _ hroot_pdpt, Mem.fill_ne _ hroot_pd,
      h.root_other i' hi']
  case pdpt_entry =>
    intro g x hx
    show Mem.fill _ pd _ pdpt g = _
    rw [Mem.fill_ne _ hpd.symm]
    by_cases hg : g = pds.length
    · subst hg
      rw [Mem.set_self]
      rw [List.getElem?_append_right (Nat.le_refl _), Nat.sub_self] at hx
      cases hx
      rfl
    · have hlt : g < pds.length := by
        have := (List.getElem?_eq_some_iff.mp hx).1
        rw [List.length_append, List.length_singleton] at this
        omega
      rw [Mem.set_index_ne _ hg, Mem.fill_ne _ hpd.symm]
      rw [List.getElem?_append_left hlt] at hx
      exact h.pdpt_entry g x hx
  case pdpt_other =>
    intro g hg
    rw [List.length_append, List.length_singleton] at hg
    show Mem.fill _ pd _ pdpt g = _
    rw [Mem.fill_ne _ hpd.symm, Mem.set_index_ne _ (by omega), Mem.fill_ne _ hpd.symm]
    exact h.pdpt_other g (by omega)
  case pd_entries =>
    intro g x hx
    by_cases hg : g = pds.length
    · subst hg
      rw [List.getElem?_append_right (Nat.le_refl _), Nat.sub_self] at hx
      cases hx
      exact Mem.fill_self ..
    · have hlt : g < pds.length := by
        have := (List.getElem?_eq_some_iff.mp hx).1
        rw [List.length_append, List.length_singleton] at this
        omega
      rw [List.getElem?_append_left hlt] at hx
      have away := hpds x (List.mem_of_getElem? hx)
      show Mem.fill _ pd _ x = _
      rw [Mem.fill_ne _ away.1, Mem.set_table_ne _ away.2, Mem.fill_ne _ away.1]
      exact h.pd_entries g x hx
  case other =>
    intro x hx hne
    have hx' := hx
    rw [supply] at hx'
    have x_pd : x ≠ pd := fun hc => hx' (by rw [hc]; simp)
    have x_pdpt : x ≠ pdpt := fun hc => hx' (by rw [hc]; simp)
    show Mem.fill _ pd _ x = _
    rw [Mem.fill_ne _ x_pd, Mem.set_table_ne _ x_pdpt, Mem.fill_ne _ x_pd]
    exact h.other x hx hne

theorem mapLow_spec (hnodup : m.supply.Nodup) (hroot : root ∉ m.supply) (i : Nat) (bytes : U64) :
    Ends (mapLow d root i bytes) m
      (fun _ m' => ∃ pdpt pds, pds.length = (bytes.toNat + GIB - 1) / GIB ∧
        LowMapped d root i m pdpt pds m')
      (fun e _ => e = .outOfFrames ∧ m.supply.length < (bytes.toNat + GIB - 1) / GIB + 1) := by
  unfold mapLow
  rw [ends_bind, ends_allocTable]
  refine ⟨fun hs => ⟨rfl, by rw [hs]; exact Nat.succ_pos _⟩, fun pdpt rest hs => ?_⟩
  have hroot_pdpt : root ≠ pdpt := fun hc => hroot (by rw [hs, hc]; exact List.mem_cons_self)
  rw [ends_bind, ends_writeEntry]
  refine (ends_forRange (fun g t => ∃ pds, pds.length = g ∧ LowMapped d root i m pdpt pds t) _ _
    ⟨[], rfl, ?_⟩ ?_).imp (fun _ t ht => ⟨pdpt, ht⟩) (fun _ _ h => h)
  · constructor
    case supply => exact hs
    case regs => rfl
    case root_entry => exact Mem.set_self ..
    case root_other =>
      intro i' hi'
      show ((m.mem.fill pdpt fun _ => 0).set root i _) root i' = _
      rw [Mem.set_index_ne _ hi', Mem.fill_ne _ hroot_pdpt]
    case pdpt_entry => intro g pd hpd; cases hpd
    case pdpt_other =>
      intro g _
      show ((m.mem.fill pdpt fun _ => 0).set root i _) pdpt g = _
      rw [Mem.set_table_ne _ hroot_pdpt.symm, Mem.fill_self]
    case pd_entries => intro g pd hpd; cases hpd
    case other =>
      intro t ht hne
      have ht_pdpt : t ≠ pdpt := fun hc => ht (by rw [hs, hc]; exact List.mem_cons_self)
      show ((m.mem.fill pdpt fun _ => 0).set root i _) t = _
      rw [Mem.set_table_ne _ hne, Mem.fill_ne _ ht_pdpt]
  · intro g t hg ht
    obtain ⟨pds, hlen, low⟩ := ht
    rw [ends_bind, ends_allocTable]
    refine ⟨fun hempty => ⟨rfl, ?_⟩, fun pd rest' hs' => ?_⟩
    · rw [low.supply, hempty, List.append_nil, List.length_cons, hlen]
      omega
    · rw [ends_bind, ends_writeEntry, ends_writeTable]
      refine ⟨pds ++ [pd], by rw [List.length_append, hlen]; rfl, ?_⟩
      have stepped := low.step hnodup hroot hs'
      have hpd : pd ≠ pdpt := fun hc => by
        have supply := low.supply
        rw [hs'] at supply
        rw [supply] at hnodup
        exact (List.nodup_cons.mp hnodup).1 (by rw [← hc]; simp)
      subst hlen
      have filled : (fun j => if j < 512 then d.block (BitVec.ofNat 64 pds.length <<< 30 |||
        BitVec.ofNat 64 j <<< 21)
          else ((t.mem.fill pd fun _ => 0).set pdpt pds.length (pd ||| d.tableBits)) pd j) =
          full (d.lowLeaf pds.length) := by
        funext j
        rw [Mem.set_table_ne _ hpd, Mem.fill_self]
        rfl
      rw [filled]
      exact stepped

/-- The tables that `mapLow` leaves. -/
structure LowTables (d : Entries) (root : U64) (i : Nat) (pdpt : U64) (pds : List U64)
    (mem : Mem U64) : Prop where
  root_entry : mem root i = pdpt ||| d.tableBits
  pdpt_entry : ∀ g pd, pds[g]? = some pd → mem pdpt g = pd ||| d.tableBits
  pdpt_other : ∀ g, pds.length ≤ g → mem pdpt g = 0
  pd_entries : ∀ g pd, pds[g]? = some pd → mem pd = full (d.lowLeaf g)

theorem LowMapped.tables (h : LowMapped d root i m pdpt pds m') :
    LowTables d root i pdpt pds m'.mem := ⟨h.root_entry, h.pdpt_entry, h.pdpt_other, h.pd_entries⟩

theorem LowTables.kept (h : LowTables d root i pdpt pds mem) (hroot : mem' root i = mem root i)
    (hsame : ∀ t ∈ pdpt :: pds, mem' t = mem t) : LowTables d root i pdpt pds mem' := by
  have hpdpt := hsame pdpt List.mem_cons_self
  have hpds : ∀ g pd, pds[g]? = some pd → mem' pd = mem pd := fun g pd hpd =>
    hsame pd (List.mem_cons_of_mem _ (List.mem_of_getElem? hpd))
  refine ⟨hroot.trans h.root_entry, fun g pd hpd => ?_, fun g hg => ?_, fun g pd hpd => ?_⟩
  · rw [hpdpt]; exact h.pdpt_entry g pd hpd
  · rw [hpdpt]; exact h.pdpt_other g hg
  · rw [hpds g pd hpd]; exact h.pd_entries g pd hpd

/-- The regions of the physical map are mapped. -/
theorem LowTables.mapped (hd : d.Lawful) (h : LowTables d root i pdpt pds mem)
    (hpdpt : d.IsFrame pdpt) {g : Nat} {pd : U64} (hg : pds[g]? = some pd) (hpd : d.IsFrame pd)
    (hblock : ∀ pa, d.present (d.block pa) = true) (h3 : index v 3 = i) (h2 : index v 2 = g) :
    d.Mapped mem root v := by
  have entry : mem root (index v 3) = pdpt ||| d.tableBits := by rw [h3]; exact h.root_entry
  have pdpt_eq : d.pdptOf mem root v = pdpt := by
    unfold Entries.pdptOf
    rw [entry]
    exact hd.next_table hpdpt
  have entry2 : mem (d.pdptOf mem root v) (index v 2) = pd ||| d.tableBits := by
    rw [pdpt_eq, h2]
    exact h.pdpt_entry g pd hg
  have pd_eq : d.pdOf mem root v = pd := by
    unfold Entries.pdOf
    rw [entry2]
    exact hd.next_table hpd
  refine ⟨by rw [entry]; exact hd.present_table pdpt hpdpt, ?_, ?_⟩
  · rw [entry2, hd.isTable_eq 2 _ (.inr rfl), hd.present_table pd hpd, hd.isLeaf_table 2 pd hpd]
    rfl
  · unfold Entries.pdeOf
    rw [pd_eq, h.pd_entries g pd hg, full_of_lt _ (index_lt v 1)]
    exact hblock _

/-- `gibs` gibibytes of physical memory are mapped under entry `i` of the root, by tables among
`used`. -/
def LowArea (d : Entries) (root : U64) (i gibs : Nat) (used : List U64) (mem : Mem U64) : Prop :=
  ∃ pdpt pds, pds.length = gibs ∧ (∀ t ∈ pdpt :: pds, t ∈ used) ∧ LowTables d root i pdpt pds mem

theorem LowArea.mono {gibs : Nat} {used used' : List U64} (h : LowArea d root i gibs used mem)
    (hsub : used ⊆ used') : LowArea d root i gibs used' mem := by
  obtain ⟨pdpt, pds, hlen, hmem, tables⟩ := h
  exact ⟨pdpt, pds, hlen, fun t ht => hsub (hmem t ht), tables⟩

theorem LowArea.mapped (hd : d.Lawful) {gibs : Nat} {used : List U64}
    (h : LowArea d root i gibs used mem) (hused : ∀ t ∈ used, d.IsFrame t)
    (hblock : ∀ pa, d.present (d.block pa) = true) (h3 : index v 3 = i) (h2 : index v 2 < gibs) :
    d.Mapped mem root v := by
  obtain ⟨pdpt, pds, hlen, hmem, tables⟩ := h
  obtain ⟨pd, hpd⟩ : ∃ pd, pds[index v 2]? = some pd := ⟨_, List.getElem?_eq_getElem (by omega)⟩
  have frame_pd : d.IsFrame pd :=
    hused pd (hmem pd (List.mem_cons_of_mem _ (List.mem_of_getElem? hpd)))
  exact tables.mapped hd (hused pdpt (hmem pdpt List.mem_cons_self)) hpd frame_pd hblock h3 rfl

/-! ## The kernel image -/

/-- No address of the image or of its copy in memory runs over. -/
structure ImageFits (km : KernelMap) : Prop where
  phys : km.kernelPhys.toNat + 4096 * imagePages km ≤ 2 ^ 64
  virt : km.kernelVbase.toNat + 4096 * imagePages km < 2 ^ 64

theorem imageAddr_toNat (hkm : ImageFits km) {k : Nat} (hk : k < imagePages km) :
    (km.kernelVbase + BitVec.ofNat 64 k * PAGE).toNat = km.kernelVbase.toNat + 4096 * k ∧
      (km.kernelVbase + BitVec.ofNat 64 k * PAGE - km.kernelVbase).toNat = 4096 * k := by
  have hpage : PAGE.toNat = 4096 := by decide
  have virt := hkm.virt
  have off : (BitVec.ofNat 64 k * PAGE).toNat = 4096 * k := by
    rw [BitVec.toNat_mul, BitVec.toNat_ofNat, hpage]
    omega
  constructor
  · rw [BitVec.toNat_add, off]
    omega
  · rw [BitVec.add_comm, BitVec.add_sub_cancel, off]

/-- The virtual address of page `k` of the image. -/
def imageAddr (km : KernelMap) (k : Nat) : U64 := km.kernelVbase + BitVec.ofNat 64 k * PAGE

/-- The leaf of page `k` of the image. -/
def Entries.imageLeaf (d : Entries) (km : KernelMap) (k : Nat) : U64 :=
  d.page (km.kernelPhys + (imageAddr km k - km.kernelVbase)) (sectionProt km (imageAddr km k))

/-- The table of the image after `n` pages. -/
def Entries.imageTable (d : Entries) (km : KernelMap) : Nat → Nat → U64
  | 0 => fun _ => 0
  | n + 1 => Function.update (d.imageTable km n) (index (imageAddr km n) 0) (d.imageLeaf km n)

/-- A page of the image is entered in `pt`, nowhere else. -/
theorem mapImagePage_spec (km : KernelMap) (pt : U64) (k : Nat) (hk : k < imagePages km) :
    Ends (mapImagePage d km pt k) m
      (fun _ m' =>
        m' = { m with mem := m.mem.set pt (index (imageAddr km k) 0) (d.imageLeaf km k) })
      (fun e _ => e = .overflow ∧ ¬ ImageFits km) := by
  unfold mapImagePage
  rw [ends_bind, ends_okOr]
  refine ⟨fun hnone => ⟨rfl, fun hkm => ?_⟩, fun pa hpa => ?_⟩
  · have excess := (Word.checkedAdd_eq_none _ _).mp hnone
    rw [(imageAddr_toNat hkm hk).2] at excess
    have phys := hkm.phys
    omega
  have sum : pa = km.kernelPhys + (imageAddr km k - km.kernelVbase) := by
    apply BitVec.eq_of_toNat_eq
    have hsum := (Word.checkedAdd_eq_some _ _ _).mp hpa
    have bound := pa.isLt
    rw [BitVec.toNat_add, hsum]
    exact (Nat.mod_eq_of_lt (hsum ▸ bound)).symm
  rw [ends_bind, ends_writeEntry, ends_bind, ends_okOr]
  refine ⟨fun hnone => ⟨rfl, fun hkm => ?_⟩, fun _ _ => ?_⟩
  · have excess := (Word.checkedAdd_eq_none _ _).mp hnone
    rw [(imageAddr_toNat hkm hk).1] at excess
    have virt := hkm.virt
    have hpage : PAGE.toNat = 4096 := by decide
    omega
  · rw [ends_pure, sum]
    rfl

/-- The tables after `n` pages of `mapKernel`. -/
structure KernelMapped (d : Entries) (root : U64) (km : KernelMap) (n : Nat) (m : Machine R)
    (pdpt pd pt : U64) (m' : Machine R) : Prop where
  supply : m.supply = pdpt :: pd :: pt :: m'.supply
  regs : m'.regs = m.regs
  root_entry : m'.mem root (index km.kernelVbase 3) = pdpt ||| d.tableBits
  root_other : ∀ i, i ≠ index km.kernelVbase 3 → m'.mem root i = m.mem root i
  pdpt_entries : m'.mem pdpt = Function.update (fun _ => 0) (index km.kernelVbase 2)
    (pd ||| d.tableBits)
  pd_entries : m'.mem pd = Function.update (fun _ => 0) (index km.kernelVbase 1)
    (pt ||| d.tableBits)
  pt_entries : m'.mem pt = d.imageTable km n
  other : ∀ t, t ∉ m.supply → t ≠ root → m'.mem t = m.mem t

section

variable {root pdpt pd pt : U64} {km : KernelMap} {n : Nat} {t : Machine R}

theorem KernelMapped.step (hnodup : m.supply.Nodup) (hroot : root ∉ m.supply)
    (h : KernelMapped d root km n m pdpt pd pt t) :
    KernelMapped d root km (n + 1) m pdpt pd pt
      { t with mem := t.mem.set pt (index (imageAddr km n) 0) (d.imageLeaf km n) } := by
  have supply := h.supply
  rw [supply] at hnodup hroot
  simp only [List.nodup_cons, List.mem_cons, not_or] at hnodup hroot
  obtain ⟨⟨_, pdpt_pt, _⟩, ⟨pd_pt, _⟩, _⟩ := hnodup
  obtain ⟨_, _, root_pt, _⟩ := hroot
  have same : ∀ x, x ≠ pt → t.mem.set pt (index (imageAddr km n) 0) (d.imageLeaf km n) x =
    t.mem x := fun x hx => Mem.set_table_ne _ hx _ _
  constructor
  case supply => exact supply
  case regs => exact h.regs
  case root_entry => exact (congrFun (same root root_pt) _).trans h.root_entry
  case root_other => intro i hi; exact (congrFun (same root root_pt) i).trans (h.root_other i hi)
  case pdpt_entries => exact (same pdpt pdpt_pt).trans h.pdpt_entries
  case pd_entries => exact (same pd pd_pt).trans h.pd_entries
  case pt_entries =>
    funext i
    rw [Entries.imageTable]
    by_cases hi : i = index (imageAddr km n) 0
    · rw [hi, Function.update_self]
      exact Mem.set_self ..
    · rw [Function.update_of_ne hi, ← h.pt_entries]
      exact Mem.set_index_ne _ hi _
  case other =>
    intro x hx hne
    exact (same x fun hc => hx (by rw [supply, hc]; simp)).trans (h.other x hx hne)

end

/-- An entry written to a table of zeros. -/
theorem set_zero {t : U64} (h : mem t = fun _ => 0) (i : Nat) (e : U64) :
    mem.set t i e t = Function.update (fun _ => 0) i e := by
  funext j
  by_cases hj : j = i
  · rw [hj, Mem.set_self, Function.update_self]
  · rw [Mem.set_index_ne _ hj, Function.update_of_ne hj, h]

theorem mapKernel_spec (hnodup : m.supply.Nodup) (hroot : root ∉ m.supply) (km : KernelMap) :
    Ends (mapKernel d root km) m
      (fun _ m' => ∃ pdpt pd pt, KernelMapped d root km (imagePages km) m pdpt pd pt m')
      (fun e _ => (e = .outOfFrames ∧ m.supply.length < 3) ∨ (e = .overflow ∧ ¬ ImageFits km)) := by
  unfold mapKernel
  rw [ends_bind, ends_allocTable]
  refine ⟨fun hs => .inl ⟨rfl, by rw [hs]; decide⟩, fun pdpt rest1 hs1 => ?_⟩
  rw [ends_bind, ends_writeEntry, ends_bind, ends_allocTable]
  refine ⟨fun hs => .inl ⟨rfl, ?_⟩, fun pd rest2 hs2 => ?_⟩
  · have hs' : rest1 = [] := hs
    rw [hs1, hs']
    simp
  rw [ends_bind, ends_writeEntry, ends_bind, ends_allocTable]
  refine ⟨fun hs => .inl ⟨rfl, ?_⟩, fun pt rest3 hs3 => ?_⟩
  · have hs1' : rest1 = pd :: rest2 := hs2
    have hs2' : rest2 = [] := hs
    rw [hs1, hs1', hs2']
    simp
  have supply : m.supply = pdpt :: pd :: pt :: rest3 := by
    have hs1' : rest1 = pd :: rest2 := hs2
    have hs2' : rest2 = pt :: rest3 := hs3
    rw [hs1, hs1', hs2']
  have away : ∀ t, t ∉ m.supply → t ≠ pdpt ∧ t ≠ pd ∧ t ≠ pt := by
    intro t ht
    rw [supply] at ht
    simp only [List.mem_cons, not_or] at ht
    exact ⟨ht.1, ht.2.1, ht.2.2.1⟩
  obtain ⟨root_pdpt, root_pd, root_pt⟩ := away root hroot
  have distinct := hnodup
  rw [supply] at distinct
  simp only [List.nodup_cons, List.mem_cons, not_or] at distinct
  obtain ⟨⟨pdpt_pd, pdpt_pt, _⟩, ⟨pd_pt, _⟩, _⟩ := distinct
  rw [ends_bind, ends_writeEntry]
  refine (ends_forRange (fun n t => KernelMapped d root km n m pdpt pd pt t) _ _ ?_ ?_).imp
    (fun _ t ht => ⟨pdpt, pd, pt, ht⟩) (fun _ _ h => h)
  · constructor
    case supply => exact supply
    case regs => rfl
    case root_entry =>
      show Mem.set (Mem.fill (Mem.set (Mem.fill (Mem.set (Mem.fill m.mem pdpt _) root _ _) pd _)
        pdpt _ _) pt _) pd _ _ root _ = _
      rw [Mem.set_table_ne _ root_pd, Mem.fill_ne _ root_pt, Mem.set_table_ne _ root_pdpt,
        Mem.fill_ne _ root_pd, Mem.set_self]
    case root_other =>
      intro i hi
      show Mem.set (Mem.fill (Mem.set (Mem.fill (Mem.set (Mem.fill m.mem pdpt _) root _ _) pd _)
        pdpt _ _) pt _) pd _ _ root i = _
      rw [Mem.set_table_ne _ root_pd, Mem.fill_ne _ root_pt, Mem.set_table_ne _ root_pdpt,
        Mem.fill_ne _ root_pd, Mem.set_index_ne _ hi, Mem.fill_ne _ root_pdpt]
    case pdpt_entries =>
      show Mem.set (Mem.fill (Mem.set _ pdpt _ _) pt _) pd _ _ pdpt = _
      rw [Mem.set_table_ne _ pdpt_pd, Mem.fill_ne _ pdpt_pt]
      refine set_zero ?_ _ _
      show Mem.fill (Mem.set (Mem.fill m.mem pdpt _) root _ _) pd _ pdpt = _
      rw [Mem.fill_ne _ pdpt_pd, Mem.set_table_ne _ root_pdpt.symm, Mem.fill_self]
    case pd_entries =>
      refine set_zero ?_ _ _
      show Mem.fill (Mem.set (Mem.fill _ pd _) pdpt _ _) pt _ pd = _
      rw [Mem.fill_ne _ pd_pt, Mem.set_table_ne _ (Ne.symm pdpt_pd), Mem.fill_self]
    case pt_entries =>
      show Mem.set (Mem.fill _ pt _) pd _ _ pt = _
      rw [Mem.set_table_ne _ (Ne.symm pd_pt), Mem.fill_self]
      rfl
    case other =>
      intro x hx hne
      obtain ⟨h1, h2, h3⟩ := away x hx
      show Mem.set (Mem.fill (Mem.set (Mem.fill (Mem.set (Mem.fill m.mem pdpt _) root _ _) pd _)
        pdpt _ _) pt _) pd _ _ x = _
      rw [Mem.set_table_ne _ h2, Mem.fill_ne _ h3, Mem.set_table_ne _ h1, Mem.fill_ne _ h2,
        Mem.set_table_ne _ hne, Mem.fill_ne _ h1]
  · intro k t hk ht
    refine (mapImagePage_spec km pt k hk).imp (fun _ t' ht' => ?_) (fun _ _ h => .inr h)
    rw [ht']
    exact ht.step hnodup hroot

/-- The tables that `mapKernel` leaves. -/
structure KernelTables (d : Entries) (root : U64) (km : KernelMap) (pdpt pd pt : U64)
    (mem : Mem U64) : Prop where
  root_entry : mem root (index km.kernelVbase 3) = pdpt ||| d.tableBits
  pdpt_entries : mem pdpt = Function.update (fun _ => 0) (index km.kernelVbase 2)
    (pd ||| d.tableBits)
  pd_entries : mem pd = Function.update (fun _ => 0) (index km.kernelVbase 1) (pt ||| d.tableBits)
  pt_entries : mem pt = d.imageTable km (imagePages km)

theorem KernelMapped.tables {pd pt : U64}
    (h : KernelMapped d root km (imagePages km) m pdpt pd pt m') :
    KernelTables d root km pdpt pd pt m'.mem :=
  ⟨h.root_entry, h.pdpt_entries, h.pd_entries, h.pt_entries⟩

/-- The image is mapped under its entry of the root, by tables among `used`. -/
def ImageArea (d : Entries) (root : U64) (km : KernelMap) (used : List U64)
    (mem : Mem U64) : Prop :=
  ∃ pdpt pd pt, (pdpt ∈ used ∧ pd ∈ used ∧ pt ∈ used) ∧ KernelTables d root km pdpt pd pt mem

theorem ImageArea.mono {used used' : List U64} (h : ImageArea d root km used mem)
    (hsub : used ⊆ used') : ImageArea d root km used' mem := by
  obtain ⟨pdpt, pd, pt, ⟨h3, h2, h1⟩, tables⟩ := h
  exact ⟨pdpt, pd, pt, ⟨hsub h3, hsub h2, hsub h1⟩, tables⟩

/-! ## Copies of the window -/

/-- A copy `t` of the table that `e` leads to, under entry `i` of `parent`. -/
structure CopiedUnder (d : Entries) (m : Machine R) (parent : U64) (i : Nat) (e t : U64)
    (m' : Machine R) : Prop where
  supply : m.supply = t :: m'.supply
  regs : m'.regs = m.regs
  link : m'.mem parent i = d.moved t e
  parent_other : ∀ k, k ≠ i → m'.mem parent k = m.mem parent k
  copy : e &&& d.addrMask ∉ m.supply → ∀ k, k < 512 → m'.mem t k = m.mem (e &&& d.addrMask) k
  other : ∀ x, x ≠ t → x ≠ parent → m'.mem x = m.mem x

/-- Copy the table that `e` leads to, and lead entry `i` of `parent` there. -/
theorem cloneUnder_spec {parent : U64} (hp : parent ∉ m.supply) (i : Nat) (e : U64) :
    Ends (cloneTable (e &&& d.addrMask)) m
      (fun t s => CopiedUnder d m parent i e t { s with mem := s.mem.set parent i (d.moved t e) })
      (fun err _ => err = .outOfFrames ∧ m.supply = []) := by
  rw [ends_cloneTable]
  refine ⟨fun hs => ⟨rfl, hs⟩, fun t rest hs => ?_⟩
  have ht : t ∈ m.supply := by rw [hs]; exact List.mem_cons_self
  have hpt : parent ≠ t := fun hc => hp (hc ▸ ht)
  constructor
  case supply => exact hs
  case regs => rfl
  case link => exact Mem.set_self ..
  case parent_other =>
    intro k hk
    show Mem.set (Mem.fill _ t _) parent i _ parent k = _
    rw [Mem.set_index_ne _ hk, Mem.fill_ne _ hpt]
  case copy =>
    intro ho k hk
    have hne : e &&& d.addrMask ≠ t := fun hc => ho (hc ▸ ht)
    show Mem.set (Mem.fill _ t _) parent i _ t k = _
    rw [Mem.set_table_ne _ hpt.symm, Mem.fill_self, full_of_lt _ hk, Mem.fill_ne _ hne]
  case other =>
    intro x hx hxp
    show Mem.set (Mem.fill _ t _) parent i _ x = _
    rw [Mem.set_table_ne _ hxp, Mem.fill_ne _ hx]

/-- The first `n` entries of `pd` have been given tables of their own, `pts`. -/
structure Privatised (d : Entries) (pd : U64) (m : Machine R) (n : Nat) (pts : Nat → U64)
    (used : List U64) (t : Machine R) : Prop where
  supply : m.supply = used ++ t.supply
  few : used.length ≤ n
  regs : t.regs = m.regs
  taken : ∀ j, j < n → d.isTable (m.mem pd j) = true → pts j ∈ used
  distinct : ∀ j j', j < n → j' < n → d.isTable (m.mem pd j) = true →
    d.isTable (m.mem pd j') = true → pts j = pts j' → j = j'
  plain : ∀ j, (j < n → d.isTable (m.mem pd j) = false) → t.mem pd j = m.mem pd j
  table : ∀ j, j < n → d.isTable (m.mem pd j) = true → t.mem pd j = d.moved (pts j) (m.mem pd j)
  copy : ∀ j, j < n → d.isTable (m.mem pd j) = true → m.mem pd j &&& d.addrMask ∉ m.supply →
    m.mem pd j &&& d.addrMask ≠ pd → ∀ k, k < 512 →
    t.mem (pts j) k = m.mem (m.mem pd j &&& d.addrMask) k
  other : ∀ x, x ∉ m.supply → x ≠ pd → t.mem x = m.mem x

section

variable {pd : U64} {n : Nat} {pts : Nat → U64} {used : List U64} {t t' : Machine R}

theorem Privatised.skip (h : Privatised d pd m n pts used t) (hn : d.isTable (m.mem pd n) = false) :
    Privatised d pd m (n + 1) pts used t := by
  have below : ∀ j, j < n + 1 → d.isTable (m.mem pd j) = true → j < n := fun j hj ht => by
    have hjn : j ≠ n := fun hc => by rw [hc, hn] at ht; cases ht
    omega
  constructor
  case supply => exact h.supply
  case few => exact Nat.le_succ_of_le h.few
  case regs => exact h.regs
  case taken => intro j hj ht; exact h.taken j (below j hj ht) ht
  case distinct =>
    intro j j' hj hj' ht ht'
    exact h.distinct j j' (below j hj ht) (below j' hj' ht') ht ht'
  case plain => intro j hj; exact h.plain j fun hlt => hj (by omega)
  case table => intro j hj ht; exact h.table j (below j hj ht) ht
  case copy => intro j hj ht; exact h.copy j (below j hj ht) ht
  case other => exact h.other

theorem Privatised.take (hnodup : m.supply.Nodup) (hpd : pd ∉ m.supply)
    (h : Privatised d pd m n pts used t) (hn : d.isTable (m.mem pd n) = true)
    (hu : CopiedUnder d t pd n (m.mem pd n) f t') :
    Privatised d pd m (n + 1) (Function.update pts n f) (used ++ [f]) t' := by
  have supply : m.supply = used ++ (f :: t'.supply) := hu.supply ▸ h.supply
  have hf : f ∈ m.supply := by rw [supply]; simp
  have used_f : ∀ x ∈ used, x ≠ f := fun x hx => by
    rw [supply] at hnodup
    exact (List.nodup_append.mp hnodup).2.2 x hx f List.mem_cons_self
  have used_pd : ∀ x ∈ used, x ≠ pd := fun x hx hc => hpd (by rw [supply, ← hc]; simp [hx])
  have old : ∀ j, j < n → Function.update pts n f j = pts j :=
    fun j hj => Function.update_of_ne (by omega) ..
  constructor
  case supply => rw [supply]; simp
  case few =>
    have := h.few
    rw [List.length_append, List.length_singleton]
    omega
  case regs => exact hu.regs.trans h.regs
  case taken =>
    intro j hj ht
    rcases Nat.lt_succ_iff_lt_or_eq.mp hj with hlt | rfl
    · rw [old j hlt]
      exact List.mem_append_left _ (h.taken j hlt ht)
    · rw [Function.update_self]
      exact List.mem_append_right _ List.mem_cons_self
  case distinct =>
    intro j j' hj hj' ht ht' heq
    rcases Nat.lt_succ_iff_lt_or_eq.mp hj with hlt | rfl
    · rcases Nat.lt_succ_iff_lt_or_eq.mp hj' with hlt' | rfl
      · rw [old j hlt, old j' hlt'] at heq
        exact h.distinct j j' hlt hlt' ht ht' heq
      · rw [old j hlt, Function.update_self] at heq
        exact absurd heq (used_f _ (h.taken j hlt ht))
    · rcases Nat.lt_succ_iff_lt_or_eq.mp hj' with hlt' | rfl
      · rw [old j' hlt', Function.update_self] at heq
        exact absurd heq.symm (used_f _ (h.taken j' hlt' ht'))
      · rfl
  case plain =>
    intro j hj
    have hjn : j ≠ n := fun hc => by
      have := hj (by omega)
      rw [hc, hn] at this
      cases this
    rw [hu.parent_other j hjn]
    exact h.plain j fun hlt => hj (by omega)
  case table =>
    intro j hj ht
    rcases Nat.lt_succ_iff_lt_or_eq.mp hj with hlt | rfl
    · rw [hu.parent_other j (by omega), old j hlt]
      exact h.table j hlt ht
    · rw [Function.update_self]
      exact hu.link
  case copy =>
    intro j hj ht hsup hself k hk
    rcases Nat.lt_succ_iff_lt_or_eq.mp hj with hlt | rfl
    · have huse := h.taken j hlt ht
      rw [old j hlt, hu.other _ (used_f _ huse) (used_pd _ huse)]
      exact h.copy j hlt ht hsup hself k hk
    · have settled : m.mem pd j &&& d.addrMask ∉ t.supply := fun hc =>
        hsup (by rw [h.supply]; exact List.mem_append_right _ hc)
      rw [Function.update_self, hu.copy settled k hk, h.other _ hsup hself]
  case other =>
    intro x hx hne
    rw [hu.other x (fun hc => hx (hc ▸ hf)) hne]
    exact h.other x hx hne

end

/-- The entries of `pd` below `n` that lead to tables. -/
def Entries.tablesIn (d : Entries) (mem : Mem U64) (pd : U64) (n : Nat) : List Nat :=
  (List.range n).filter fun j => d.isTable (mem pd j)

section

variable {pd : U64}

theorem Entries.mem_tablesIn {n j : Nat} :
    j ∈ d.tablesIn mem pd n ↔ j < n ∧ d.isTable (mem pd j) = true := by
  unfold Entries.tablesIn
  rw [List.mem_filter, List.mem_range]

theorem Entries.tablesIn_succ (d : Entries) (mem : Mem U64) (pd : U64) (n : Nat) :
    d.tablesIn mem pd (n + 1) =
      d.tablesIn mem pd n ++ if d.isTable (mem pd n) then [n] else [] := by
  unfold Entries.tablesIn
  rw [List.range_succ, List.filter_append, List.filter_cons, List.filter_nil]

theorem Entries.tablesIn_congr {pd' : U64} {n : Nat}
    (h : ∀ j, j < n → d.isTable (mem' pd' j) = d.isTable (mem pd j)) :
    d.tablesIn mem' pd' n = d.tablesIn mem pd n := by
  unfold Entries.tablesIn
  exact List.filter_congr fun j hj => h j (List.mem_range.mp hj)

theorem privatiseLoop_counted (hnodup : m.supply.Nodup) (hpd : pd ∉ m.supply) (n : Nat) :
    Ends (forRange (privatise d pd) n) m
      (fun _ t => ∃ pts used, Privatised d pd m n pts used t ∧
        used.length = (d.tablesIn m.mem pd n).length)
      (fun e _ => e = .outOfFrames ∧ m.supply.length < n) := by
  refine ends_forRange
    (fun j t => ∃ pts used, Privatised d pd m j pts used t ∧
    used.length = (d.tablesIn m.mem pd j).length) _ n ⟨fun _ => 0, [], ?_, rfl⟩ ?_
  · constructor
    case supply => rfl
    case few => exact Nat.le_refl 0
    case regs => rfl
    case taken => intro j hj; omega
    case distinct => intro j j' hj; omega
    case plain => intro j _; rfl
    case table => intro j hj; omega
    case copy => intro j hj; omega
    case other => intro x _ _; rfl
  · intro j t hj ht
    obtain ⟨pts, used, priv, count⟩ := ht
    have entry : t.mem pd j = m.mem pd j := priv.plain j fun hc => absurd hc (Nat.lt_irrefl j)
    have away : pd ∉ t.supply := fun hc =>
      hpd (by rw [priv.supply]; exact List.mem_append_right _ hc)
    unfold privatise
    rw [ends_bind, ends_readEntry, entry, ends_ite]
    refine ⟨fun htab => ?_, fun htab => ?_⟩
    · rw [ends_bind]
      refine (cloneUnder_spec away j (m.mem pd j)).imp (fun f s hu => ?_) fun e _ he => ⟨he.1, ?_⟩
      · rw [ends_writeEntry]
        refine ⟨_, _, priv.take hnodup hpd htab hu, ?_⟩
        rw [d.tablesIn_succ, if_pos htab, List.length_append, List.length_append, count]
        rfl
      · have few := priv.few
        rw [priv.supply, he.2, List.append_nil]
        omega
    · rw [ends_pure]
      refine ⟨pts, used, priv.skip (eq_false_of_ne_true htab), ?_⟩
      rw [d.tablesIn_succ, if_neg htab, List.append_nil, count]

theorem privatiseAll_counted (hnodup : m.supply.Nodup) (hpd : pd ∉ m.supply) :
    Ends (privatiseAll d pd) m
      (fun _ t => ∃ pts used, Privatised d pd m 512 pts used t ∧
        used.length = (d.tablesIn m.mem pd 512).length)
      (fun e _ => e = .outOfFrames ∧ m.supply.length < 512) := by
  unfold privatiseAll
  generalize 512 = n
  exact privatiseLoop_counted hnodup hpd n

end

/-- The tables for `[1 GiB, 2 GiB)` under a root. -/
def Entries.windowPdpt (d : Entries) (mem : Mem U64) (root : U64) : U64 := mem root 0 &&& d.addrMask

def Entries.windowPd (d : Entries) (mem : Mem U64) (root : U64) : U64 :=
  mem (d.windowPdpt mem root) 1 &&& d.addrMask

/-- The map of physical memory reaches into the window. -/
def Entries.hasWindow (d : Entries) (mem : Mem U64) (root : U64) : Bool :=
  d.present (mem (d.windowPdpt mem root) 1)

/-- Entry `j` of the window's own table leads to a table. -/
def Entries.WindowTable (d : Entries) (mem : Mem U64) (root : U64) (j : Nat) : Prop :=
  d.hasWindow mem root = true ∧ j < 512 ∧ d.isTable (mem (d.windowPd mem root) j) = true

/-- The tables of the window are none of the frames to come. -/
structure WindowSettled (d : Entries) (kbase : U64) (m : Machine R) : Prop where
  root : kbase ∉ m.supply
  pdpt : d.windowPdpt m.mem kbase ∉ m.supply
  pd : d.hasWindow m.mem kbase = true → d.windowPd m.mem kbase ∉ m.supply
  pts : ∀ j, d.WindowTable m.mem kbase j →
    m.mem (d.windowPd m.mem kbase) j &&& d.addrMask ∉ m.supply

/-- A copy of the root `kbase` and of the tables of its window.  Where there is no window, what is
copied to `pd` and to the frames `used` is out of reach. -/
structure WindowCopied (d : Entries) (kbase : U64) (m : Machine R) (root pdpt pd : U64)
    (pts : Nat → U64) (used : List U64) (m' : Machine R) : Prop where
  supply : m.supply = root :: pdpt :: pd :: (used ++ m'.supply)
  few : used.length ≤ 512
  regs : m'.regs = m.regs
  root_window : m'.mem root 0 = d.moved pdpt (m.mem kbase 0)
  root_other : ∀ i, i < 512 → i ≠ 0 → m'.mem root i = m.mem kbase i
  pdpt_window : m'.mem pdpt 1 = d.moved pd (m.mem (d.windowPdpt m.mem kbase) 1)
  pdpt_other : ∀ i, i < 512 → i ≠ 1 → m'.mem pdpt i = m.mem (d.windowPdpt m.mem kbase) i
  taken : ∀ j, d.WindowTable m.mem kbase j → pts j ∈ used
  distinct : ∀ j j', d.WindowTable m.mem kbase j → d.WindowTable m.mem kbase j' →
    pts j = pts j' → j = j'
  plain : d.hasWindow m.mem kbase = true → ∀ j, j < 512 →
    d.isTable (m.mem (d.windowPd m.mem kbase) j) = false →
    m'.mem pd j = m.mem (d.windowPd m.mem kbase) j
  table : ∀ j, d.WindowTable m.mem kbase j →
    m'.mem pd j = d.moved (pts j) (m.mem (d.windowPd m.mem kbase) j)
  copy : ∀ j, d.WindowTable m.mem kbase j → ∀ k, k < 512 →
    m'.mem (pts j) k = m.mem (m.mem (d.windowPd m.mem kbase) j &&& d.addrMask) k
  other : ∀ x, x ∉ m.supply → m'.mem x = m.mem x

/-- In the middle of it: the root and two tables are copied. -/
structure TopCopied (d : Entries) (kbase : U64) (m : Machine R) (root pdpt pd : U64)
    (m' : Machine R) : Prop where
  supply : m.supply = root :: pdpt :: pd :: m'.supply
  regs : m'.regs = m.regs
  root_window : m'.mem root 0 = d.moved pdpt (m.mem kbase 0)
  root_other : ∀ i, i < 512 → i ≠ 0 → m'.mem root i = m.mem kbase i
  pdpt_window : m'.mem pdpt 1 = d.moved pd (m.mem (d.windowPdpt m.mem kbase) 1)
  pdpt_other : ∀ i, i < 512 → i ≠ 1 → m'.mem pdpt i = m.mem (d.windowPdpt m.mem kbase) i
  pd_entry : d.windowPd m.mem kbase ∉ m.supply → ∀ i, i < 512 →
    m'.mem pd i = m.mem (d.windowPd m.mem kbase) i
  other : ∀ x, x ∉ m.supply → m'.mem x = m.mem x

section

variable {kbase root pdpt pd : U64} {pts : Nat → U64} {used : List U64} {m₁ m₂ m₃ t : Machine R}

/-- The root is copied, then the table under its entry 0, then the one under entry 1 of that. -/
theorem TopCopied.of_under (hnodup : m.supply.Nodup) (hpdpt : d.windowPdpt m.mem kbase ∉ m.supply)
    (hs : m.supply = root :: m₁.supply) (hregs : m₁.regs = m.regs)
    (hroot : ∀ k, k < 512 → m₁.mem root k = m.mem kbase k)
    (hsame : ∀ x, x ≠ root → m₁.mem x = m.mem x)
    (u₁ : CopiedUnder d m₁ root 0 (m.mem kbase 0) pdpt m₂)
    (u₂ : CopiedUnder d m₂ pdpt 1 (m.mem (d.windowPdpt m.mem kbase) 1) pd m₃) :
    TopCopied d kbase m root pdpt pd m₃ := by
  have supply : m.supply = root :: pdpt :: pd :: m₃.supply := by
    rw [hs, u₁.supply, u₂.supply]
  have away : ∀ x, x ∉ m.supply → x ≠ root ∧ x ≠ pdpt ∧ x ≠ pd ∧ x ∉ m₁.supply ∧ x ∉ m₂.supply :=
    fun x hx => by
      rw [u₁.supply, u₂.supply]
      rw [supply] at hx
      simp only [List.mem_cons, not_or] at hx ⊢
      exact ⟨hx.1, hx.2.1, hx.2.2.1, hx.2, hx.2.2⟩
  have old : ∀ x, x ∉ m.supply → m₂.mem x = m.mem x := fun x hx => by
    rw [u₁.other x (away x hx).2.1 (away x hx).1, hsame x (away x hx).1]
  rw [supply] at hnodup
  simp only [List.nodup_cons, List.mem_cons, not_or] at hnodup
  have root_same : m₃.mem root = m₂.mem root := u₂.other root hnodup.1.2.1 hnodup.1.1
  constructor
  case supply => exact supply
  case regs => rw [u₂.regs, u₁.regs, hregs]
  case root_window => rw [root_same, u₁.link]
  case root_other => intro i hi h0; rw [root_same, u₁.parent_other i h0, hroot i hi]
  case pdpt_window => exact u₂.link
  case pdpt_other =>
    intro i hi h1
    rw [u₂.parent_other i h1, u₁.copy (away _ hpdpt).2.2.2.1 i hi]
    exact congrFun (hsame _ (away _ hpdpt).1) i
  case pd_entry =>
    intro hpd i hi
    rw [u₂.copy (away _ hpd).2.2.2.2 i hi]
    exact congrFun (old _ hpd) i
  case other =>
    intro x hx
    rw [u₂.other x (away x hx).2.2.1 (away x hx).2.1, old x hx]

theorem TopCopied.away (h : TopCopied d kbase m root pdpt pd t) {x : U64} (hx : x ∉ m.supply) :
    x ≠ root ∧ x ≠ pdpt ∧ x ≠ pd ∧ x ∉ t.supply := by
  rw [h.supply, List.mem_cons, List.mem_cons, List.mem_cons, not_or, not_or, not_or] at hx
  exact hx

/-- With the tables under `pd` copied as well, the whole window is. -/
theorem TopCopied.copied (h : TopCopied d kbase m root pdpt pd m')
    (hw : WindowSettled d kbase m) (hnodup : m.supply.Nodup)
    (priv : Privatised d pd m' 512 pts used t) : WindowCopied d kbase m root pdpt pd pts
    used t := by
  rw [h.supply] at hnodup
  obtain ⟨hroot, hnodup⟩ := List.nodup_cons.mp hnodup
  obtain ⟨hpdpt, -⟩ := List.nodup_cons.mp hnodup
  simp only [List.mem_cons, not_or] at hroot hpdpt
  have root_same := priv.other root hroot.2.2 hroot.2.1
  have pdpt_same := priv.other pdpt hpdpt.2 hpdpt.1
  have entry : ∀ j, d.WindowTable m.mem kbase j →
      m'.mem pd j = m.mem (d.windowPd m.mem kbase) j := fun j hj => h.pd_entry (hw.pd hj.1) j hj.2.1
  have table : ∀ j, d.WindowTable m.mem kbase j → d.isTable (m'.mem pd j) = true := fun j hj => by
    rw [entry j hj]
    exact hj.2.2
  constructor
  case supply => rw [h.supply, priv.supply]
  case few => exact priv.few
  case regs => exact priv.regs.trans h.regs
  case root_window => rw [root_same, h.root_window]
  case root_other => intro i hi hi0; rw [root_same, h.root_other i hi hi0]
  case pdpt_window => rw [pdpt_same, h.pdpt_window]
  case pdpt_other => intro i hi hi1; rw [pdpt_same, h.pdpt_other i hi hi1]
  case taken => intro j hj; exact priv.taken j hj.2.1 (table j hj)
  case distinct =>
    intro j j' hj hj'
    exact priv.distinct j j' hj.2.1 hj'.2.1 (table j hj) (table j' hj')
  case plain =>
    intro hl j hj ht
    rw [← h.pd_entry (hw.pd hl) j hj] at ht ⊢
    exact priv.plain j fun _ => ht
  case table => intro j hj; rw [priv.table j hj.2.1 (table j hj), entry j hj]
  case copy =>
    intro j hj k hk
    have settled := hw.pts j hj
    rw [← entry j hj] at settled ⊢
    rw [priv.copy j hj.2.1 (table j hj) (h.away settled).2.2.2 (h.away settled).2.2.1 k hk,
      h.other _ settled]
  case other =>
    intro x hx
    rw [priv.other x (h.away hx).2.2.2 (h.away hx).2.2.1, h.other x hx]

end

theorem cloneWindow_counted (hnodup : m.supply.Nodup) (hw : WindowSettled d kbase m) :
    Ends (cloneWindow d kbase) m
      (fun root m' => ∃ pdpt pd pts used, WindowCopied d kbase m root pdpt pd pts used m' ∧
        (d.hasWindow m.mem kbase = true →
          used.length = (d.tablesIn m.mem (d.windowPd m.mem kbase) 512).length))
      (fun e _ => e = .outOfFrames ∧ m.supply.length < 515) := by
  unfold cloneWindow
  rw [ends_bind, ends_cloneTable]
  refine ⟨fun hs => ⟨rfl, by rw [hs]; simp⟩, fun root rest hs => ?_⟩
  -- the root
  have hroot : root ∈ m.supply := by rw [hs]; exact List.mem_cons_self
  have kbase_root : kbase ≠ root := fun hc => hw.root (hc ▸ hroot)
  have pdpt_root : d.windowPdpt m.mem kbase ≠ root := fun hc => hw.pdpt (hc ▸ hroot)
  rw [Mem.fill_ne _ kbase_root]
  obtain ⟨m₁, hm₁⟩ : ∃ m₁ : Machine R,
    { m with mem := m.mem.fill root (full (m.mem kbase)), supply := rest } = m₁ := ⟨_, rfl⟩
  have supply₁ : m.supply = root :: m₁.supply := by rw [← hm₁]; exact hs
  have root₁ : ∀ k, k < 512 → m₁.mem root k = m.mem kbase k := fun k hk => by
    rw [← hm₁]
    show Mem.fill _ root _ root k = _
    rw [Mem.fill_self, full_of_lt _ hk]
  have same₁ : ∀ x, x ≠ root → m₁.mem x = m.mem x := fun x hx => by
    rw [← hm₁]
    exact Mem.fill_ne _ hx _
  have nodup₁ := hnodup
  rw [supply₁, List.nodup_cons] at nodup₁
  rw [hm₁, ends_bind, ends_readEntry, same₁ kbase kbase_root, ends_bind]
  -- the table under its entry 0
  refine (cloneUnder_spec nodup₁.1 0 (m.mem kbase 0)).imp (fun pdpt s u₁ => ?_) fun e _ he =>
    ⟨he.1, by rw [supply₁, he.2]; simp⟩
  rw [ends_bind, ends_writeEntry]
  change Ends _ { s with mem := s.mem.set root 0 (d.moved pdpt (m.mem kbase 0)) } _ _
  generalize { s with mem := s.mem.set root 0 (d.moved pdpt (m.mem kbase 0)) } = m₂ at u₁ ⊢
  have nodup₂ := nodup₁.2
  rw [u₁.supply, List.nodup_cons] at nodup₂
  have read : m₂.mem (d.windowPdpt m.mem kbase) 1 = m.mem (d.windowPdpt m.mem kbase) 1 := by
    have hne : d.windowPdpt m.mem kbase ≠ pdpt := fun hc =>
      hw.pdpt (by rw [supply₁, u₁.supply, hc]; simp)
    rw [u₁.other _ hne pdpt_root, same₁ _ pdpt_root]
  rw [ends_bind, ends_readEntry]
  change Ends (cloneTable (m₂.mem (d.windowPdpt m.mem kbase) 1 &&& d.addrMask) >>= fun pd =>
    writeEntry pdpt 1 (d.moved pd (m₂.mem (d.windowPdpt m.mem kbase) 1)) >>= fun _ =>
      privatiseAll d pd >>= fun _ => pure root) _ _ _
  rw [read, ends_bind]
  -- the table under entry 1 of that
  refine (cloneUnder_spec nodup₂.1 1 _).imp (fun pd s u₂ => ?_) fun e _ he =>
    ⟨he.1, by rw [supply₁, u₁.supply, he.2]; simp⟩
  rw [ends_bind, ends_writeEntry]
  generalize { s with mem := s.mem.set pdpt 1 (d.moved pd _) } = m₃ at u₂ ⊢
  have top : TopCopied d kbase m root pdpt pd m₃ :=
    .of_under hnodup hw.pdpt supply₁ (by rw [← hm₁]) root₁ same₁ u₁ u₂
  have nodup₃ := nodup₂.2
  rw [u₂.supply, List.nodup_cons] at nodup₃
  -- the tables under it
  rw [ends_bind]
  refine (privatiseAll_counted nodup₃.2 nodup₃.1).imp (fun _ t ht => ?_) fun e _ he => ⟨he.1, ?_⟩
  · obtain ⟨pts, used, priv, count⟩ := ht
    rw [ends_pure]
    refine ⟨pdpt, pd, pts, used, top.copied hw hnodup priv, fun hl => ?_⟩
    rw [count]
    exact congrArg List.length (Entries.tablesIn_congr fun j hj =>
      congrArg d.isTable (top.pd_entry (hw.pd hl) j hj))
  · have few := he.2
    rw [top.supply]
    simp only [List.length_cons]
    omega

theorem cloneWindow_spec (hnodup : m.supply.Nodup) (hw : WindowSettled d kbase m) :
    Ends (cloneWindow d kbase) m
      (fun root m' => ∃ pdpt pd pts used, WindowCopied d kbase m root pdpt pd pts used m')
      (fun e _ => e = .outOfFrames ∧ m.supply.length < 515) := by
  refine (cloneWindow_counted hnodup hw).imp_ok fun root m' hQ => ?_
  obtain ⟨pdpt, pd, pts, used, copied, _⟩ := hQ
  exact ⟨pdpt, pd, pts, used, copied⟩

end Paging

end Praesidium
