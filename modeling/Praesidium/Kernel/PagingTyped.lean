import Praesidium.Kernel.Paging
import Praesidium.Lib.Flags

/-!
Page tables that keep a typing.

`Heap d S ty m`: the typed tables of `m` fit the shape `S`, and the frames still to be
allocated are page frames without a role, each once.  `Grows` is what a program may do to
such a state: give roles to more tables, and leave the registers.

For any shape that allows the entries they write, the programs both backends share keep the
typing, and the tables they return have the role that their place gives them:

    root has role r → mapLow, mapKernel grow the heap
        (mapLow_typed, mapKernel_typed)
    kbase has role r → cloneWindow grows it and returns a root of role r  (cloneWindow_typed)
    root has role r → ensureTable grows it and returns the table of the path (ensureTable_typed)
-/

namespace Praesidium

namespace Paging

open Fallible Radix

variable {R ρ : Type}

/-! ## Entries -/

def Entries.IsFrame (d : Entries) (f : U64) : Prop := f &&& d.addrMask = f

/-- `e` led elsewhere, its flags kept. -/
def Entries.moved (d : Entries) (f e : U64) : U64 := f ||| (e &&& ~~~d.addrMask)

structure Entries.Lawful (d : Entries) : Prop where
  present_zero : d.present 0 = false
  tableBits_mask : d.tableBits &&& d.addrMask = 0
  present_table : ∀ f, d.IsFrame f → d.present (f ||| d.tableBits) = true
  isLeaf_table : ∀ n f, d.IsFrame f → d.isLeaf n (f ||| d.tableBits) = false
  present_moved : ∀ f e, d.IsFrame f → d.present (d.moved f e) = d.present e
  isLeaf_moved : ∀ n f e, d.IsFrame f → d.isLeaf n (d.moved f e) = d.isLeaf n e
  isTable_eq : ∀ n e, n = 1 ∨ n = 2 → d.isTable e = (d.present e && !d.isLeaf n e)

variable {d : Entries}

variable {f c t e root v pt pd : U64} {j i : Nat} {rest : List U64} {r : ρ}

theorem Entries.Lawful.next_table (hd : d.Lawful) (hf : d.IsFrame f) :
    d.format.next (f ||| d.tableBits) = f :=
  Flags.or_and_of_masked hf hd.tableBits_mask

theorem Entries.next_moved (hf : d.IsFrame f) (e : U64) : d.format.next (d.moved f e) = f :=
  Flags.or_and_of_masked hf (Flags.and_not_and e d.addrMask)

theorem Entries.isFrame_next (e : U64) : d.IsFrame (e &&& d.addrMask) :=
  Flags.and_and_self e d.addrMask

theorem Entries.has_frame (hf : d.IsFrame f) (hc : c &&& d.addrMask = 0) : Flags.has f c = false :=
  Flags.has_of_masked hf hc

theorem Entries.has_moved (e : U64) (hf : d.IsFrame f) (hc : c &&& d.addrMask = 0)
    (hc' : c &&& ~~~d.addrMask = c) : Flags.has (d.moved f e) c = Flags.has e c := by
  unfold Entries.moved
  rw [Flags.has_or, Entries.has_frame hf hc, Flags.has_keep e hc', Bool.false_or]

/-- A page-aligned address has no flag in its low bits. -/
theorem has_aligned {pa : U64} (hpa : pa.toNat % 4096 = 0) (hc : c &&& 0xfff = c) :
    Flags.has pa c = false := by
  have low : pa &&& 0xfff = 0 := by
    apply BitVec.eq_of_toNat_eq
    rw [BitVec.toNat_and]
    exact (Nat.and_two_pow_sub_one_eq_mod pa.toNat 12).trans hpa
  rw [Flags.has_eq_false, ← hc, BitVec.and_comm c, ← BitVec.and_assoc, low]
  exact BitVec.zero_and

/-- Page `j` of a 2 MiB region. -/
theorem pageOffset_masked (hj : j < 512) :
    BitVec.ofNat 64 j * PAGE &&& 0x1ff000 = BitVec.ofNat 64 j * PAGE := by
  have all : ∀ j < 512, BitVec.ofNat 64 j * PAGE &&& 0x1ff000 = BitVec.ofNat 64 j * PAGE := by
    decide +kernel
  exact all j hj

/-- The address of page `j` of a 2 MiB region is the address of the region with `j` filled in. -/
theorem splitAddr_eq (base : U64) (hj : j < 512) :
    (base &&& ~~~0x1fffff) + BitVec.ofNat 64 j * PAGE = (base &&& ~~~0x1fffff) ||| BitVec.ofNat 64
      j * PAGE := by
  apply BitVec.add_eq_or_of_and_eq_zero
  have region : (~~~0x1fffff : U64) &&& 0x1ff000 = 0 := by decide
  rw [← pageOffset_masked hj, BitVec.and_comm _ 0x1ff000, ← BitVec.and_assoc,
    BitVec.and_assoc base, region]
  simp

theorem splitAddr_frame (hA : (0x1ff000 : U64) &&& d.addrMask = 0x1ff000) (e : U64) (hj : j < 512) :
    d.IsFrame ((e &&& d.addrMask &&& ~~~0x1fffff) + BitVec.ofNat 64 j * PAGE) := by
  rw [splitAddr_eq _ hj]
  apply Flags.or_masked
  · rw [BitVec.and_assoc (e &&& d.addrMask), BitVec.and_comm (~~~0x1fffff), ← BitVec.and_assoc,
      Flags.and_and_self]
  · rw [← pageOffset_masked hj, BitVec.and_assoc, hA]

/-! ## Heaps -/

structure Heap (d : Entries) (S : Shape U64 ρ) (ty : U64 → Option ρ) (m : Machine R) : Prop where
  typed : Typed d.format S ty 512 m.mem
  nodup : m.supply.Nodup
  free : ∀ f ∈ m.supply, ty f = none
  frame : ∀ f ∈ m.supply, d.IsFrame f

variable {S : Shape U64 ρ} {ty ty' ty'' : U64 → Option ρ} {m m' m'' : Machine R}

/-- With no table yet, any machine is typed. -/
theorem Heap.empty (hnodup : m.supply.Nodup) (hframe : ∀ f ∈ m.supply, d.IsFrame f) :
    Heap d S (fun _ => none) m where
  typed _ _ h := by cases h
  nodup := hnodup
  free _ _ := rfl
  frame := hframe

section

variable (h : Heap d S ty m)

include h

theorem Heap.write (t : U64) (i : Nat) (e : U64)
    (he : ∀ r, ty t = some r → Fits d.format S ty r i e) :
    Heap d S ty { m with mem := m.mem.set t i e } where
  typed := h.typed.set t i e he
  nodup := h.nodup
  free := h.free
  frame := h.frame

theorem Heap.rewrite (t : U64) (g : Nat → U64)
    (he : ∀ r, ty t = some r → ∀ i, i < 512 → Fits d.format S ty r i (g i)) :
    Heap d S ty { m with mem := m.mem.fill t g } where
  typed := h.typed.fill t g he
  nodup := h.nodup
  free := h.free
  frame := h.frame

theorem Heap.setRegs (regs : R) : Heap d S ty { m with regs := regs } where
  typed := h.typed
  nodup := h.nodup
  free := h.free
  frame := h.frame

/-- A frame just taken from the supply: it has no role yet, and nothing will hand it out again. -/
structure Taken (d : Entries) (ty : U64 → Option ρ) (m : Machine R) (f : U64) : Prop where
  free : ty f = none
  frame : d.IsFrame f
  spent : f ∉ m.supply

theorem Heap.take (hs : m.supply = f :: rest) (g : Nat → U64) :
    Heap d S ty { m with mem := m.mem.fill f g, supply := rest } ∧
      Taken d ty { m with mem := m.mem.fill f g, supply := rest } f := by
  have hf : f ∈ m.supply := by rw [hs]; exact List.mem_cons_self
  have hrest : ∀ x ∈ rest, x ∈ m.supply := fun x hx => by rw [hs]; exact List.mem_cons_of_mem f hx
  have hnodup : (f :: rest).Nodup := hs ▸ h.nodup
  refine ⟨⟨h.typed.fill f g ?_, (List.nodup_cons.mp hnodup).2, ?_, ?_⟩, ?_⟩
  · intro r hr
    rw [h.free f hf] at hr
    cases hr
  · exact fun x hx => h.free x (hrest x hx)
  · exact fun x hx => h.frame x (hrest x hx)
  · exact ⟨h.free f hf, h.frame f hf, (List.nodup_cons.mp hnodup).1⟩

/-- A finished table gets its role. -/
theorem Heap.adopt (hf : Taken d ty m f) (o : Option ρ)
    (he : ∀ r, o = some r → ∀ i, i < 512 → Fits d.format S ty r i (m.mem f i)) :
    Heap d S (Function.update ty f o) m where
  typed := h.typed.adopt hf.free o he
  nodup := h.nodup
  free x hx := by
    have hne : x ≠ f := fun hc => hf.spent (hc ▸ hx)
    rw [Function.update_of_ne hne]
    exact h.free x hx
  frame := h.frame

/-- Roles are given to frames of the supply only. -/
structure Grows (d : Entries) (S : Shape U64 ρ) (ty : U64 → Option ρ) (m : Machine R)
    (ty' : U64 → Option ρ) (m' : Machine R) : Prop where
  heap : Heap d S ty' m'
  same : ∀ t, t ∉ m.supply → ty' t = ty t
  spends : ∀ t, t ∈ m'.supply → t ∈ m.supply
  regs : m'.regs = m.regs

theorem Heap.grows : Grows d S ty m ty m := ⟨h, fun _ _ => rfl, fun _ h => h, rfl⟩

theorem Heap.not_free (hr : ty t = some r) : t ∉ m.supply := fun hc => by
  rw [h.free t hc] at hr
  cases hr

end

section

variable (h : Grows d S ty m ty' m')

include h

theorem Grows.keeps (h0 : Heap d S ty m) : Extends ty ty' := fun t _ hr =>
  (h.same t (h0.not_free hr)).trans hr

theorem Grows.trans (h' : Grows d S ty' m' ty'' m'') : Grows d S ty m ty'' m'' where
  heap := h'.heap
  same t ht := (h'.same t fun hc => ht (h.spends t hc)).trans (h.same t ht)
  spends t ht := h.spends t (h'.spends t ht)
  regs := h'.regs.trans h.regs

theorem Grows.write (t : U64) (i : Nat) (e : U64)
    (he : ∀ r, ty' t = some r → Fits d.format S ty' r i e) :
    Grows d S ty m ty' { m' with mem := m'.mem.set t i e } where
  heap := h.heap.write t i e he
  same := h.same
  spends := h.spends
  regs := h.regs

/-- A leaf is written into a table of pages. -/
theorem Grows.writeLeaf (ht : ty' t = some r) (hl : S.level r = 0)
    (hleaf : S.leaf r i e) : Grows d S ty m ty' { m' with mem := m'.mem.set t i e } := by
  refine h.write t i e fun r' hr' => ?_
  have same : r' = r := Option.some.inj (hr'.symm.trans ht)
  subst same
  exact .of_leaf (.inl hl) hleaf

theorem Grows.rewrite (t : U64) (g : Nat → U64)
    (he : ∀ r, ty' t = some r → ∀ i, i < 512 → Fits d.format S ty' r i (g i)) :
    Grows d S ty m ty' { m' with mem := m'.mem.fill t g } where
  heap := h.heap.rewrite t g he
  same := h.same
  spends := h.spends
  regs := h.regs

end

/-- A frame of the supply is filled and gets a role. -/
theorem Heap.build (h : Heap d S ty m) (hs : m.supply = f :: rest) (g : Nat → U64) (o : Option ρ)
    (he : ∀ r, o = some r → ∀ i, i < 512 → Fits d.format S ty r i (g i)) :
    Grows d S ty m (Function.update ty f o) { m with mem := m.mem.fill f g, supply := rest } where
  heap := by
    have taken := h.take hs g
    refine taken.1.adopt taken.2 o fun r hr i hi => ?_
    show Fits d.format S ty r i (m.mem.fill f g f i)
    rw [Mem.fill_self]
    exact he r hr i hi
  same t ht := Function.update_of_ne (fun hc => ht (by rw [hc, hs]; exact List.mem_cons_self)) ..
  spends t ht := by
    rw [hs]
    exact List.mem_cons_of_mem f ht
  regs := rfl

/-! ## Allocating and cloning -/

/-- What an allocating program hands back: a frame of its own. -/
structure Allots (d : Entries) (m : Machine R) (f : U64) (m' : Machine R) : Prop where
  frame : d.IsFrame f
  taken : f ∈ m.supply
  spent : f ∉ m'.supply

theorem Heap.allots (h : Heap d S ty m) (hs : m.supply = f :: rest) (g : Nat → U64) :
    Allots d m f { m with mem := m.mem.fill f g, supply := rest } :=
  ⟨(h.take hs g).2.frame, by rw [hs]; exact List.mem_cons_self, (h.take hs g).2.spent⟩

/-- A zeroed table fits every role. -/
theorem allocTable_typed (hd : d.Lawful) (h : Heap d S ty m) (r : ρ) :
    Ends allocTable m (fun f m' => Allots d m f m' ∧ ∃ ty', Grows d S ty m ty' m' ∧ ty' f = some r)
      (fun _ _ => True) := by
  rw [ends_allocTable]
  refine ⟨fun _ => trivial, fun f rest hs =>
    ⟨h.allots hs _, _, h.build hs _ (some r) ?_, Function.update_self ..⟩⟩
  exact fun _ _ _ _ => .absent hd.present_zero

/-- A copy has the role of the original, if that has one. -/
theorem cloneTable_typed (h : Heap d S ty m) (orig : U64) :
    Ends (cloneTable orig) m (fun f m' => Allots d m f m' ∧ ∃ ty', Grows d S ty m ty' m' ∧
      ty' f = ty orig)
      (fun _ _ => True) := by
  rw [ends_cloneTable]
  refine ⟨fun _ => trivial, fun f rest hs =>
    ⟨h.allots hs _, _, h.build hs _ (ty orig) ?_, Function.update_self ..⟩⟩
  intro r hr i hi
  have hne : orig ≠ f := fun hc => by rw [hc, (h.take hs fun _ => 0).2.free] at hr; cases hr
  rw [full_of_lt _ hi, Mem.fill_ne _ hne]
  exact h.typed orig r hr i hi

/-! ## What `ensureTable` does -/

def Entries.pdptOf (d : Entries) (mem : Mem U64) (root v : U64) : U64 :=
  mem root (index v 3) &&& d.addrMask

def Entries.pdOf (d : Entries) (mem : Mem U64) (root v : U64) : U64 :=
  mem (d.pdptOf mem root v) (index v 2) &&& d.addrMask

def Entries.pdeOf (d : Entries) (mem : Mem U64) (root v : U64) : U64 :=
  mem (d.pdOf mem root v) (index v 1)

/-- The 2 MiB region of `v` is mapped below a table, as one leaf or by a table. -/
structure Entries.Mapped (d : Entries) (mem : Mem U64) (root v : U64) : Prop where
  pml4e : d.present (mem root (index v 3)) = true
  pdpte : d.isTable (mem (d.pdptOf mem root v) (index v 2)) = true
  pde : d.present (d.pdeOf mem root v) = true

/-- A table of 4 KiB pages was in place, or the 2 MiB leaf there is split into a new one. -/
inductive Ensured (d : Entries) (root v : U64) (m : Machine R) : U64 → Machine R → Prop
  | found : d.isLeaf 1 (d.pdeOf m.mem root v) = false →
      Ensured d root v m (d.pdeOf m.mem root v &&& d.addrMask) m
  | split {pt : U64} {rest : List U64} : d.isLeaf 1 (d.pdeOf m.mem root v) = true →
      m.supply = pt :: rest → Ensured d root v m pt { m with
          mem := (m.mem.fill pt (full (d.split (d.pdeOf m.mem root v)))).set (d.pdOf m.mem root v)
            (index v 1) (pt ||| d.tableBits)
          supply := rest }

/-- An edit of the page of `v` fails where its region is not mapped, or for want of a frame. -/
def EditFails (d : Entries) (root v : U64) (m : Machine R) (err : Halt) (_ : Machine R) : Prop :=
  (err = .assertion ∧ ¬ d.Mapped m.mem root v) ∨ (err = .outOfFrames ∧ m.supply = [])

theorem ensureTable_spec (d : Entries) (root v : U64) (m : Machine R) :
    Ends (ensureTable d root v) m (fun pt m' => d.Mapped m.mem root v ∧ Ensured d root v m pt m')
      (EditFails d root v m) := by
  unfold ensureTable
  rw [ends_bind, ends_readEntry, ends_bind, ends_assertThat]
  refine ⟨fun h4 => .inl ⟨rfl, fun hc => ?_⟩, fun h4 => ?_⟩
  · exact absurd hc.pml4e (by rw [h4]; decide)
  rw [ends_bind, ends_readEntry, ends_bind, ends_assertThat]
  refine ⟨fun h3 => .inl ⟨rfl, fun hc => ?_⟩, fun h3 => ?_⟩
  · exact absurd hc.pdpte (by rw [Entries.pdptOf, h3]; decide)
  show Ends (readEntry (d.pdOf m.mem root v) (index v 1) >>= _) m _ _
  rw [ends_bind, ends_readEntry, ends_bind, ends_assertThat]
  refine ⟨fun h2 => .inl ⟨rfl, fun hc => ?_⟩, fun h2 => ?_⟩
  · exact absurd hc.pde (by rw [Entries.pdeOf, h2]; decide)
  have mapped : d.Mapped m.mem root v := ⟨h4, h3, h2⟩
  rw [ends_ite]
  refine ⟨fun hleaf => ?_, fun hleaf => ?_⟩
  · rw [ends_bind, ends_allocTable]
    refine ⟨fun hs => .inr ⟨rfl, hs⟩, fun pt rest hs => ?_⟩
    rw [ends_bind, ends_writeTable, ends_bind, ends_writeEntry, ends_pure]
    refine ⟨mapped, ?_⟩
    simp only [Mem.fill_fill, Mem.fill_self]
    exact .split hleaf hs
  · rw [ends_pure]
    exact ⟨mapped, .found (eq_false_of_ne_true hleaf)⟩

/-! ## Programs that keep the typing -/

/-- The entries that are written may stand where they are written.  There are no leaves in a
root. -/
structure Entries.Keeps (d : Entries) (S : Shape U64 ρ) : Prop where
  root_leaf : ∀ r i e, S.level r = 3 → d.isLeaf 3 e = true → ¬ S.leaf r i e
  link_table : ∀ r i f, d.IsFrame f → S.link r i (f ||| d.tableBits)
  link_moved : ∀ r i f e, d.IsFrame f → S.link r i e → S.link r i (d.moved f e)
  leaf_moved : ∀ r i f e, d.IsFrame f → S.leaf r i e → S.leaf r i (d.moved f e)
  leaf_split : ∀ r i e j, S.level r = 1 → j < 512 → S.leaf r i e →
    S.leaf (S.child r i) j (d.split e j)

theorem fits_table (hd : d.Lawful) (hk : d.Keeps S) (hf : d.IsFrame f) (hl : S.level r ≠ 0)
    (hty : ty f = some (S.child r i)) : Fits d.format S ty r i (f ||| d.tableBits) := by
  refine .of_link hl (hd.isLeaf_table _ f hf) (hk.link_table r i f hf) ?_
  rw [hd.next_table hf]
  exact hty

/-- A table is entered into the table above it. -/
theorem Grows.link (hd : d.Lawful) (hk : d.Keeps S) (h : Grows d S ty m ty' m')
    (ht : ty' t = some r) (hl : S.level r ≠ 0) (hf : d.IsFrame f)
    (hty : ty' f = some (S.child r i)) :
    Grows d S ty m ty' { m' with mem := m'.mem.set t i (f ||| d.tableBits) } := by
  refine h.write t i _ fun r' hr' => ?_
  have same : r' = r := Option.some.inj (hr'.symm.trans ht)
  subst same
  exact fits_table hd hk hf hl hty

/-- An entry fits after it is moved to a copy of the table it led to. -/
theorem fits_moved (hd : d.Lawful) (hk : d.Keeps S) (hf : d.IsFrame f)
    (he : Fits d.format S ty r i e) (hty : ∀ r, ty (e &&& d.addrMask) = some r → ty' f = some r) :
    Fits d.format S ty' r i (d.moved f e) := by
  refine he.congr (hd.present_moved f e hf) (hd.isLeaf_moved _ f e hf) (hk.leaf_moved r i f e hf)
    fun link next => ?_
  rw [Entries.next_moved hf]
  exact ⟨hk.link_moved r i f e hf link, hty _ next⟩

section

variable (hk : d.Keeps S) (h : Typed d.format S ty 512 m.mem) (hroot : ty root = some r)
  (hl : S.level r = 3)

include hk h hroot hl

/-- There are no leaves in a root. -/
theorem root_entry_link (hi : i < 512) (hp : d.present (m.mem root i) = true) :
    d.isLeaf 3 (m.mem root i) = false := by
  refine eq_false_of_ne_true fun hleaf => ?_
  exact hk.root_leaf _ _ _ hl hleaf ((h root r hroot i hi).leaf hp (.inr (by rw [hl]; exact hleaf)))

/-- The roles on the way from a root to the 2 MiB region of `v`. -/
theorem pdptOf_typed (h4 : d.present (m.mem root (index v 3)) = true) :
    ty (d.pdptOf m.mem root v) = some (S.child r (index v 3)) := by
  have link4 := root_entry_link hk h hroot hl (index_lt v 3) h4
  exact ((h root r hroot _ (index_lt v 3)).link h4 (by omega) (by rw [hl]; exact link4)).2

end

theorem pdOf_typed (hd : d.Lawful) (hk : d.Keeps S) (h : Typed d.format S ty 512 m.mem)
    (hroot : ty root = some r) (hl : S.level r = 3) (h4 : d.present (m.mem root (index v 3)) = true)
    (h3 : d.isTable (m.mem (d.pdptOf m.mem root v) (index v 2)) = true) :
    ty (d.pdOf m.mem root v) = some (S.child (S.child r (index v 3)) (index v 2)) := by
  have pdpt := pdptOf_typed hk h hroot hl h4
  have lev := S.level_child r (index v 3) (by omega)
  have lev2 : S.level (S.child r (index v 3)) = 2 := by omega
  rw [hd.isTable_eq 2 _ (.inr rfl), Bool.and_eq_true, Bool.not_eq_true'] at h3
  exact ((h _ _ pdpt _ (index_lt v 2)).link h3.1 (by omega) (by rw [lev2]; exact h3.2)).2

theorem level_pd (hl : S.level r = 3) (i j : Nat) : S.level (S.child (S.child r i) j) = 1 := by
  have lev := S.level_child r i (by omega)
  have lev' := S.level_child (S.child r i) j (by omega)
  omega

theorem level_pt (hl : S.level r = 3) (i j k : Nat) :
    S.level (S.child (S.child (S.child r i) j) k) = 0 := by
  have lev := level_pd (S := S) hl i j
  have lev' := S.level_child (S.child (S.child r i) j) k (by omega)
  omega

section

variable (hd : d.Lawful) (hk : d.Keeps S) (h : Heap d S ty m)

include hd hk h

section

variable (hroot : ty root = some r) (hl : S.level r = 3)

include hroot hl

theorem Ensured.typed (hm : d.Mapped m.mem root v) (he : Ensured d root v m pt m') :
    ∃ ty', Grows d S ty m ty' m' ∧
      ty' pt = some (S.child (S.child (S.child r (index v 3)) (index v 2)) (index v 1)) := by
  have pd := pdOf_typed hd hk h.typed hroot hl hm.pml4e hm.pdpte
  have lev := level_pd (S := S) hl (index v 3) (index v 2)
  have fits2 := h.typed _ _ pd _ (index_lt v 1)
  cases he with
  | found hleaf => exact ⟨ty, h.grows, (fits2.link hm.pde (by omega) (by rw [lev]; exact hleaf)).2⟩
  | split hleaf hs =>
    have leaf2 := fits2.leaf hm.pde (.inr (by rw [lev]; exact hleaf))
    have grown := h.build hs (full (d.split (d.pdeOf m.mem root v))) (some _) fun r' hr i hi => by
      cases hr
      rw [full_of_lt _ hi]
      exact .of_leaf (.inl (level_pt hl _ _ _)) (hk.leaf_split _ _ _ i lev hi leaf2)
    exact ⟨_, grown.link hd hk (grown.keeps h _ _ pd) (by omega) (h.allots hs fun _ =>
      0).frame (Function.update_self ..), Function.update_self ..⟩

theorem ensureTable_typed :
    Ends (ensureTable d root v) m
      (fun pt m' => ∃ ty', Grows d S ty m ty' m' ∧
        ty' pt = some (S.child (S.child (S.child r (index v 3)) (index v 2)) (index v 1)))
          (fun _ _ => True) := by
  refine (ensureTable_spec d root v m).imp_any fun pt m' hQ => ?_
  exact hQ.2.typed hd hk h hroot hl hQ.1

theorem mapLow_typed (i : Nat) (bytes : U64)

    (hblock : ∀ g j, g < (bytes.toNat + GIB - 1) / GIB → j < 512 →
    d.isLeaf 1 (d.block (BitVec.ofNat 64 g <<< 30 ||| BitVec.ofNat 64 j <<< 21)) = true ∧
    S.leaf (S.child (S.child r i) g) j
    (d.block (BitVec.ofNat 64 g <<< 30 ||| BitVec.ofNat 64 j <<< 21))) :
    Ends (mapLow d root i bytes) m (fun _ m' => ∃ ty', Grows d S ty m ty' m')
      (fun _ _ => True) := by
  have lev2 := S.level_child r i (by omega)
  unfold mapLow
  rw [ends_bind]
  refine (allocTable_typed hd h (S.child r i)).imp_any fun pdpt m1 hQ => ?_
  obtain ⟨alPdpt, ty1, g1, hpdpt⟩ := hQ
  have g1' := g1.link hd hk (g1.keeps h _ _ hroot) (by omega) alPdpt.frame hpdpt
  rw [ends_bind, ends_writeEntry]
  refine (ends_forRange (fun _ t => ∃ ty', Grows d S ty m ty' t ∧ ty' pdpt = some (S.child r i)) _ _
    ⟨ty1, g1', hpdpt⟩ ?_).imp_ok fun _ t ht => ?_
  · intro g t hg ht
    obtain ⟨ty2, g2, hpdpt2⟩ := ht
    rw [ends_bind]
    refine (allocTable_typed hd g2.heap (S.child (S.child r i) g)).imp_any fun pd m3 hQ => ?_
    obtain ⟨alPd, ty3, g3, hpd⟩ := hQ
    have hpdpt3 := g3.keeps g2.heap _ _ hpdpt2
    have g3' := g3.link hd hk hpdpt3 (by omega) alPd.frame hpd
    rw [ends_bind, ends_writeEntry, ends_writeTable]
    refine ⟨ty3, g2.trans (g3'.rewrite pd _ fun r' hr' j hj => ?_), hpdpt3⟩
    have same : r' = S.child (S.child r i) g := Option.some.inj (hr'.symm.trans hpd)
    subst same
    rw [if_pos hj]
    refine .of_leaf (.inr ?_) (hblock g j hg hj).2
    rw [level_pd hl]
    exact (hblock g j hg hj).1
  · obtain ⟨ty2, g2, _⟩ := ht
    exact ⟨ty2, g2⟩

end

theorem privatise_typed (hpd : pd ∉ m.supply)
    (hi : i < 512) :
    Ends (privatise d pd i) m (fun _ m' => ∃ ty', Grows d S ty m ty' m') (fun _ _ => True) := by
  unfold privatise
  rw [ends_bind, ends_readEntry, ends_ite]
  refine ⟨fun _ => ?_, fun _ => ?_⟩
  · rw [ends_bind]
    refine (cloneTable_typed h _).imp_any fun priv m' hQ => ?_
    obtain ⟨allots, ty', grown, role⟩ := hQ
    rw [ends_writeEntry]
    refine ⟨ty', grown.write pd i _ fun r hr => ?_⟩
    have hr0 : ty pd = some r := (grown.same pd hpd).symm.trans hr
    exact fits_moved hd hk allots.frame (h.typed pd r hr0 i hi) fun r' hr' => role.trans hr'
  · rw [ends_pure]
    exact ⟨ty, h.grows⟩

theorem privatiseLoop_typed (hpd : pd ∉ m.supply) (n : Nat) (hn : n ≤ 512) :
    Ends (forRange (privatise d pd) n) m (fun _ m' => ∃ ty', Grows d S ty m ty' m')
      (fun _ _ => True) := by
  refine ends_forRange (fun _ t => ∃ ty', Grows d S ty m ty' t) _ n ⟨ty, h.grows⟩ ?_
  intro i t hi ht
  obtain ⟨ty', grown⟩ := ht
  refine (privatise_typed hd hk grown.heap (fun hc => hpd (grown.spends pd hc)) (by omega)).imp_ok
    fun _ t' ht' => ?_
  obtain ⟨ty'', grown'⟩ := ht'
  exact ⟨ty'', grown.trans grown'⟩

theorem privatiseAll_typed (hpd : pd ∉ m.supply) :
    Ends (privatiseAll d pd) m (fun _ m' => ∃ ty', Grows d S ty m ty' m') (fun _ _ => True) := by
  unfold privatiseAll
  generalize hn : 512 = n
  exact privatiseLoop_typed hd hk h hpd n (Nat.le_of_eq hn.symm)

/-- A copy of a root has its role.  Where the kernel's tables have no window to copy, the
copies are made of tables without a role and get none. -/
theorem cloneWindow_typed {kbase : U64} (hkb : ty kbase = some r) :
    Ends (cloneWindow d kbase) m
      (fun root m' => d.IsFrame root ∧ ∃ ty', Grows d S ty m ty' m' ∧ ty' root = some r)
        (fun _ _ => True) := by
  unfold cloneWindow
  rw [ends_bind]
  refine (cloneTable_typed h kbase).imp_any fun root m1 hQ => ?_
  obtain ⟨alRoot, ty1, g1, hroot⟩ := hQ
  rw [hkb] at hroot
  have kb1 := g1.keeps h _ _ hkb
  have fits0 := g1.heap.typed kbase r kb1 0 (by decide)
  rw [ends_bind, ends_readEntry, ends_bind]
  refine (cloneTable_typed g1.heap _).imp_any fun pdpt m2 hQ => ?_
  obtain ⟨alPdpt, ty2, g2, hpdpt⟩ := hQ
  have g2' := g2.write root 0 (d.moved pdpt (m1.mem kbase 0)) fun r' hr' => by
    have same : r' = r := Option.some.inj (hr'.symm.trans (g2.keeps g1.heap _ _ hroot))
    subst same
    exact fits_moved hd hk alPdpt.frame fits0 fun r hr => hpdpt.trans hr
  rw [ends_bind, ends_writeEntry, ends_bind, ends_readEntry, ends_bind]
  refine (cloneTable_typed g2'.heap _).imp_any fun pd m3 hQ => ?_
  obtain ⟨alPd, ty3, g3, hpd⟩ := hQ
  have g3' := g3.write pdpt 1 (d.moved pd (m2.mem.set root 0 (d.moved pdpt (m1.mem kbase 0))
    (m1.mem kbase 0 &&& d.addrMask) 1)) fun r' hr' => by
      have role : ty1 (m1.mem kbase 0 &&& d.addrMask) = some r' :=
        hpdpt.symm.trans ((g3.same pdpt alPdpt.spent).symm.trans hr')
      have fits1 := g2'.heap.typed _ r' (g2.keeps g1.heap _ _ role) 1 (by decide)
      exact fits_moved hd hk alPd.frame fits1 fun r hr => hpd.trans hr
  rw [ends_bind, ends_writeEntry, ends_bind]
  refine (privatiseAll_typed hd hk g3'.heap alPd.spent).imp_any fun _ m4 hQ => ?_
  obtain ⟨ty4, g4⟩ := hQ
  have all := ((g1.trans g2').trans g3').trans g4
  rw [ends_pure]
  refine ⟨alRoot.frame, ty4, all, ?_⟩
  exact g4.keeps g3'.heap _ _ (g3.keeps g2'.heap _ _ (g2.keeps g1.heap _ _ hroot))

end

/-- The offset of a page of the image is whole pages. -/
theorem imageOffset_aligned (vbase : U64) (k : Nat) :
    (vbase + BitVec.ofNat 64 k * PAGE - vbase).toNat % 4096 = 0 := by
  rw [BitVec.add_comm, BitVec.add_sub_cancel, BitVec.toNat_mul, BitVec.toNat_ofNat]
  have hpage : PAGE.toNat = 4096 := by decide
  rw [hpage]
  omega

/-- The address that a page of the image is mapped to. -/
def ImageAddr (km : KernelMap) (pa : U64) : Prop := pa.toNat % 4096 = km.kernelPhys.toNat % 4096

theorem mapImagePage_typed (h : Heap d S ty m) (km : KernelMap) (hpt : ty pt = some r)
    (hl : S.level r = 0) (hpage : ∀ i pa prot, ImageAddr km pa → S.leaf r i (d.page pa prot))
    (k : Nat) :
    Ends (mapImagePage d km pt k) m (fun _ m' => Grows d S ty m ty m') (fun _ _ => True) := by
  unfold mapImagePage
  rw [ends_bind, ends_okOr]
  refine ⟨fun _ => trivial, fun pa hpa => ?_⟩
  have sum := (Word.checkedAdd_eq_some _ _ _).mp hpa
  have off := imageOffset_aligned km.kernelVbase k
  rw [ends_bind, ends_writeEntry, ends_bind, ends_okOr]
  refine ⟨fun _ => trivial, fun _ _ => ?_⟩
  rw [ends_pure]
  refine h.grows.write pt _ _ fun r' hr' => ?_
  have same : r' = r := Option.some.inj (hr'.symm.trans hpt)
  subst same
  refine .of_leaf (.inl hl) (hpage _ pa _ ?_)
  show pa.toNat % 4096 = km.kernelPhys.toNat % 4096
  omega

theorem mapKernel_typed (hd : d.Lawful) (hk : d.Keeps S) (h : Heap d S ty m)
    (hroot : ty root = some r) (hl : S.level r = 3) (km : KernelMap)
    (hpage : ∀ i pa prot, ImageAddr km pa →
      S.leaf (S.child (S.child (S.child r (index km.kernelVbase 3)) (index km.kernelVbase 2))
      (index km.kernelVbase 1)) i (d.page pa prot)) :
    Ends (mapKernel d root km) m (fun _ m' => ∃ ty', Grows d S ty m ty' m') (fun _ _ => True) := by
  have lev2 := S.level_child r (index km.kernelVbase 3) (by omega)
  have lev1 := level_pd (S := S) hl (index km.kernelVbase 3) (index km.kernelVbase 2)
  unfold mapKernel
  rw [ends_bind]
  refine (allocTable_typed hd h (S.child r (index km.kernelVbase 3))).imp_any fun pdpt m1 hQ => ?_
  obtain ⟨alPdpt, ty1, g1, hpdpt⟩ := hQ
  have g1' := g1.link hd hk (g1.keeps h _ _ hroot) (by omega) alPdpt.frame hpdpt
  rw [ends_bind, ends_writeEntry, ends_bind]
  refine (allocTable_typed hd g1'.heap (S.child (S.child r (index km.kernelVbase 3))
    (index km.kernelVbase 2))).imp (fun pd m2 hQ => ?_) (fun _ _ _ => trivial)
  obtain ⟨alPd, ty2, g2, hpd⟩ := hQ
  have g2' := g2.link hd hk (g2.keeps g1'.heap _ _ hpdpt) (by omega) alPd.frame hpd
  rw [ends_bind, ends_writeEntry, ends_bind]
  refine (allocTable_typed hd g2'.heap
    (S.child (S.child (S.child r (index km.kernelVbase 3)) (index km.kernelVbase 2))
    (index km.kernelVbase 1))).imp_any fun pt m3 hQ => ?_
  obtain ⟨alPt, ty3, g3, hpt⟩ := hQ
  have g3' := g3.link hd hk (g3.keeps g2'.heap _ _ hpd) (by omega) alPt.frame hpt
  rw [ends_bind, ends_writeEntry]
  refine (ends_forRange (fun _ t => Grows d S ty m ty3 t) _ _ ((g1'.trans g2').trans g3') ?_).imp
    (fun _ t ht => ⟨ty3, ht⟩) (fun _ _ h => h)
  intro k t _ ht
  exact (mapImagePage_typed ht.heap km hpt (level_pt hl _ _ _) hpage k).imp_ok fun _ t' ht' =>
    ht.trans ht'

end Paging

end Praesidium
