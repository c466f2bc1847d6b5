import Praesidium.Kernel.KernelSpace
import Praesidium.Kernel.PagingForest

/-!
Address spaces without tables.

`Spaces` is what the seam is for: spaces numbered in the order they are made, each a function
from addresses to what they stand for.

    build       a space that shows the design of its map
    copy        a space that shows what the one built last shows
    edit        the page in the active space; outside [1 GiB, 2 GiB), in all copies of its original

`Holds` says that tables show such spaces.  A space may have one root or one for each half
(`Sides`).  Each operation on tables keeps `Holds` for the operation on spaces (`Holds.build`,
`Holds.copy`, `Holds.edit`).
-/

namespace Praesidium

open Paging

namespace VSpace

/-! ## Spaces -/

/-- The calls of the seam, with spaces by number. -/
inductive SpaceCall where
  | buildAddressSpace (km : KernelMap)
  | newProcessSpace
  | activateAddressSpace (k : Nat)
  | mapPage (vaddr phys : U64) (prot : Prot)
  | installGuardPage (vaddr : U64)
  /-- in domain 0 -/
  | mapUserPage (vaddr phys : U64) (prot : Prot)
  deriving DecidableEq, Repr

structure Spaces where
  count : Nat
  /-- the one built last -/
  kernel : Nat
  /-- the one that a space is a copy of, itself if it was built -/
  base : Nat → Nat
  active : Option Nat
  view : Nat → U64 → Option (U64 × (Bool × Bool))
  /-- the page was last edited by `map_user_page` -/
  user : Nat → U64 → Bool

def Spaces.empty : Spaces := ⟨0, 0, id, none, fun _ _ => none, fun _ _ => false⟩

/-- The page lies in `[1 GiB, 2 GiB)`, where each space has pages of its own. -/
def PerProcess (v : U64) : Prop := pageNumber v / 0x40000 = 1

instance (v : U64) : Decidable (PerProcess v) := inferInstanceAs (Decidable (_ = _))

/-- What is done to the page of `v` in space `k` is done in space `j`. -/
def Spaces.Shares (A : Spaces) (v : U64) (j k : Nat) : Prop :=
  if PerProcess v then j = k else A.base j = A.base k

instance (A : Spaces) (v : U64) (j k : Nat) : Decidable (A.Shares v j k) :=
  inferInstanceAs (Decidable (ite ..))

/-- A new space, a copy of `b`. -/
def Spaces.add (A : Spaces) (b : Nat) (view : U64 → Option (U64 × (Bool × Bool)))
    (user : U64 → Bool) : Spaces := { A with
    count := A.count + 1
    base := Function.update A.base A.count b
    view := Function.update A.view A.count view
    user := Function.update A.user A.count user }

def Spaces.build (A : Spaces) (km : KernelMap) : Spaces :=
  { A.add A.count (design km) fun _ => false with kernel := A.count }

def Spaces.copy (A : Spaces) : Spaces := A.add A.kernel (A.view A.kernel) (A.user A.kernel)

/-- The page of `v` is edited in space `k`. -/
def Spaces.editIn (A : Spaces) (k : Nat) (v : U64) (shown : U64 → Option (U64 × (Bool × Bool)))
    (byUser : Bool) : Spaces := { A with
    view := fun j w => if pageNumber w = pageNumber v ∧ A.Shares v j k then shown w else A.view j w
    user := fun j w => if pageNumber w = pageNumber v ∧ A.Shares v j k then byUser else A.user j w }

def Spaces.edit (A : Spaces) (v : U64) (shown : U64 → Option (U64 × (Bool × Bool)))
    (byUser : Bool) : Spaces :=
  match A.active with
  | none => A
  | some k => A.editIn k v shown byUser

/-- The page of the frame of `phys`, of which `mask` are the bits that count. -/
def framePage (mask phys : U64) (prot : Prot) (w : U64) : Option (U64 × (Bool × Bool)) :=
  some ((phys &&& mask) + (w &&& 0xfff), prot.access)

def Spaces.step (mask : U64) (A : Spaces) : SpaceCall → Spaces
  | .buildAddressSpace km => A.build km
  | .newProcessSpace => A.copy
  | .activateAddressSpace k => { A with active := some k }
  | .mapPage vaddr phys prot => A.edit vaddr (framePage mask phys prot) false
  | .installGuardPage vaddr => A.edit vaddr (fun _ => none) false
  | .mapUserPage vaddr phys prot => A.edit vaddr (framePage mask phys prot) true

/-- The spaces after the calls of a list. -/
def Spaces.after (mask : U64) (ops : List SpaceCall) : Spaces := ops.foldl (Spaces.step mask) .empty

theorem Spaces.after_snoc (mask : U64) (ops : List SpaceCall) (op : SpaceCall) :
    Spaces.after mask (ops ++ [op]) = (Spaces.after mask ops).step mask op := by
  unfold Spaces.after
  rw [List.foldl_append]
  rfl

/-! ## Copies have originals -/

structure Spaces.Formed (A : Spaces) : Prop where
  base_base : ∀ k, A.base (A.base k) = A.base k
  base_lt : ∀ k, k < A.count → A.base k < A.count
  fresh : ∀ k, A.count ≤ k → A.base k = k
  kernel : A.base A.kernel = A.kernel
  kernel_le : A.kernel ≤ A.count
  kernel_lt : 0 < A.count → A.kernel < A.count

theorem Spaces.empty_formed : Spaces.empty.Formed where
  base_base _ := rfl
  base_lt _ h := h
  fresh _ _ := rfl
  kernel := rfl
  kernel_le := Nat.le_refl 0
  kernel_lt h := absurd h (Nat.lt_irrefl 0)

section

variable {A : Spaces} {k b : Nat} {mask : U64} (view : U64 → Option (U64 × (Bool × Bool)))
  (user : U64 → Bool)

theorem Spaces.add_base_new : (A.add b view user).base A.count = b := Function.update_self ..

theorem Spaces.add_base_old (hk : k ≠ A.count) : (A.add b view user).base k = A.base k :=
  Function.update_of_ne hk ..

section

variable (h : A.Formed)

include h

/-- A new space is one of its own or a copy of one that is. -/
theorem Spaces.Formed.add_base (hb : b = A.count ∨ A.base b = b ∧ b < A.count) (k : Nat) :
    (A.add b view user).base ((A.add b view user).base k) = (A.add b view user).base k := by
  have settled : (A.add b view user).base b = b := by
    rcases hb with rfl | ⟨hb, hlt⟩
    · exact A.add_base_new ..
    · rw [A.add_base_old _ _ (Nat.ne_of_lt hlt), hb]
  by_cases hk : k = A.count
  · rw [hk, A.add_base_new, settled]
  · have old : A.base k ≠ A.count := fun hc => by
      rcases Nat.lt_or_ge k A.count with hlt | hge
      · exact absurd (h.base_lt k hlt) (by omega)
      · exact hk ((h.fresh k hge).symm.trans hc)
    rw [A.add_base_old _ _ hk, A.add_base_old _ _ old, h.base_base]

theorem Spaces.Formed.add_lt (hb : b ≤ A.count) (k : Nat) (hk : k < A.count + 1) :
    (A.add b view user).base k < A.count + 1 := by
  by_cases hc : k = A.count
  · rw [hc, A.add_base_new]
    omega
  · rw [A.add_base_old _ _ hc]
    exact Nat.lt_succ_of_lt (h.base_lt k (by omega))

theorem Spaces.Formed.add_fresh (k : Nat) (hk : A.count + 1 ≤ k) :
    (A.add b view user).base k = k := by
  rw [A.add_base_old _ _ (by omega)]
  exact h.fresh k (by omega)

theorem Spaces.Formed.build (km : KernelMap) : (A.build km).Formed where
  base_base := h.add_base (design km) (fun _ => false) (.inl rfl)
  base_lt := h.add_lt (design km) (fun _ => false) (Nat.le_refl _)
  fresh := h.add_fresh (design km) fun _ => false
  kernel := A.add_base_new (design km) fun _ => false
  kernel_le := Nat.le_succ _
  kernel_lt _ := Nat.lt_succ_self _

theorem Spaces.Formed.copy : A.copy.Formed where
  base_base := by
    refine h.add_base _ _ ?_
    rcases Nat.lt_or_ge A.kernel A.count with hlt | hge
    · exact .inr ⟨h.kernel, hlt⟩
    · exact .inl (Nat.le_antisymm h.kernel_le hge)
  base_lt := h.add_lt _ _ h.kernel_le
  fresh := h.add_fresh _ _
  kernel := by
    show A.copy.base A.kernel = A.kernel
    by_cases hk : A.kernel = A.count
    · exact (congrArg A.copy.base hk).trans (A.add_base_new ..)
    · exact (A.add_base_old _ _ hk).trans h.kernel
  kernel_le := Nat.le_succ_of_le h.kernel_le
  kernel_lt _ := Nat.lt_succ_of_le h.kernel_le

theorem Spaces.Formed.edit (v : U64) (shown : U64 → Option (U64 × (Bool × Bool))) (byUser : Bool) :
    (A.edit v shown byUser).Formed := by
  unfold Spaces.edit
  split
  · exact h
  · exact ⟨h.base_base, h.base_lt, h.fresh, h.kernel, h.kernel_le, h.kernel_lt⟩

theorem Spaces.Formed.step (mask : U64) (op : SpaceCall) :
    (A.step mask op).Formed := by
  cases op with
  | buildAddressSpace km => exact h.build km
  | newProcessSpace => exact h.copy
  | activateAddressSpace k =>
    exact ⟨h.base_base, h.base_lt, h.fresh, h.kernel, h.kernel_le, h.kernel_lt⟩
  | mapPage vaddr phys prot => exact h.edit ..
  | installGuardPage vaddr => exact h.edit ..
  | mapUserPage vaddr phys prot => exact h.edit ..

end

theorem Spaces.after_formed (mask : U64) (ops : List SpaceCall) :
    (Spaces.after mask ops).Formed := by
  induction ops using List.reverseRecOn with
  | nil => exact Spaces.empty_formed
  | append_singleton ops op ih =>
    rw [Spaces.after_snoc]
    exact ih.step mask op

/-- Spaces stay what they are copies of. -/
theorem Spaces.edit_base (A : Spaces) (v : U64) (shown : U64 → Option (U64 × (Bool × Bool)))
    (byUser : Bool) :
    (A.edit v shown byUser).base = A.base ∧ (A.edit v shown byUser).count = A.count := by
  unfold Spaces.edit
  split
  · exact ⟨rfl, rfl⟩
  · exact ⟨rfl, rfl⟩

theorem Spaces.step_base (mask : U64) (op : SpaceCall) (hk : k < A.count) :
    (A.step mask op).base k = A.base k ∧ A.count ≤ (A.step mask op).count := by
  cases op with
  | buildAddressSpace km =>
    exact ⟨A.add_base_old (design km) (fun _ => false) (Nat.ne_of_lt hk), Nat.le_succ _⟩
  | newProcessSpace => exact ⟨A.add_base_old _ _ (Nat.ne_of_lt hk), Nat.le_succ _⟩
  | activateAddressSpace k => exact ⟨rfl, Nat.le_refl _⟩
  | mapPage vaddr phys prot =>
    obtain ⟨base, count⟩ := A.edit_base vaddr (framePage mask phys prot) false
    exact ⟨congrFun base k, Nat.le_of_eq count.symm⟩
  | installGuardPage vaddr =>
    obtain ⟨base, count⟩ := A.edit_base vaddr (fun _ => none) false
    exact ⟨congrFun base k, Nat.le_of_eq count.symm⟩
  | mapUserPage vaddr phys prot =>
    obtain ⟨base, count⟩ := A.edit_base vaddr (framePage mask phys prot) true
    exact ⟨congrFun base k, Nat.le_of_eq count.symm⟩

/-- The spaces there are, are copies as `B` says. -/
def Spaces.Under (B : Family Nat) (A : Spaces) : Prop := ∀ k, k < A.count → A.base k = B.base k

theorem Spaces.Under.of_step {B : Family Nat} {op : SpaceCall} (h : (A.step mask op).Under B) :
    A.Under B :=
  fun k hk => by
  obtain ⟨base, count⟩ := A.step_base mask op hk
  rw [← base]
  exact h k (Nat.lt_of_lt_of_le hk count)

/-- Where two backends keep the same bits of every address, they keep the same spaces. -/
theorem Spaces.after_congr {mask' : U64} {ops : List SpaceCall}
    (h : ∀ op ∈ ops, ∀ v phys prot, op = .mapPage v phys prot ∨ op = .mapUserPage v phys prot →
      phys &&& mask = phys &&& mask') : Spaces.after mask ops = Spaces.after mask' ops := by
  induction ops using List.reverseRecOn with
  | nil => rfl
  | append_singleton ops op ih =>
    rw [Spaces.after_snoc, Spaces.after_snoc, ih fun op' hop => h op' (List.mem_append_left _ hop)]
    have hop := h op (List.mem_append_right _ (List.mem_singleton.mpr rfl))
    have page : ∀ v phys prot, op = .mapPage v phys prot ∨ op = .mapUserPage v phys prot →
        framePage mask phys prot = framePage mask' phys prot := fun v phys prot hc => by
      funext w
      unfold framePage
      rw [hop v phys prot hc]
    cases op with
    | mapPage v phys prot =>
      exact congrArg (fun p => Spaces.edit _ v p false) (page v phys prot (.inl rfl))
    | mapUserPage v phys prot =>
      exact congrArg (fun p => Spaces.edit _ v p true) (page v phys prot (.inr rfl))
    | _ => rfl

end

/-! ## Roots -/

/-- Which root an address is looked up from: that of the high half, if there is one, or that of
the low half.  `half s i` allows entry `i` of a root of that side. -/
structure Sides where
  high : Bool
  side : U64 → Bool
  half : Bool → Nat → Prop
  high_of : ∀ v, side v = true → high = true
  one : ∀ v w, half (side v) (index v 3) → Canonical w → index w 3 = index v 3 → side w = side v
  apart : ∀ v, side v = true → half true (index v 3) → index v 3 ≠ 0

/-- Copies have low halves of their own, and the high half of their original. -/
def family (B : Family Nat) : Family (Nat × Bool) where
  base o := (B.base o.1, o.2)
  base_base o := by rw [B.base_base]

def LowSide (o : Nat × Bool) : Prop := o.2 = false

def Spaces.live (A : Spaces) (S : Sides) (o : Nat × Bool) : Prop :=
  o.1 < A.count ∧ (o.2 = true → S.high = true ∧ A.base o.1 = o.1)

/-- Whose root space `k` has on a side. -/
def Spaces.owner (A : Spaces) (k : Nat) (s : Bool) : Nat × Bool :=
  if s then (A.base k, true) else (k, false)

theorem Spaces.owner_snd (A : Spaces) (k : Nat) (s : Bool) : (A.owner k s).2 = s := by
  cases s with
  | false => rfl
  | true => rfl

theorem window_perProcess (v : U64) : window (path v) = true ↔ PerProcess v := by
  obtain ⟨i3, i2, _, _⟩ := index_pageNumber v
  have hpath : path v = [index v 3, index v 2, index v 1, index v 0] := rfl
  rw [hpath]
  simp only [window, Bool.and_eq_true, beq_iff_eq, i3, i2, PerProcess]
  omega

/-- The same address, and the same protection but for what `map_user_page` left. -/
def Alike (user : Bool) (x y : Option (U64 × (Bool × Bool))) : Prop :=
  x.map Prod.fst = y.map Prod.fst ∧ (user = false → x = y)

theorem Alike.refl (user : Bool) (x : Option (U64 × (Bool × Bool))) : Alike user x x :=
  ⟨rfl, fun _ => rfl⟩

/-! ## Tables that show spaces -/

section

variable {R : Type} {S : Sides} {d : Entries} {access : U64 → Bool × Bool} {B : Family Nat}
  {A : Spaces} {tree tree' : Nat × Bool → U64} {m m' : Machine R}

/-- The roots `tree` show the spaces. -/
structure Holds (S : Sides) (d : Entries) (access : U64 → Bool × Bool) (B : Family Nat) (A : Spaces)
    (tree : Nat × Bool → U64) (m : Machine R) : Prop where
  formed : A.Formed
  under : A.Under B
  forest : ∃ ty, Forest d (family B) LowSide (A.live S) tree ty m
  halves : ∀ o, A.live S o → ∀ i, i < 512 → d.present (m.mem (tree o) i) = true → S.half o.2 i
  shows : ∀ k, k < A.count → ∀ v, Canonical v →
    Alike (A.user k v) (d.view access m.mem (tree (A.owner k (S.side v))) v) (A.view k v)

variable {k b : Nat} {v : U64} (view : U64 → Option (U64 × (Bool × Bool))) (user : U64 → Bool)

/-- The roots after a space is added. -/
theorem Spaces.live_add (o : Nat × Bool) :
    (A.add b view user).live S o ↔
      A.live S o ∨ o = (A.count, false) ∨ (o = (A.count, true) ∧ S.high = true ∧ b = A.count) := by
  obtain ⟨k, s⟩ := o
  show (k < A.count + 1 ∧ (s = true → S.high = true ∧ (A.add b view user).base k = k)) ↔
    (k < A.count ∧ (s = true → S.high = true ∧ A.base k = k)) ∨ (k, s) = (A.count, false) ∨
      ((k, s) = (A.count, true) ∧ S.high = true ∧ b = A.count)
  by_cases hk : k = A.count
  · subst hk
    rw [A.add_base_new]
    cases s with
    | false => simp
    | true => simp
  · rw [A.add_base_old _ _ hk]
    have below : k < A.count + 1 ↔ k < A.count := by omega
    simp [hk, below]

theorem Spaces.live_build (km : KernelMap) (o : Nat × Bool) :
    (A.build km).live S o ↔ A.live S o ∨ o = (A.count, false) ∨
      (o = (A.count, true) ∧ S.high = true) := by
  refine (Spaces.live_add (design km) (fun _ => false) o).trans ?_
  simp only [and_true]

theorem Spaces.owner_add (hk : k ≠ A.count) (s : Bool) :
    (A.add b view user).owner k s = A.owner k s := by
  unfold Spaces.owner
  rw [A.add_base_old _ _ hk]

section

variable (h : Holds S d access B A tree m)

include h

theorem Holds.base_base (hk : k < A.count) :
    B.base (A.base k) = A.base k := by
  rw [h.under k hk, B.base_base]

theorem Holds.live_owner (hk : k < A.count) {s : Bool} (hs : s = true → S.high = true) :
    A.live S (A.owner k s) := by
  cases s with
  | false => exact ⟨hk, fun hc => by cases hc⟩
  | true => exact ⟨h.formed.base_lt k hk, fun _ => ⟨hs rfl, h.formed.base_base k⟩⟩

/-- Who shares a page. -/
theorem Holds.shares {j : Nat} (hj : j < A.count) (hk : k < A.count) {w : U64}
    (hhalf : S.half (S.side v) (index v 3)) (hw : Canonical w) (hp : path w = path v) :
    (family B).owners.own (A.owner j (S.side w)) (path v) = (family B).owners.own
      (A.owner k (S.side v)) (path v) ↔
      A.Shares v j k := by
  have side : S.side w = S.side v := S.one v w hhalf hw (index_of_region (region_of_path hp).1).1
  rw [side]
  unfold Spaces.Shares
  by_cases hwin : window (path v) = true
  · have low : S.side v = false := eq_false_of_ne_true fun hs =>
      S.apart v hs (by rw [hs] at hhalf; exact hhalf) (window_index hwin).1
    rw [(family B).own_window hwin, (family B).own_window hwin, low,
      if_pos ((window_perProcess v).mp hwin)]
    exact ⟨fun hc => congrArg Prod.fst hc, fun hc => by rw [hc]⟩
  · rw [(family B).own_shared (eq_false_of_ne_true hwin),
      (family B).own_shared (eq_false_of_ne_true hwin),
      if_neg fun hc => hwin ((window_perProcess v).mpr hc)]
    cases S.side v with
    | false =>
      show ((B.base j, false) : Nat × Bool) = (B.base k, false) ↔ _
      rw [h.under j hj, h.under k hk]
      exact ⟨fun hc => congrArg Prod.fst hc, fun hc => by rw [hc]⟩
    | true =>
      show ((B.base (A.base j), true) : Nat × Bool) = (B.base (A.base k), true) ↔ _
      rw [h.base_base hj, h.base_base hk]
      exact ⟨fun hc => congrArg Prod.fst hc, fun hc => by rw [hc]⟩

/-- **An edit.** -/
theorem Holds.edit (hk : k < A.count) {e : U64}
    (hc : Changed d access (family B) LowSide (A.live S) tree (A.owner k (S.side v)) v e m m')
    (hhalf : S.half (S.side v) (index v 3)) {shown : U64 → Option (U64 × (Bool × Bool))}
    {byUser : Bool} (hshown : ∀ w, Alike byUser (d.leafView access w (d.pageAt e)) (shown w)) :
    Holds S d access B (A.editIn k v shown byUser) tree m' where
  formed := ⟨h.formed.base_base, h.formed.base_lt, h.formed.fresh, h.formed.kernel,
    h.formed.kernel_le, h.formed.kernel_lt⟩
  under := h.under
  forest := hc.forest
  halves o ho i hi hp := h.halves o ho i hi (by rw [← hc.root o ho i]; exact hp)
  shows j hj w hw := by
    have live : A.live S (A.owner j (S.side w)) := h.live_owner hj (S.high_of w)
    show Alike (if _ then byUser else A.user j w)
      (d.view access m'.mem (tree (A.owner j (S.side w))) w) (if _ then shown w else A.view j w)
    by_cases hp : path w = path v
    · have shares := h.shares hj hk hhalf hw hp
      by_cases hs : A.Shares v j k
      · rw [if_pos ⟨(path_eq_iff w v).mp hp, hs⟩, if_pos ⟨(path_eq_iff w v).mp hp, hs⟩,
          hc.page _ live w ⟨hp, shares.mpr hs⟩]
        exact hshown w
      · rw [if_neg fun hc => hs hc.2, if_neg fun hc => hs hc.2, hc.rest _ live w fun hc =>
          hs (shares.mp hc.2)]
        exact h.shows j hj w hw
    · have away : pageNumber w ≠ pageNumber v := fun hc => hp ((path_eq_iff w v).mpr hc)
      rw [if_neg fun hc => away hc.1, if_neg fun hc => away hc.1, hc.rest _ live w fun hc =>
        hp hc.1]
      exact h.shows j hj w hw

/-- What the spaces there are show, with one more. -/
theorem Holds.shows_add (htree : ∀ o, A.live S o → tree' o = tree o)
    (hold : ∀ o, A.live S o → ∀ w, d.view access m'.mem (tree o) w = d.view access m.mem (tree o) w)
    (hk : k < A.count) (hv : Canonical v) :
    Alike ((A.add b view user).user k v)
      (d.view access m'.mem (tree' ((A.add b view user).owner k (S.side v))) v)
        ((A.add b view user).view k v) := by
  have ne : k ≠ A.count := Nat.ne_of_lt hk
  have live := h.live_owner hk (S.high_of v)
  have userOld : (A.add b view user).user k = A.user k := Function.update_of_ne ne ..
  have viewOld : (A.add b view user).view k = A.view k := Function.update_of_ne ne ..
  rw [userOld, viewOld, A.owner_add _ _ ne, htree _ live, hold _ live]
  exact h.shows k hk v hv

/-- **A space is built.** -/
theorem Holds.build {km : KernelMap} (hunder : (A.build km).Under B)
    (hforest : ∃ ty', Forest d (family B) LowSide ((A.build km).live S) tree' ty' m')
    (htree : ∀ o, A.live S o → tree' o = tree o)
    (hold : ∀ o, A.live S o → ∀ w, d.view access m'.mem (tree o) w = d.view access m.mem (tree o) w)
    (hroot : ∀ o, A.live S o → m'.mem (tree o) = m.mem (tree o))
    (hhalf : ∀ s, (s = true → S.high = true) → ∀ i, i < 512 →
    d.present (m'.mem (tree' (A.count, s)) i) = true → S.half s i)
    (hnew : ∀ v, Canonical v → d.view access m'.mem (tree' (A.count, S.side v)) v = design km v) :
    Holds S d access B (A.build km) tree' m' where
  formed := h.formed.build km
  under := hunder
  forest := hforest
  halves o ho i hi hp := by
    rcases (Spaces.live_build km o).mp ho with ho | rfl | ⟨rfl, hs⟩
    · rw [htree o ho, hroot o ho] at hp
      exact h.halves o ho i hi hp
    · exact hhalf false (fun hc => by cases hc) i hi hp
    · exact hhalf true (fun _ => hs) i hi hp
  shows k hk v hv := by
    by_cases hc : k = A.count
    · have owner : (A.build km).owner A.count (S.side v) = (A.count, S.side v) := by
        unfold Spaces.owner
        cases S.side v with
        | false => rfl
        | true => exact congrArg (fun k => (k, true)) (A.add_base_new (design km) fun _ => false)
      have view : (A.build km).view A.count = design km := Function.update_self ..
      rw [hc, owner, view, hnew v hv]
      exact .refl ..
    · have hlt : k < A.count + 1 := hk
      exact h.shows_add (design km) (fun _ => false) htree hold (by omega) hv

/-- **A space is copied.** -/
theorem Holds.copy (hd : d.Lawful) (hpos : 0 < A.count) (hunder : A.copy.Under B)
    {root pdpt pd : U64} {pts : Nat → U64} {used : List U64}
    (hc : WindowCopied d (tree (A.kernel, false)) m root pdpt pd pts used m')
    (htree : ∀ o, A.live S o → tree' o = tree o) (hroot : tree' (A.count, false) = root) :
    Holds S d access B A.copy tree' m' := by
  obtain ⟨ty, forest⟩ := h.forest
  have kernel_lt := h.formed.kernel_lt hpos
  have live : A.live S (A.kernel, false) := ⟨kernel_lt, fun hs => by cases hs⟩
  have base_kernel : (family B).base (A.kernel, false) = (A.kernel, false) := by
    show (B.base A.kernel, false) = _
    rw [← h.under _ kernel_lt, h.formed.kernel]
  have base_new : (family B).base (A.count, false) = (A.kernel, false) := by
    show (B.base A.count, false) = _
    rw [← hunder _ (Nat.lt_succ_self _)]
    exact congrArg (fun k => (k, false)) (A.add_base_new ..)
  have hlive : ∀ o, A.copy.live S o ↔ A.live S o ∨ o = (A.count, false) := fun o => by
    refine (Spaces.live_add _ _ o).trans ⟨fun ho => ?_, fun ho => ?_⟩
    · rcases ho with ho | ho | ⟨_, _, hc⟩
      · exact .inl ho
      · exact .inr ho
      · omega
    · rcases ho with ho | ho
      · exact .inl ho
      · exact .inr (.inl ho)
  obtain ⟨forest', new, old⟩ :=
    forest.copied access hd live rfl base_kernel base_new rfl hc htree hlive hroot
  constructor
  case formed => exact h.formed.copy
  case under => exact hunder
  case forest => exact forest'
  case halves =>
    intro o ho i hi hp
    rcases (hlive o).mp ho with ho | rfl
    · rw [htree o ho, hc.mem_placed forest.heap (forest.root o ho)] at hp
      exact h.halves o ho i hi hp
    · refine h.halves _ live i hi ?_
      rw [hroot] at hp
      by_cases h0 : i = 0
      · subst h0
        rw [hc.root_window, hd.present_moved pdpt _ (hc.frames forest.heap.frame).2.1] at hp
        exact hp
      · rw [hc.root_other i hi h0] at hp
        exact hp
  case shows =>
    intro k hk v hv
    by_cases hnew : k = A.count
    · have user : A.copy.user A.count = A.user A.kernel := Function.update_self ..
      have view : A.copy.view A.count = A.view A.kernel := Function.update_self ..
      have same : d.view access m'.mem (tree' (A.copy.owner A.count (S.side v))) v =
          d.view access m.mem (tree (A.owner A.kernel (S.side v))) v := by
        cases hs : S.side v with
        | false =>
          show d.view access m'.mem (tree' (A.count, false)) v =
            d.view access m.mem (tree (A.kernel, false)) v
          rw [hroot, new]
        | true =>
          have owner : A.copy.owner A.count true = (A.kernel, true) :=
            congrArg (fun k => (k, true)) (A.add_base_new ..)
          have owner' : A.owner A.kernel true = (A.kernel, true) :=
            congrArg (fun k => (k, true)) h.formed.kernel
          have high : A.live S (A.kernel, true) :=
            ⟨kernel_lt, fun _ => ⟨S.high_of v hs, h.formed.kernel⟩⟩
          rw [owner, owner', htree _ high, old _ high]
      rw [hnew, user, view, same]
      exact h.shows _ kernel_lt v hv
    · have hlt : k < A.count + 1 := hk
      exact h.shows_add _ _ htree old (by omega) hv

/-- Registers are not tables. -/
theorem Holds.setRegs (regs : R) :
    Holds S d access B A tree { m with regs := regs } where
  formed := h.formed
  under := h.under
  forest := by
    obtain ⟨ty, forest⟩ := h.forest
    exact ⟨ty, ⟨forest.heap.setRegs regs, forest.root, forest.base, forest.topped, forest.copies⟩⟩
  halves := h.halves
  shows := h.shows

end

end

end VSpace

end Praesidium
