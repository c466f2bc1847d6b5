import Praesidium.Kernel.PagingWindow
import Praesidium.Kernel.PagingX86

/-!
What ring 3 reaches (x86-64).

Ring 3 walks through entries with `USER` only.  The tables are typed by who owns them, with
`USER` allowed in the window of a process and nowhere else that counts (`userShape`), so a
walk of ring 3 stays in the window of the space it started in (`ring3From_window`).
-/

namespace Praesidium

namespace X86

open Fallible Flags Paging Radix

/-! ## The view of ring 3 -/

/-- The tables as ring 3 walks them. -/
def userFormat : Format U64 := entries.format.only fun e => has e USER

/-- What the kernel finds at an address under a root, the level with the leaf. -/
def seenFrom (mem : Mem U64) (root v : U64) : Option (Nat × U64) :=
  Radix.walk entries.format mem (index v) 3 root

/-- What ring 3 finds there. -/
def ring3From (mem : Mem U64) (root v : U64) : Option (Nat × U64) :=
  Radix.walk userFormat mem (index v) 3 root

variable {mem : Mem U64} {root v f : U64}

theorem seenFrom_of_ring3 {n : Nat} {e : U64} (h : ring3From mem root v = some (n, e)) :
    seenFrom mem root v = some (n, e) ∧ has e USER = true := walk_of_only h

/-! ## Where `USER` may stand -/

/-- A leaf for ring 3 is a page, and in the window it is one of a process. -/
def UserLeaf (base : U64) (r : Place U64) (i : Nat) (e : U64) : Prop :=
  has e USER = true → r.path.length = 3 ∧ (window (r.path ++ [i]) = true → r.owner ≠ base)

/-- A link for ring 3 leads a process to its window. -/
def UserLink (base : U64) (r : Place U64) (i : Nat) (e : U64) : Prop :=
  has e USER = true → r.owner ≠ base ∧ window (r.path ++ [i]) = true

abbrev userShape (base : U64) : Shape U64 (Place U64) :=
  (windowOwners base).shape 3 (UserLeaf base) (UserLink base)

variable {base : U64}

theorem has_table_user (hf : entries.IsFrame f) : has (f ||| entries.tableBits) USER = false := by
  have bits : has entries.tableBits USER = false := by decide
  rw [has_or, Entries.has_frame hf (by decide), bits, Bool.or_false]

theorem has_moved_user (e : U64) (hf : entries.IsFrame f) :
    has (entries.moved f e) USER = has e USER :=
  Entries.has_moved e hf (by decide) (by decide)

theorem has_split_user (e : U64) {j : Nat} (hj : j < 512) :
    has (entries.split e j) USER = has e USER :=
  has_split e hj (by decide) (by decide)

theorem has_leafBits_user (prot : Prot) : has (leafBits prot) USER = false := by
  decide +revert

theorem userKeeps : entries.Keeps (userShape base) where
  root_leaf _ _ e _ hc := by
    have never : entries.isLeaf 3 e = false := rfl
    rw [never] at hc
    cases hc
  link_table r i f hf hu := by
    rw [has_table_user hf] at hu
    cases hu
  link_moved r i f e hf h hu := h (by rw [← has_moved_user e hf]; exact hu)
  leaf_moved r i f e hf h hu := h (by rw [← has_moved_user e hf]; exact hu)
  leaf_split r i e j hl hj h hu := by
    have long := (h (by rw [← has_split_user e hj]; exact hu)).1
    have level : 3 - r.path.length = 1 := hl
    omega

theorem userInherits : Inherits base (UserLeaf base) (UserLink base) where
  leaf _ _ _ _ h hu := ⟨(h hu).1, fun hw => absurd rfl ((h hu).2 hw)⟩
  link _ _ _ _ h hu := absurd rfl (h hu).1

section

variable {ty : U64 → Option (Place U64)} {m : Machine Regs} {s : U64}

/-- What is typed for the kernel is typed for ring 3. -/
theorem userTyped (h : Heap entries (userShape base) ty m) :
    Typed userFormat (userShape base) ty 512 m.mem :=
  h.typed.only fun e => has e USER

/-- **Ring 3 stays in the window of its process.** -/
theorem ring3From_window (h : Heap entries (userShape base) ty m) (hs : ty s = some ⟨s, []⟩)
    {w : U64} {n : Nat} {e : U64} (hr : ring3From m.mem s w = some (n, e)) :
    s ≠ base ∧ window (path w) = true ∧ n = 0 := by
  have typed := userTyped h
  obtain ⟨r', level, leaf, _⟩ := typed.walk (index_lt w) hs hr
  have long := (leaf (seenFrom_of_ring3 hr).2).1
  have user4 := walk_present hr
  have link4 := (typed s _ hs _ (index_lt w 3)).link user4 (by decide : (3 : Nat) ≠ 0) rfl
  obtain ⟨owner, win4⟩ := link4.1 (Bool.and_eq_true_iff.mp user4).2
  unfold ring3From at hr
  rw [walk_link (F := userFormat) user4 rfl] at hr
  generalize hpdpt : userFormat.next (m.mem s (index w 3)) = pdpt at hr
  have place3 : ty pdpt = some ((windowOwners base).place s [index w 3]) := by
    rw [← hpdpt]; exact link4.2
  have user3 := walk_present hr
  have fits3 := typed _ _ place3 _ (index_lt w 2)
  have leaf3 : entries.isLeaf 2 (m.mem pdpt (index w 2)) = false := eq_false_of_ne_true fun hl => by
    have long := (fits3.leaf user3 (.inr hl) (Bool.and_eq_true_iff.mp user3).2).1
    exact absurd long (by simp [Owners.place])
  have link3 := fits3.link user3 (by decide : (2 : Nat) ≠ 0) leaf3
  have win3 := (link3.1 (Bool.and_eq_true_iff.mp user3).2).2
  refine ⟨owner, ?_, ?_⟩
  · exact win3
  · rw [← level]
    show 3 - r'.path.length = 0
    omega

end

/-! ## Granting access -/

/-- Entry `i` of `t` with `USER`. -/
def grant (m : Machine Regs) (t : U64) (i : Nat) : Machine Regs :=
  { m with mem := m.mem.set t i (m.mem t i ||| USER) }

theorem ends_grantUser {m : Machine Regs} {Q : Unit → Machine Regs → Prop}
    {E : Paging.Halt → Machine Regs → Prop} (t : U64) (i : Nat) :
    Ends (grantUser t i (m.mem t i)) m Q E ↔ Q () (grant m t i) := by
  unfold grantUser
  rw [ends_ite, ends_pure, ends_writeEntry]
  by_cases hu : has (m.mem t i) USER = true
  · have again : m.mem t i ||| USER = m.mem t i := or_of_has_bit 2 hu
    have same : grant m t i = m := by
      unfold grant
      rw [again, Mem.set_same]
    rw [same]
    exact ⟨fun h => h.1 hu, fun h => ⟨fun _ => h, fun hc => absurd hu hc⟩⟩
  · exact ⟨fun h => h.2 hu, fun h => ⟨fun hc => absurd hc hu, fun _ => h⟩⟩

theorem has_or_user (e : U64) {c : U64} (hc : has USER c = false) :
    has (e ||| USER) c = has e c := by
  rw [has_or, hc, Bool.or_false]

theorem next_or_user (e : U64) : (e ||| USER) &&& ADDR_MASK = e &&& ADDR_MASK := by
  have user : USER &&& ADDR_MASK = 0 := by decide
  rw [or_and, user]
  exact BitVec.or_zero

theorem isLeaf_or_user (n : Nat) (e : U64) :
    entries.isLeaf n (e ||| USER) = entries.isLeaf n e := by
  show (n != 3 && has (e ||| USER) HUGE) = (n != 3 && has e HUGE)
  rw [has_or_user e (by decide)]

theorem leafAt_or_user (n : Nat) (e : U64) :
    entries.format.leafAt n (e ||| USER) ↔ entries.format.leafAt n e := by
  show _ ∨ entries.isLeaf n (e ||| USER) = true ↔ _ ∨ entries.isLeaf n e = true
  rw [isLeaf_or_user]

/-- There are no leaves in a root, nor where a region is mapped below a table. -/
theorem root_link (e : U64) : ¬ entries.format.leafAt 3 e := by
  rintro (hl | hl)
  · cases hl
  · cases hl

theorem pdpt_link (hm : entries.Mapped mem root v) :
    ¬ entries.format.leafAt 2 (mem (entries.pdptOf mem root v) (index v 2)) := by
  have table := hm.pdpte
  rw [lawful.isTable_eq 2 _ (.inr rfl), Bool.and_eq_true, Bool.not_eq_true'] at table
  rintro (hl | hl)
  · cases hl
  · exact absurd hl (by show ¬ entries.isLeaf 2 _ = true; rw [table.2]; decide)

/-- A link of a process on the way to its window, which may be granted. -/
structure Grantable (base : U64) (ty : U64 → Option (Place U64)) (m : Machine Regs) (t : U64)
    (i : Nat) (r : Place U64) : Prop where
  place : ty t = some r
  below : i < 512
  present : entries.present (m.mem t i) = true
  link : ¬ entries.format.leafAt (3 - r.path.length) (m.mem t i)
  owner : r.owner ≠ base
  window : window (r.path ++ [i]) = true

section

variable {ty : U64 → Option (Place U64)} {m : Machine Regs} {t : U64} {i : Nat} {r : Place U64}

theorem grant_heap (h : Heap entries (userShape base) ty m) (hg : Grantable base ty m t i r) :
    Heap entries (userShape base) ty (grant m t i) := by
  refine h.write t i _ fun r' hr' => ?_
  have same : r' = r := Option.some.inj (hr'.symm.trans hg.place)
  subst same
  have link := ((h.typed t r' hr' i hg.below) hg.present).2 hg.link
  refine fun _ => ⟨fun hl => absurd ((leafAt_or_user _ _).mp hl) hg.link, fun _ =>
    ⟨fun _ => ⟨hg.owner, hg.window⟩, ?_⟩⟩
  show ty ((m.mem t i ||| USER) &&& ADDR_MASK) = _
  rw [next_or_user]
  exact link.2

variable {x : U64} {o : Place U64}

theorem grant_of_ne (m : Machine Regs) {t : U64} {i j : Nat} (h : ¬ (x = t ∧ j = i)) :
    (grant m t i).mem x j = m.mem x j :=
  if_neg h

theorem grant_self (m : Machine Regs) (t : U64) (i : Nat) :
    (grant m t i).mem t i = m.mem t i ||| USER := Mem.set_self ..

/-- A link reads alike with `USER`. -/
theorem grant_like {ρ : Type} {S : Shape U64 ρ} {ty : U64 → Option ρ} {r : ρ}
    (hplace : ty t = some r) (hlink : ¬ entries.format.leafAt (S.level r) (m.mem t i)) {t' : U64}
    {r' : ρ} {i' : Nat} (hr' : ty t' = some r') :
    entries.format.Like (S.level r') (m.mem t' i') ((grant m t i).mem t' i') := by
  by_cases hc : t' = t ∧ i' = i
  · obtain ⟨rfl, rfl⟩ := hc
    have same : r' = r := Option.some.inj (hr'.symm.trans hplace)
    subst same
    rw [grant_self]
    exact .inr ⟨hlink, fun hl => hlink ((leafAt_or_user _ _).mp hl), has_or_user _ (by decide),
      next_or_user _⟩
  · exact .inl (grant_of_ne m hc)

section

variable (h : Heap entries (userShape base) ty m) (hg : Grantable base ty m t i r)
  (hx : ty x = some o) (ho : o.path = [])

include h hg hx ho

/-- The kernel's view is not changed by a grant. -/
theorem grant_seen (w : U64) :
    seenFrom (grant m t i).mem x w = seenFrom m.mem x w := by
  have level : (userShape base).level o = 3 := by
    show 3 - o.path.length = 3
    rw [ho]
    rfl
  exact h.typed.walk_like (index_lt w) hx level fun t' r' i' hr' _ =>
    grant_like hg.place hg.link hr'

/-- Ring 3 loses nothing by a grant. -/
theorem grant_ring3 {w : U64} {y : Nat × U64} (hy : ring3From m.mem x w = some y) :
    ring3From (grant m t i).mem x w = some y := by
  have level : (userShape base).level o = 3 := by
    show 3 - o.path.length = 3
    rw [ho]
    rfl
  refine (userTyped h).walk_mono (index_lt w) hx level (fun t' r' i' hr' _ present => ?_) hy
  by_cases hc : t' = t ∧ i' = i
  · obtain ⟨rfl, rfl⟩ := hc
    have same : r' = r := Option.some.inj (hr'.symm.trans hg.place)
    subst same
    rw [grant_self]
    refine ⟨?_, fun hl => absurd hl hg.link, fun _ =>
      ⟨fun hl => hg.link ((leafAt_or_user _ _).mp hl), next_or_user _⟩⟩
    show (has (m.mem t' i' ||| USER) PRESENT && has (m.mem t' i' ||| USER) USER) = true
    rw [has_or_user _ (by decide), has_or_right _ (by decide : has USER USER = true), Bool.and_true]
    exact hg.present
  · rw [grant_of_ne m hc]
    exact .refl present

end

end

/-! ## What the calls do -/

section

variable {m : Machine Regs} {root : U64}

theorem mapPage_spec (hcr3 : m.regs.cr3 &&& ADDR_MASK = root) (vaddr phys : U64) (prot : Prot) :
    Ends (mapPage vaddr phys prot) m
      (fun _ m' => Edited entries root (pageAlign vaddr) ((phys &&& ADDR_MASK) ||| leafBits prot) m
        m')
      (EditFails entries root (pageAlign vaddr) m) := by
  unfold mapPage ensurePt currentPml4
  rw [ends_bind, ends_bind, ends_bind, ends_get, ends_pure, hcr3, ← ends_bind]
  exact edit_spec entries root (pageAlign vaddr) _ m

theorem installGuardPage_spec (hcr3 : m.regs.cr3 &&& ADDR_MASK = root) (vaddr : U64) :
    Ends (installGuardPage vaddr) m (fun _ m' => Edited entries root (pageAlign vaddr) 0 m m')
      (EditFails entries root (pageAlign vaddr) m) := by
  unfold installGuardPage ensurePt currentPml4
  rw [ends_bind, ends_bind, ends_bind, ends_get, ends_pure, hcr3, ← ends_bind]
  exact edit_spec entries root (pageAlign vaddr) _ m

/-- Ring 3 is let through to the tables of the region of `v`. -/
def granted (root v : U64) (m : Machine Regs) : Machine Regs :=
  grant (grant m root (index v 3)) (entries.pdptOf m.mem root v) (index v 2)

/-- The page of `v` holds `e`, and ring 3 is let through to it. -/
def UserMapped (root v e : U64) (m m' : Machine Regs) : Prop :=
  entries.Mapped m.mem root v ∧ ∃ m1, Edited entries root v e (granted root v m) m1 ∧
    m' = grant m1 (entries.pdOf m.mem root v) (index v 1)

/-- The tables of a region that `USER` is written to are three. -/
structure Apart (root v : U64) (m : Machine Regs) : Prop where
  pdpt : entries.pdptOf m.mem root v ≠ root
  pd : entries.pdOf m.mem root v ≠ root ∧ entries.pdOf m.mem root v ≠ entries.pdptOf m.mem root v

section

variable {ty : U64 → Option (Place U64)} {v : U64}

/-- Tables at different depths are different. -/
theorem ne_of_paths {x y : U64} {r r' : Place U64} (hx : ty x = some r) (hy : ty y = some r')
    (hne : r.path.length ≠ r'.path.length) : x ≠ y := fun hc => by
  rw [hc, hy] at hx
  exact hne (congrArg (fun r : Place U64 => r.path.length) (Option.some.inj hx)).symm

/-- The tables on the way to a region, where they are there, are different ones and no frames to
come. -/
structure Tiered (root v : U64) (m : Machine Regs) : Prop where
  pdpt : entries.present (m.mem root (index v 3)) = true → entries.pdptOf m.mem root v ≠ root
  pd : entries.present (m.mem root (index v 3)) = true →
    entries.isTable (m.mem (entries.pdptOf m.mem root v) (index v 2)) = true →
    entries.pdOf m.mem root v ≠ root ∧ entries.pdOf m.mem root v ≠ entries.pdptOf m.mem root v ∧
      entries.pdOf m.mem root v ∉ m.supply
  pt : entries.Mapped m.mem root v → entries.isLeaf 1 (entries.pdeOf m.mem root v) = false →
    entries.pdeOf m.mem root v &&& ADDR_MASK ≠ entries.pdOf m.mem root v

theorem Tiered.apart (h : Tiered root v m) (h4 : entries.present (m.mem root (index v 3)) = true)
    (h3 : entries.isTable (m.mem (entries.pdptOf m.mem root v) (index v 2)) = true) :
    Apart root v m :=
  ⟨h.pdpt h4, (h.pd h4 h3).1, (h.pd h4 h3).2.1⟩

section

variable {ρ : Type} {S : Shape U64 ρ} {ty : U64 → Option ρ}

variable {r : ρ}

/-- Tables at different levels are different. -/
theorem ne_of_levels {x y : U64} {r' : ρ} (hx : ty x = some r) (hy : ty y = some r')
    (hne : S.level r ≠ S.level r') : x ≠ y := fun hc => by
  rw [hc, hy] at hx
  exact hne (congrArg S.level (Option.some.inj hx)).symm

/-- Typed tables are. -/
theorem tiered (hk : entries.Keeps S) (h : Heap entries S ty m) (hroot : ty root = some r)
    (hl : S.level r = 3) (v : U64) : Tiered root v m := by
  have levPdpt := S.level_child r (index v 3) (by omega)
  have levPd := level_pd (S := S) hl (index v 3) (index v 2)
  have levPt := level_pt (S := S) hl (index v 3) (index v 2) (index v 1)
  constructor
  case pdpt =>
    intro h4
    exact ne_of_levels (S := S) (pdptOf_typed hk h.typed hroot hl h4) hroot (by omega)
  case pd =>
    intro h4 h3
    have pdpt := pdptOf_typed hk h.typed hroot hl h4
    have pd := pdOf_typed lawful hk h.typed hroot hl h4 h3
    exact ⟨ne_of_levels (S := S) pd hroot (by omega), ne_of_levels (S := S) pd pdpt (by omega),
      h.not_free pd⟩
  case pt =>
    intro hm hleaf
    have pd := pdOf_typed lawful hk h.typed hroot hl hm.pml4e hm.pdpte
    have pt :=
      ((h.typed _ _ pd _ (index_lt v 1)).link hm.pde (by omega) (by rw [levPd]; exact hleaf)).2
    exact ne_of_levels (S := S) pt pd (by omega)

end

section

variable (h : Heap entries (userShape base) ty m) (hroot : ty root = some ⟨root, []⟩)
  (h4 : entries.present (m.mem root (index v 3)) = true)

include h hroot h4

theorem pdpt_apart :
    entries.pdptOf m.mem root v ≠ root :=
  (tiered userKeeps h hroot rfl v).pdpt h4

theorem apart (h3 : entries.isTable (m.mem (entries.pdptOf m.mem root v) (index v 2)) = true) :
    Apart root v m :=
  (tiered userKeeps h hroot rfl v).apart h4 h3

end

end

variable {v : U64}

theorem granted_entries (hpdpt : entries.pdptOf m.mem root v ≠ root) :
    (granted root v m).mem root (index v 3) = m.mem root (index v 3) ||| USER ∧
      (granted root v m).mem (entries.pdptOf m.mem root v) (index v 2) =
        m.mem (entries.pdptOf m.mem root v) (index v 2) ||| USER := by
  unfold granted
  constructor
  · rw [grant_of_ne _ fun hc => hpdpt hc.1.symm, grant_self]
  · rw [grant_self, grant_of_ne _ fun hc => hpdpt hc.1]

theorem granted_tables (ha : Apart root v m) :
    entries.pdptOf (granted root v m).mem root v = entries.pdptOf m.mem root v ∧
      entries.pdOf (granted root v m).mem root v = entries.pdOf m.mem root v ∧
      entries.pdeOf (granted root v m).mem root v = entries.pdeOf m.mem root v := by
  obtain ⟨root4, pdpt3⟩ := granted_entries ha.pdpt
  have pdpt : entries.pdptOf (granted root v m).mem root v = entries.pdptOf m.mem root v := by
    unfold Entries.pdptOf
    rw [root4]
    exact next_or_user _
  have pd : entries.pdOf (granted root v m).mem root v = entries.pdOf m.mem root v := by
    unfold Entries.pdOf
    rw [pdpt, pdpt3]
    exact next_or_user _
  refine ⟨pdpt, pd, ?_⟩
  unfold Entries.pdeOf
  rw [pd, granted, grant_of_ne _ fun hc => ha.pd.2 hc.1, grant_of_ne _ fun hc => ha.pd.1 hc.1]

theorem granted_mapped (ha : Apart root v m) (hm : entries.Mapped m.mem root v) :
    entries.Mapped (granted root v m).mem root v := by
  obtain ⟨pdpt, _, pde⟩ := granted_tables ha
  obtain ⟨root4, pdpt3⟩ := granted_entries ha.pdpt
  constructor
  · rw [root4]
    exact (has_or_user _ (by decide)).trans hm.pml4e
  · rw [pdpt, pdpt3]
    show (has (_ ||| USER) PRESENT && !has (_ ||| USER) HUGE) = true
    rw [has_or_user _ (by decide), has_or_user _ (by decide)]
    exact hm.pdpte
  · rw [pde]
    exact hm.pde

/-- The page may be written before or after the grant above it. -/
theorem grant_write (m : Machine Regs) {t x : U64} (hx : x ≠ t) (i j : Nat) (e : U64) :
    { grant m t i with mem := (grant m t i).mem.set x j e } = grant
      { m with mem := m.mem.set x j e } t i := by
  have entry : m.mem.set x j e t i = m.mem t i := by rw [Mem.set_table_ne _ hx.symm]
  unfold grant
  dsimp only
  rw [entry, Mem.set_comm _ hx]

/-- The region had a table. -/
theorem userMapped_found (e : U64) (ha : Apart root v m) (hm : entries.Mapped m.mem root v)
    (hl : entries.isLeaf 1 (entries.pdeOf m.mem root v) = false)
    (hpt : entries.pdeOf m.mem root v &&& ADDR_MASK ≠ entries.pdOf m.mem root v) :
    UserMapped root v e m
      { grant (granted root v m) (entries.pdOf m.mem root v) (index v 1) with
        mem := (grant (granted root v m) (entries.pdOf m.mem root v) (index v 1)).mem.set
          (entries.pdeOf m.mem root v &&& ADDR_MASK) (index v 0) e } := by
  obtain ⟨_, _, pde⟩ := granted_tables ha
  rw [grant_write _ hpt]
  refine ⟨hm, _, ⟨granted_mapped ha hm, _, _, .found (by rw [pde]; exact hl), ?_⟩, rfl⟩
  rw [pde]
  rfl

/-- The region was a 2 MiB leaf. -/
theorem userMapped_split (e : U64) (ha : Apart root v m) (hm : entries.Mapped m.mem root v)
    (hl : entries.isLeaf 1 (entries.pdeOf m.mem root v) = true) {pt : U64} {rest : List U64}
    (hs : m.supply = pt :: rest) (hpt : pt ≠ entries.pdOf m.mem root v) :
    UserMapped root v e m
      { granted root v m with
        mem := (((granted root v m).mem.fill pt
          (full (entries.split (entries.pdeOf m.mem root v)))).set
          (entries.pdOf m.mem root v) (index v 1) (pt ||| PRESENT ||| WRITABLE ||| USER)).set pt
            (index v 0) e
        supply := rest } := by
  obtain ⟨_, pd, pde⟩ := granted_tables ha
  refine ⟨hm, _, ⟨granted_mapped ha hm, pt, _, .split (by rw [pde]; exact hl) hs, rfl⟩, ?_⟩
  rw [← grant_write _ hpt]
  unfold grant
  dsimp only
  rw [pd, pde, Mem.set_self, Mem.set_set, BitVec.or_assoc pt]
  rfl

theorem mapUserPage_tiered (vaddr phys : U64) (prot : Prot) (domain : U64)
    (ht : Tiered root (pageAlign vaddr) m) (hcr3 : m.regs.cr3 &&& ADDR_MASK = root) :
    Ends (mapUserPage vaddr phys prot domain) m
      (fun _ m' => UserMapped root (pageAlign vaddr) (userLeaf phys prot domain) m m')
      (EditFails entries root (pageAlign vaddr) m) := by
  unfold mapUserPage ensurePtUser currentPml4 idx
  generalize pageAlign vaddr = v at ht ⊢
  generalize userLeaf phys prot domain = e
  rw [ends_bind, ends_bind, ends_bind, ends_get, ends_pure, hcr3, ends_bind, ends_readEntry,
    ends_bind, ends_assertThat]
  refine ⟨fun h4 => .inl ⟨rfl, fun hc => ?_⟩, fun h4 => ?_⟩
  · exact absurd hc.pml4e (by show ¬ has _ PRESENT = true; rw [h4]; decide)
  have pdpt_root := ht.pdpt h4
  have read3 : (grant m root (index v 3)).mem (m.mem root (index v 3) &&& ADDR_MASK) (index v 2) =
      m.mem (entries.pdptOf m.mem root v) (index v 2) := grant_of_ne _ fun hc => pdpt_root hc.1
  rw [ends_bind, ends_grantUser, ends_bind, ends_readEntry, ends_bind, ends_assertThat]
  refine ⟨fun h3 => .inl ⟨rfl, fun hc => ?_⟩, fun h3 => ?_⟩
  · rw [read3] at h3
    exact absurd hc.pdpte (by show ¬ (has _ PRESENT && !has _ HUGE) = true; rw [h3]; decide)
  have table3 : entries.isTable (m.mem (entries.pdptOf m.mem root v) (index v 2)) = true := by
    rw [read3] at h3
    exact h3
  have ha := ht.apart h4 table3
  rw [ends_bind, ends_grantUser, read3]
  change Ends (readEntry (entries.pdOf m.mem root v) (index v 1) >>= _) (granted root v m) _ _
  have read2 : (granted root v m).mem (entries.pdOf m.mem root v) (index v 1) =
    entries.pdeOf m.mem root v := by
    obtain ⟨_, pd, pde⟩ := granted_tables ha
    rw [← pd, ← pde]
    rfl
  rw [ends_bind, ends_readEntry, read2, ends_bind, ends_assertThat]
  refine ⟨fun h2 => .inl ⟨rfl, fun hc => ?_⟩, fun h2 => ?_⟩
  · exact absurd hc.pde (by show ¬ has _ PRESENT = true; rw [h2]; decide)
  have hm : entries.Mapped m.mem root v := ⟨h4, table3, h2⟩
  rw [ends_ite]
  refine ⟨fun hleaf => ?_, fun hleaf => ?_⟩
  · rw [ends_bind, ends_allocTable]
    refine ⟨fun hs => .inr ⟨rfl, hs⟩, fun pt rest hs => ?_⟩
    rw [ends_bind, ends_writeTable, ends_bind, ends_writeEntry, ends_pure, ends_writeEntry]
    simp only [Mem.fill_fill, Mem.fill_self]
    refine userMapped_split e ha hm hleaf hs fun hc => (ht.pd h4 table3).2.2 ?_
    rw [← hc, show m.supply = pt :: rest from hs]
    exact List.mem_cons_self
  · have hl := eq_false_of_ne_true hleaf
    rw [ends_bind, ← read2]
    change Ends (grantUser (entries.pdOf m.mem root v) (index v 1) _) (granted root v m) _ _
    rw [ends_grantUser, ends_pure, ends_writeEntry, read2]
    exact userMapped_found e ha hm hl (ht.pt hm hl)

theorem mapUserPage_spec {ty : U64 → Option (Place U64)} (h : Heap entries (userShape base) ty m)
    (hroot : ty root = some ⟨root, []⟩) (hcr3 : m.regs.cr3 &&& ADDR_MASK = root) (vaddr phys : U64)
    (prot : Prot) (domain : U64) :
    Ends (mapUserPage vaddr phys prot domain) m
      (fun _ m' => UserMapped root (pageAlign vaddr) (userLeaf phys prot domain) m m')
      (EditFails entries root (pageAlign vaddr) m) :=
  mapUserPage_tiered vaddr phys prot domain (tiered userKeeps h hroot rfl _) hcr3

end

end X86

end Praesidium
