import Praesidium.Kernel.PagingUser

/-!
How the calls change what ring 3 reaches (x86-64).

`Closed`: in the window of a process, what its tables mark for ring 3 is reached by ring 3.
Closed tables stay closed, and a call made with a process active changes the view of ring 3
on the page of its address only, to nothing or to the page that was mapped:

    mapPage, installGuardPage   (Edited.shows)
    mapUserPage                 (UserMapped.shows)

The view of every other process stays as it is (`ring3From_other`).
-/

namespace Praesidium

namespace X86

open Fallible Flags Paging Radix

variable {base : U64} {ty : U64 → Option (Place U64)} {m m' : Machine Regs} {s v e : U64}

/-! ## Other spaces -/

/-- Only tables of `s` and of the kernel change, and not the top ones of the kernel. -/
def OwnedChange (base s : U64) (ty : U64 → Option (Place U64)) (m m' : Machine Regs) : Prop :=
  ∀ t r i, ty t = some r → m'.mem t i ≠ m.mem t i →
    (r.owner = s ∨ r.owner = base) ∧ (r.owner = base → 2 ≤ r.path.length)

variable {ty' : U64 → Option (Place U64)} {m'' : Machine Regs} {x : U64}

theorem OwnedChange.mono (h : OwnedChange base s ty' m m') (hty : Extends ty ty') :
    OwnedChange base s ty m m' := fun t r i ht => h t r i (hty t r ht)

theorem OwnedChange.trans (h : OwnedChange base s ty m m') (h' : OwnedChange base s ty m' m'') :
    OwnedChange base s ty m m'' := by
  intro t r i ht hne
  by_cases hmid : m'.mem t i = m.mem t i
  · exact h' t r i ht (by rw [hmid]; exact hne)
  · exact h t r i ht hmid

/-- The kernel keeps its window. -/
theorem OwnedChange.windowed (h : OwnedChange base s ty m m')
    (h0 : Heap entries (userShape base) ty m) (hbase : ty base = some ⟨base, []⟩)
    (hw : Windowed entries base m.mem) : Windowed entries base m'.mem := by
  have top : ∀ {t : U64} {p : List Nat}, ty t = some ⟨base, p⟩ → p.length < 2 →
    m'.mem t = m.mem t := by
    intro t p ht hp
    funext i
    by_contra hne
    exact absurd ((h t _ i ht hne).2 rfl) (Nat.not_le.mpr hp)
  obtain ⟨pdptPlace, _⟩ := (hw.topped lawful).1.places lawful userKeeps h0 hbase
  have root := top hbase (by decide)
  have pdpt := top pdptPlace (by decide)
  have pdptEq : entries.windowPdpt m'.mem base = entries.windowPdpt m.mem base := by
    unfold Entries.windowPdpt; rw [root]
  refine ⟨?_, ?_⟩
  · rw [root]; exact hw.pml4e
  · rw [pdptEq, pdpt]; exact hw.pdpte

/-- **Every other process is left alone.** -/
theorem walk_other {F : Format U64} (hF : Typed F (userShape base) ty 512 m.mem)
    (hc : OwnedChange base s ty m m') (hx : ty x = some ⟨x, []⟩) (hxb : x ≠ base) (hxs : x ≠ s)
    {w : U64} (hw : window (path w) = true) :
    Radix.walk F m'.mem (index w) 3 x = Radix.walk F m.mem (index w) 3 x := by
  refine hF.walk_tree (s := x) (index_lt w) hx fun t q i ht hq => ?_
  by_contra hne
  have hwq : window q = true := window_initial ((List.prefix_append q [i]).trans hq) hw
  rw [place_window hwq] at ht
  rcases (hc t _ i ht hne).1 with howner | howner
  · exact hxs howner
  · exact hxb howner

/-- The view of ring 3 in another space is the same. -/
theorem ring3From_other (h : Heap entries (userShape base) ty m)
    (h' : Heap entries (userShape base) ty' m') (hty : Extends ty ty')
    (hc : OwnedChange base s ty m m') (hx : ty x = some ⟨x, []⟩) (hxs : x ≠ s) (w : U64) :
    ring3From m'.mem x w = ring3From m.mem x w := by
  by_cases hin : x ≠ base ∧ window (path w) = true
  · exact walk_other (userTyped h) hc hx hin.1 hxs hin.2
  · have none_of : ∀ {m : Machine Regs} {ty : U64 → Option (Place U64)},
      Heap entries (userShape base) ty m →
        ty x = some ⟨x, []⟩ → ring3From m.mem x w = none := fun h hx => by
      refine Option.eq_none_iff_forall_ne_some.mpr fun y hy => hin ?_
      obtain ⟨h1, h2, _⟩ := ring3From_window (n := y.1) (e := y.2) h hx hy
      exact ⟨h1, h2⟩
    rw [none_of h hx, none_of h' (hty _ _ hx)]

/-! ## Closed windows -/

/-- Ring 3 reaches what is marked for it. -/
def Closed (mem : Mem U64) (s : U64) : Prop :=
  ∀ w n e, window (path w) = true → seenFrom mem s w = some (n, e) → has e USER = true →
    ring3From mem s w = some (n, e)

theorem closed_other (h : Heap entries (userShape base) ty m) (hc : OwnedChange base s ty m m')
    (hx : ty x = some ⟨x, []⟩) (hxb : x ≠ base) (hxs : x ≠ s) (hcl : Closed m.mem x) :
    Closed m'.mem x := by
  intro w n e hw hseen hu
  have seen : seenFrom m'.mem x w = seenFrom m.mem x w := walk_other h.typed hc hx hxb hxs hw
  have ring : ring3From m'.mem x w = ring3From m.mem x w :=
    walk_other (userTyped h) hc hx hxb hxs hw
  rw [ring]
  rw [seen] at hseen
  exact hcl w n e hw hseen hu

/-- On the page of `v` ring 3 finds `y` now, elsewhere what it found. -/
structure Shows (s v : U64) (y : Option (Nat × U64)) (m m' : Machine Regs) : Prop where
  page : ∀ w, path w = path v → ring3From m'.mem s w = y
  off : ∀ w, path w ≠ path v → ring3From m'.mem s w = ring3From m.mem s w
  closed : Closed m'.mem s

/-- An edit that marks nothing off its page, and lets ring 3 keep what it had there. -/
structure Marks (s v : U64) (m m' : Machine Regs) : Prop where
  seen : ∀ w n e, path w ≠ path v → seenFrom m'.mem s w = some (n, e) → has e USER = true →
    seenFrom m.mem s w = some (n, e)
  ring : ∀ w y, path w ≠ path v → ring3From m.mem s w = some y → ring3From m'.mem s w = some y

theorem Marks.trans (h : Marks s v m m') (h' : Marks s v m' m'') : Marks s v m m'' where
  seen w n e hw hs hu := h.seen w n e hw (h'.seen w n e hw hs hu) hu
  ring w y hw hr := h'.ring w y hw (h.ring w y hw hr)

theorem Marks.shows (h' : Heap entries (userShape base) ty' m') (hs : ty' s = some ⟨s, []⟩)
    (hcl : Closed m.mem s) (hm : Marks s v m m') {y : Option (Nat × U64)}
    (hpage : ∀ w, path w = path v → ring3From m'.mem s w = y)
    (hclosed : ∀ w n e, path w = path v → seenFrom m'.mem s w = some (n, e) → has e USER = true →
      ring3From m'.mem s w = some (n, e)) : Shows s v y m m' where
  page := hpage
  off w hw := by
    cases hnew : ring3From m'.mem s w with
    | some z =>
      obtain ⟨n, e⟩ := z
      obtain ⟨hseen, hu⟩ := seenFrom_of_ring3 hnew
      exact (hcl w n e (ring3From_window h' hs hnew).2.1 (hm.seen w n e hw hseen hu) hu).symm
    | none =>
      cases hold : ring3From m.mem s w with
      | none => rfl
      | some z =>
        rw [hm.ring w z hw hold] at hnew
        cases hnew
  closed w n e hwin hseen hu := by
    by_cases hw : path w = path v
    · exact hclosed w n e hw hseen hu
    · exact hm.ring w _ hw (hcl w n e hwin (hm.seen w n e hw hseen hu) hu)

/-! ## Edits for the kernel -/

section

variable (h : Heap entries (userShape base) ty m) (hs : ty s = some ⟨s, []⟩)

include h hs

theorem editedOwned (he : Edited entries s v e m m') : OwnedChange base s ty m m' := by
  intro t r i ht hne
  have owner : ∀ p, ((windowOwners base).place s p).owner = s ∨
    ((windowOwners base).place s p).owner = base := by
    intro p
    by_cases hp : window p = true
    · rw [place_window hp]; exact .inl rfl
    · rw [place_shared (eq_false_of_ne_true hp)]; exact .inr rfl
  rcases he.changes lawful userKeeps h (s := s) hs ht hne with ⟨hr, _⟩ | ⟨hr, _⟩
  · rw [hr]
    exact ⟨owner _, fun _ => Nat.le_refl 2⟩
  · rw [hr]
    exact ⟨owner _, fun _ => Nat.le_succ 2⟩

/-- A 2 MiB leaf is not for ring 3. -/
theorem block_not_user (hm : entries.Mapped m.mem s v)
    (hl : entries.isLeaf 1 (entries.pdeOf m.mem s v) = true) :
    has (entries.pdeOf m.mem s v) USER = false := by
  refine eq_false_of_ne_true fun hu => ?_
  have pd := (hm.places lawful userKeeps h (s := s) hs).2
  have long := ((h.typed _ _ pd _ (index_lt v 1)).leaf hm.pde (.inr hl) hu).1
  exact absurd long (by simp [Owners.place])

theorem editedMarks (he : Edited entries s v e m m') : Marks s v m m' := by
  have off : ∀ {F : Format U64} {w : U64}, Typed F (userShape base) ty 512 m.mem → path w ≠ path v →
      ¬ (region w = region v ∧ entries.isLeaf 1 (entries.pdeOf m.mem s v) = true) →
      Radix.walk F m'.mem (index w) 3 s = Radix.walk F m.mem (index w) 3 s := by
    intro F w hF hw hsplit
    refine he.walk_off lawful userKeeps h (s := s) hs ?_ hF
    by_cases hregion : region w = region v
    · exact .inr ⟨hw, eq_false_of_ne_true fun hl => hsplit ⟨hregion, hl⟩⟩
    · exact .inl hregion
  constructor
  · intro w n e' hw hseen hu
    by_cases hsplit : region w = region v ∧ entries.isLeaf 1 (entries.pdeOf m.mem s v) = true
    · -- the pages of a split leaf are no more for ring 3 than the leaf
      have split := he.walk_split lawful userKeeps h (s := s) hs hsplit.1 hw hsplit.2
      have plain : has (entries.split (entries.pdeOf m.mem s v) (index w 0)) USER = false := by
        rw [has_split_user _ (index_lt w 0)]
        exact block_not_user h hs he.1 hsplit.2
      rw [seenFrom, split] at hseen
      cases Entries.pageAt_some hseen
      rw [plain] at hu
      cases hu
    · rw [seenFrom, off h.typed hw hsplit] at hseen
      exact hseen
  · intro w y hw hring
    by_cases hsplit : region w = region v ∧ entries.isLeaf 1 (entries.pdeOf m.mem s v) = true
    · obtain ⟨mapped, _, _, pdeEq⟩ := he.1.of_region hsplit.1
      have block := mapped.walk_block lawful rfl (by rw [pdeEq]; exact hsplit.2)
      obtain ⟨n, e'⟩ := y
      obtain ⟨hseen, _⟩ := seenFrom_of_ring3 hring
      have page := (ring3From_window h hs hring).2.2
      rw [seenFrom, block] at hseen
      cases hseen
      cases page
    · rw [ring3From, off (userTyped h) hw hsplit]
      exact hring

/-- **An edit for the kernel hides its page from ring 3.** -/
theorem editedShows {ty' : U64 → Option (Place U64)} (h' : Heap entries (userShape base) ty' m')
    (hty : Extends ty ty') (hcl : Closed m.mem s) (hu : has e USER = false)
    (he : Edited entries s v e m m') : Shows s v none m m' := by
  have page : ∀ w n e', path w = path v → seenFrom m'.mem s w = some (n, e') →
    has e' USER = false := by
    intro w n e' hw hseen
    rw [seenFrom, he.walk_page lawful userKeeps h (s := s) hs hw] at hseen
    cases Entries.pageAt_some hseen
    exact hu
  refine (editedMarks h hs he).shows h' (hty _ _ hs) hcl (fun w hw => ?_) fun w n e' hw hseen hu' =>
    ?_
  · refine Option.eq_none_iff_forall_ne_some.mpr fun y hy => ?_
    obtain ⟨hseen, hu'⟩ := seenFrom_of_ring3 (n := y.1) (e := y.2) hy
    rw [page w y.1 y.2 hw hseen] at hu'
    cases hu'
  · rw [page w n e' hw hseen] at hu'
    cases hu'

end

/-! ## Edits for ring 3 -/

section

/-- A walk of ring 3 through a region, down to its table of pages. -/
theorem ring3From_table {mem : Mem U64} (hm : entries.Mapped mem s v)
    (h1 : entries.isLeaf 1 (entries.pdeOf mem s v) = false)
    (u4 : has (mem s (index v 3)) USER = true)
    (u3 : has (mem (entries.pdptOf mem s v) (index v 2)) USER = true)
    (u2 : has (entries.pdeOf mem s v) USER = true) (hp : has e PRESENT = true)
    (hu : has e USER = true) (hpage : mem (entries.pdeOf mem s v &&& ADDR_MASK) (index v 0) = e) :
    ring3From mem s v = some (0, e) := by
  have both : ∀ {e : U64}, has e PRESENT = true → has e USER = true → userFormat.present e = true :=
    fun hp hu => Bool.and_eq_true_iff.mpr ⟨hp, hu⟩
  have table := hm.pdpte
  rw [lawful.isTable_eq 2 _ (.inr rfl), Bool.and_eq_true, Bool.not_eq_true'] at table
  unfold ring3From
  rw [walk_link (F := userFormat) (both hm.pml4e u4) rfl]
  show Radix.walk userFormat mem (index v) 2 (entries.pdptOf mem s v) = _
  rw [walk_link (F := userFormat) (both table.1 u3) table.2]
  show Radix.walk userFormat mem (index v) 1 (entries.pdOf mem s v) = _
  rw [walk_link (F := userFormat) (both hm.pde u2) h1]
  show Radix.walk userFormat mem (index v) 0 (entries.pdeOf mem s v &&& ADDR_MASK) = _
  rw [walk_page (F := userFormat) (by rw [hpage]; exact both hp hu), hpage]

/-- A grant to `s` on the way to its window. -/
theorem grant_step {t : U64} {i : Nat} {r : Place U64} (h : Heap entries (userShape base) ty m)
    (hs : ty s = some ⟨s, []⟩) (hg : Grantable base ty m t i r) (howner : r.owner = s) :
    Heap entries (userShape base) ty (grant m t i) ∧ Marks s v m (grant m t i) ∧
      OwnedChange base s ty m (grant m t i) := by
  refine ⟨grant_heap h hg, ⟨fun w n e _ hseen _ => ?_, fun w y _ hy => grant_ring3 h hg hs rfl hy⟩,
    fun t' r' i' ht' hne => ?_⟩
  · rw [grant_seen h hg hs rfl] at hseen
    exact hseen
  · have here : t' = t ∧ i' = i := by
      by_contra hc
      exact hne (grant_of_ne m hc)
    rw [here.1, hg.place] at ht'
    cases ht'
    exact ⟨.inl howner, fun hc => absurd hc hg.owner⟩

theorem grantable_pd {g m1 : Machine Regs} (h : Heap entries (userShape base) ty g)
    (hs : ty s = some ⟨s, []⟩) (hsb : s ≠ base) (hv : window (path v) = true)
    (he : Edited entries s v e g m1) (hty : Extends ty ty') :
    Grantable base ty' m1 (entries.pdOf g.mem s v) (index v 1) ⟨s, [index v 3, index v 2]⟩ := by
  have hwin : window [index v 3, index v 2] = true :=
    window_initial (p := path v) ⟨[index v 1, index v 0], rfl⟩ hv
  have place := (he.1.places lawful userKeeps h (s := s) hs).2
  rw [place_window hwin] at place
  obtain ⟨present, table, _⟩ := he.pde lawful userKeeps h (s := s) hs
  have pd := (he.pdOf_eq lawful userKeeps h (s := s) hs).2.2.2
  unfold Entries.pdeOf at present table
  rw [pd] at present table
  refine ⟨hty _ _ place, index_lt v 1, present, fun hl =>
    ?_, hsb, window_initial (p := path v) ⟨[index v 0], rfl⟩ hv⟩
  rcases hl with hl | hl
  · cases hl
  · exact absurd hl (by show ¬ entries.isLeaf 1 _ = true; rw [table]; decide)

/-- A grant of the region changes its entry only. -/
theorem grant_region (ha : Apart s v m) : let g := grant m (entries.pdOf m.mem s v) (index v 1)
    g.mem s (index v 3) = m.mem s (index v 3) ∧
    entries.pdptOf g.mem s v = entries.pdptOf m.mem s v ∧
      g.mem (entries.pdptOf m.mem s v) (index v 2) = m.mem (entries.pdptOf m.mem s v) (index v 2) ∧
      entries.pdeOf g.mem s v = entries.pdeOf m.mem s v ||| USER := by
  have root4 : (grant m (entries.pdOf m.mem s v) (index v 1)).mem s (index v 3) =
    m.mem s (index v 3) := grant_of_ne _ fun hc => ha.pd.1 hc.1.symm
  have pdpt3 : (grant m (entries.pdOf m.mem s v) (index v 1)).mem (entries.pdptOf m.mem s v)
    (index v 2) =
      m.mem (entries.pdptOf m.mem s v) (index v 2) := grant_of_ne _ fun hc => ha.pd.2 hc.1.symm
  have pdpt : entries.pdptOf (grant m (entries.pdOf m.mem s v) (index v 1)).mem s v =
    entries.pdptOf m.mem s v := by
    show (grant m _ _).mem s (index v 3) &&& _ = _
    rw [root4]
    rfl
  have pd : entries.pdOf (grant m (entries.pdOf m.mem s v) (index v 1)).mem s v =
    entries.pdOf m.mem s v := by
    show (grant m _ _).mem (entries.pdptOf _ s v) (index v 2) &&& _ = _
    rw [pdpt, pdpt3]
    rfl
  refine ⟨root4, pdpt, pdpt3, ?_⟩
  show (grant m _ _).mem (entries.pdOf _ s v) (index v 1) = _
  rw [pd, grant_self]
  rfl

theorem grantable_root (base : U64) (hs : ty s = some ⟨s, []⟩) (hsb : s ≠ base)
    (hv : window (path v) = true) (hm : entries.Mapped m.mem s v) :
    Grantable base ty m s (index v 3) ⟨s, []⟩ where
  place := hs
  below := index_lt v 3
  present := hm.pml4e
  link := root_link _
  owner := hsb
  window := window_initial (p := path v) ⟨[index v 2, index v 1, index v 0], rfl⟩ hv

variable (h : Heap entries (userShape base) ty m) (hs : ty s = some ⟨s, []⟩) (hsb : s ≠ base)
  (hv : window (path v) = true)

include h hs hsb hv

theorem grantable_pdpt (hm : entries.Mapped m.mem s v) :
    Grantable base ty (grant m s (index v 3)) (entries.pdptOf m.mem s v) (index v 2)
      ⟨s, [index v 3]⟩ := by
  have hwin : window [index v 3] = true :=
    window_initial (p := path v) ⟨[index v 2, index v 1, index v 0], rfl⟩ hv
  have place := (hm.places lawful userKeeps h (s := s) hs).1
  rw [place_window hwin] at place
  have entry : (grant m s (index v 3)).mem (entries.pdptOf m.mem s v) (index v 2) =
      m.mem (entries.pdptOf m.mem s v) (index v 2) :=
        grant_of_ne _ fun hc => pdpt_apart h hs hm.pml4e hc.1
  have table := hm.pdpte
  rw [lawful.isTable_eq 2 _ (.inr rfl), Bool.and_eq_true] at table
  refine ⟨place, index_lt v 2, by rw [entry]; exact table.1, ?_, hsb,
    window_initial (p := path v) ⟨[index v 1, index v 0], rfl⟩ hv⟩
  rw [entry]
  exact pdpt_link hm

/-- The tables before and after the edit in the middle of `mapUserPage`. -/
theorem UserMapped.edit (hu : UserMapped s v e m m') :
    ∃ m1 ty', Heap entries (userShape base) ty (granted s v m) ∧
      Edited entries s v e (granted s v m) m1 ∧
      Grows entries (userShape base) ty (granted s v m) ty' m1 ∧
      Grantable base ty' m1 (entries.pdOf m.mem s v) (index v 1) ⟨s, [index v 3, index v 2]⟩ ∧
      m' = grant m1 (entries.pdOf m.mem s v) (index v 1) := by
  obtain ⟨hm, m1, he, hm'⟩ := hu
  have h1 := grant_heap h (grantable_root base hs hsb hv hm)
  have h2 : Heap entries (userShape base) ty (granted s v m) :=
    grant_heap h1 (grantable_pdpt h hs hsb hv hm)
  obtain ⟨ty', grown⟩ := he.typed lawful userKeeps h2 (s := s) hs fun _ _ => by
    rw [place_window (window_initial (p := path v) ⟨[index v 0], rfl⟩ hv)]
    exact ⟨rfl, fun _ => hsb⟩
  have g3 := grantable_pd h2 hs hsb hv he (grown.keeps h2)
  rw [(granted_tables (apart h hs hm.pml4e hm.pdpte)).2.1] at g3
  exact ⟨m1, ty', h2, he, grown, g3, hm'⟩

/-- Typing, marks and owners over the grants and the edit of `mapUserPage`. -/
theorem UserMapped.steps (hu : UserMapped s v e m m') :
    ∃ ty', Grows entries (userShape base) ty m ty' m' ∧ Marks s v m m' ∧
      OwnedChange base s ty m m' := by
  obtain ⟨h1, k1, o1⟩ := grant_step (v := v) h hs (grantable_root base hs hsb hv hu.1) rfl
  obtain ⟨h2, k2, o2⟩ := grant_step (v := v) h1 hs (grantable_pdpt h hs hsb hv hu.1) rfl
  obtain ⟨m1, ty', _, he, grown, g3, rfl⟩ := hu.edit h hs hsb hv
  have hty := grown.keeps h2
  obtain ⟨h3, k3, o3⟩ := grant_step (v := v) grown.heap (hty _ _ hs) g3 rfl
  refine ⟨ty', ⟨h3, grown.same, grown.spends, grown.regs⟩, ?_, ?_⟩
  · exact ((k1.trans k2).trans (editedMarks h2 hs he)).trans k3
  · exact ((o1.trans o2).trans (editedOwned h2 hs he)).trans (o3.mono hty)

/-- On its page ring 3 finds what was mapped. -/
theorem UserMapped.ring3_page (hp : has e PRESENT = true) (huser : has e USER = true)
    (hu : UserMapped s v e m m') :
    ring3From m'.mem s v = some (0, e) := by
  have ha := apart h hs hu.1.pml4e hu.1.pdpte
  obtain ⟨m1, ty', h2, he, grown, g3, rfl⟩ := hu.edit h hs hsb hv
  have hs' := grown.keeps h2 _ _ hs
  have mapped := he.mapped lawful userKeeps h2 (s := s) hs
  obtain ⟨rootSame, pdptSame, pdptEq, pdEq⟩ := he.pdOf_eq lawful userKeeps h2 (s := s) hs
  obtain ⟨present, table, page, _⟩ := he.pde lawful userKeeps h2 (s := s) hs
  obtain ⟨root4, pdpt3⟩ := granted_entries ha.pdpt
  rw [(granted_tables ha).1] at pdptEq pdptSame
  rw [(granted_tables ha).2.1] at pdEq
  rw [← pdEq] at g3 ⊢
  have ha1 := apart grown.heap hs' mapped.pml4e mapped.pdpte
  obtain ⟨root4', pdptOf', pdpt3', pde'⟩ := grant_region ha1
  have user : ∀ x : U64, has (x ||| USER) USER = true := fun x => has_or_right x (by decide)
  refine ring3From_table ⟨?_, ?_, ?_⟩ ?_ ?_ ?_ ?_ hp huser ?_
  · rw [root4']; exact mapped.pml4e
  · rw [pdptOf', pdpt3']; exact mapped.pdpte
  · rw [pde']; exact (has_or_user _ (by decide)).trans present
  · rw [pde', isLeaf_or_user]; exact table
  · rw [root4', rootSame, root4]; exact user _
  · rw [pdptOf', pdpt3', pdptEq, pdptSame, pdpt3]; exact user _
  · rw [pde']; exact user _
  · rw [pde', next_or_user]
    have link := ((grown.heap.typed _ _ g3.place _ (index_lt v 1)) g3.present).2 g3.link
    have away : entries.pdeOf m1.mem s v &&& ADDR_MASK ≠ entries.pdOf m1.mem s v :=
      ne_of_paths link.2 g3.place (by simp [Owners.shape])
    rw [grant_of_ne _ fun hc => away hc.1]
    exact page

/-- **A page mapped for ring 3 is what ring 3 finds.** -/
theorem UserMapped.shows (hp : has e PRESENT = true) (huser : has e USER = true)
    (hcl : Closed m.mem s) (hu : UserMapped s v e m m') (h' : Heap entries (userShape base) ty' m')
    (hs' : ty' s = some ⟨s, []⟩) (marks : Marks s v m m') : Shows s v (some (0, e)) m m' := by
  have page : ∀ w, path w = path v → ring3From m'.mem s w = some (0, e) := fun w hw =>
    (walk_steps userFormat m'.mem hw s).trans (hu.ring3_page h hs hsb hv hp huser)
  refine marks.shows h' hs' hcl page fun w n e' hw hseen _ => ?_
  rw [← hseen, page w hw]
  exact (seenFrom_of_ring3 (page w hw)).1.symm

end

end X86

end Praesidium
