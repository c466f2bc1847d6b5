import Mathlib.Algebra.Group.Nat.Defs
import Mathlib.Data.Nat.Bitwise
import Praesidium.Lib.Ranges

/-!
Naturally aligned blocks of `2 ^ order` cells, and sets of cells tiled by them.

Two aligned blocks are apart or nested (`apart_or_within`).  The buddy of a block, found by
flipping a bit of its base, is the other half of the block around both (`buddy_low`,
`buddy_high`).  `Tiles top A l`: the blocks of `l` are aligned, of order at most `top`, pairwise
apart, and cover exactly the cells of `A`.  Tilings may be split, merged and extended.

A tiling is `Settled` when no two halves of one block are both in it.  Such a tiling has room
wherever there is room at all:

    Tiles top A l → Settled top l → R.Aligned → R.order ≤ top → (∀ f ∈ R, A f) →
      ∃ b ∈ l, R.Within b                                            (Settled.room)

so it is the only one: its blocks are the widest ones (`Settled.mem_iff`).

`Carved top base stop l` is the greedy tiling of a run of cells, which is settled
(`Carved.settled`).
-/

/-- The cells `base, …, base + 2 ^ order - 1`. -/
structure PowBlock where
  base : Nat
  order : Nat
  deriving DecidableEq, Repr

namespace PowBlock

/-! ## Blocks -/

def size (b : PowBlock) : Nat := 2 ^ b.order

def stop (b : PowBlock) : Nat := b.base + b.size

instance : Membership Nat PowBlock := ⟨fun b f => b.base ≤ f ∧ f < b.stop⟩

def Aligned (b : PowBlock) : Prop := b.size ∣ b.base

/-- No cell in common. -/
def Apart (b c : PowBlock) : Prop := b.stop ≤ c.base ∨ c.stop ≤ b.base

def Within (b c : PowBlock) : Prop := c.base ≤ b.base ∧ b.stop ≤ c.stop

/-- The lower half of the block of the next order around it. -/
def Low (b : PowBlock) : Prop := 2 * b.size ∣ b.base

/-- The block right after `b`, of the same order. -/
def upper (b : PowBlock) : PowBlock := ⟨b.stop, b.order⟩

/-- The block that starts with `b` and is twice as large. -/
def double (b : PowBlock) : PowBlock := ⟨b.base, b.order + 1⟩

def buddy (b : PowBlock) : PowBlock := ⟨b.base ^^^ b.size, b.order⟩

variable {b c d : PowBlock} {f : Nat}

theorem mem_def : f ∈ b ↔ b.base ≤ f ∧ f < b.stop := Iff.rfl

theorem size_pos (b : PowBlock) : 0 < b.size := Nat.two_pow_pos b.order

theorem base_mem (b : PowBlock) : b.base ∈ b := ⟨Nat.le_refl _, Nat.lt_add_of_pos_right b.size_pos⟩

theorem size_double (b : PowBlock) : b.double.size = 2 * b.size := by
  show 2 ^ (b.order + 1) = 2 * 2 ^ b.order
  rw [Nat.pow_succ, Nat.mul_comm]

theorem Apart.symm (h : Apart b c) : Apart c b := Or.symm h

instance : Std.Symm Apart := ⟨fun _ _ h => h.symm⟩

theorem Apart.not_mem (h : Apart b c) (hb : f ∈ b) : f ∉ c := by
  intro hc
  have := mem_def.mp hb
  have := mem_def.mp hc
  unfold Apart at h
  omega

theorem apart_of_disjoint (h : ∀ f ∈ b, f ∉ c) : Apart b c := by
  have hb := b.size_pos
  have hc := c.size_pos
  have h1 : b.base ∉ c := h b.base b.base_mem
  have h2 : c.base ∉ b := fun hm => h c.base hm c.base_mem
  simp only [mem_def, stop] at h1 h2
  unfold Apart stop
  omega

theorem Within.mem (h : Within b c) (hf : f ∈ b) : f ∈ c :=
  ⟨Nat.le_trans h.1 hf.1, Nat.lt_of_lt_of_le hf.2 h.2⟩

theorem Within.trans (h : Within b c) (h' : Within c d) : Within b d :=
  ⟨Nat.le_trans h'.1 h.1, Nat.le_trans h.2 h'.2⟩

/-- **Two aligned blocks are apart or nested.** -/
theorem apart_or_within (hb : b.Aligned) (hc : c.Aligned) (ho : b.order ≤ c.order) :
    Apart b c ∨ Within b c := by
  obtain ⟨k, hk⟩ := Nat.pow_dvd_pow 2 ho
  obtain ⟨n, hn⟩ := hb
  obtain ⟨m, hm⟩ := hc
  -- everything is a multiple of the smaller size
  have hsize : c.size = b.size * k := hk
  have hcb : c.base = b.size * (k * m) := by rw [hm, hsize, Nat.mul_assoc]
  have hstop : b.stop = b.size * (n + 1) := by unfold stop; rw [hn, Nat.mul_succ]
  have hcstop : c.stop = b.size * (k * m + k) := by unfold stop; rw [hcb, hsize, Nat.mul_add]
  unfold Apart Within
  rw [hstop, hcb, hcstop, hn]
  rcases Nat.lt_or_ge n (k * m) with h | h
  · exact .inl (.inl (Nat.mul_le_mul_left _ h))
  · rcases Nat.lt_or_ge n (k * m + k) with h' | h'
    · exact .inr ⟨Nat.mul_le_mul_left _ h, Nat.mul_le_mul_left _ h'⟩
    · exact .inl (.inr (Nat.mul_le_mul_left _ h'))

theorem within_of_mem (hb : b.Aligned) (hc : c.Aligned) (ho : b.order ≤ c.order) (hf : f ∈ b)
    (hf' : f ∈ c) : Within b c :=
  (apart_or_within hb hc ho).resolve_left fun h => h.not_mem hf hf'

theorem eq_of_within (h : Within b c) (ho : b.order = c.order) : b = c := by
  have hs : b.size = c.size := by unfold size; rw [ho]
  obtain ⟨h1, h2⟩ := h
  unfold stop at h2
  have hbase : b.base = c.base := by omega
  cases b
  cases c
  cases hbase
  cases ho
  rfl

theorem Within.order_le (h : Within b c) : b.order ≤ c.order := by
  obtain ⟨h1, h2⟩ := h
  unfold stop at h2
  exact (Nat.pow_le_pow_iff_right (by decide)).mp (show b.size ≤ c.size by omega)

/-! ## Halves -/

theorem mem_double : f ∈ b.double ↔ f ∈ b ∨ f ∈ b.upper := by
  have hs := size_double b
  have hu : b.upper.size = b.size := rfl
  simp only [mem_def, stop, hs, hu]
  show b.base ≤ f ∧ f < b.base + 2 * b.size ↔ _ ∨ b.base + b.size ≤ f ∧ f < b.base + b.size + b.size
  omega

theorem upper_inj (h : b.upper = c.upper) : b = c := by
  have ho : b.upper.order = c.upper.order := congrArg order h
  have hs : b.size = c.size := congrArg (2 ^ ·) ho
  have hstop : b.base + b.size = c.base + c.size := congrArg base h
  exact eq_of_within ⟨by omega, by unfold stop; omega⟩ ho

theorem apart_upper (b : PowBlock) : Apart b b.upper := .inl (Nat.le_refl _)

theorem Aligned.of_double (h : b.double.Aligned) : b.Low := by
  unfold Aligned at h
  rwa [size_double] at h

theorem Low.double (h : b.Low) : b.double.Aligned := by
  unfold Aligned
  rwa [size_double]

theorem Low.aligned (h : b.Low) : b.Aligned := Nat.dvd_trans (Nat.dvd_mul_left _ _) h

theorem Low.upper_aligned (h : b.Low) : b.upper.Aligned := Nat.dvd_add h.aligned (Nat.dvd_refl _)

theorem Low.upper_not_low (h : b.Low) : ¬ b.upper.Low := by
  intro hu
  have hs : 2 * b.size ∣ b.size := (Nat.dvd_add_right h).mp hu
  have := Nat.le_of_dvd b.size_pos hs
  have := b.size_pos
  omega

theorem xor_one (k : Nat) : k ^^^ 1 = if k % 2 = 0 then k + 1 else k - 1 := by
  have hdiv : (k ^^^ 1) / 2 = k / 2 := by rw [Nat.xor_div_two]; simp
  have hmod : (k ^^^ 1) % 2 = (k + 1) % 2 := Nat.xor_mod_two_eq
  split <;> omega

theorem buddy_mul (k o : Nat) : (k * 2 ^ o) ^^^ 2 ^ o = (k ^^^ 1) * 2 ^ o := by
  have h := Nat.shiftLeft_xor_distrib (i := o) (a := k) (b := 1)
  rw [Nat.shiftLeft_eq, Nat.shiftLeft_eq, Nat.shiftLeft_eq, Nat.one_mul] at h
  exact h.symm

/-- **The buddy of a lower half is the upper one.** -/
theorem buddy_low (h : b.Low) : b.buddy = b.upper := by
  obtain ⟨k, hk⟩ := h
  have hb : b.base = (2 * k) * 2 ^ b.order := by
    rw [hk]
    show 2 * 2 ^ b.order * k = _
    rw [Nat.mul_assoc, Nat.mul_assoc, Nat.mul_comm k]
  have hx : b.base ^^^ b.size = b.base + b.size := by
    rw [hb]
    show (2 * k * 2 ^ b.order) ^^^ 2 ^ b.order = 2 * k * 2 ^ b.order + 2 ^ b.order
    rw [buddy_mul, xor_one, if_pos (Nat.mul_mod_right 2 k), Nat.succ_mul]
  unfold buddy upper stop
  rw [hx]

/-- **The buddy of an upper half is the lower one.** -/
theorem buddy_high (h : b.Aligned) (hl : ¬ b.Low) : b.buddy.Low ∧ b = b.buddy.upper := by
  obtain ⟨k, hk⟩ := h
  have hodd : k % 2 = 1 := by
    rcases Nat.mod_two_eq_zero_or_one k with h0 | h1
    · obtain ⟨m, rfl⟩ := Nat.dvd_of_mod_eq_zero h0
      exact absurd ⟨m, by rw [hk, Nat.mul_comm 2 b.size, Nat.mul_assoc]⟩ hl
    · exact h1
  have hx : b.base ^^^ b.size = (k - 1) * b.size := by
    rw [hk, Nat.mul_comm]
    show (k * 2 ^ b.order) ^^^ 2 ^ b.order = (k - 1) * 2 ^ b.order
    rw [buddy_mul, xor_one, if_neg (by omega)]
  obtain ⟨m, rfl⟩ : ∃ m, k = 2 * m + 1 := ⟨k / 2, by omega⟩
  have hbuddy : b.buddy = ⟨2 * m * b.size, b.order⟩ := by
    unfold buddy
    rw [hx, Nat.add_sub_cancel]
  rw [hbuddy]
  constructor
  · exact ⟨m, by show 2 * m * b.size = 2 * 2 ^ b.order * m; unfold size; rw [Nat.mul_assoc,
    Nat.mul_assoc, Nat.mul_comm m]⟩
  · have hbase : b.base = 2 * m * b.size + b.size := by rw [hk, Nat.mul_comm, Nat.succ_mul]
    show b = ⟨2 * m * b.size + b.size, b.order⟩
    rw [← hbase]

/-! ## Tilings -/

/-- The cells in all. -/
def total (l : List PowBlock) : Nat := (l.map size).sum

structure Tiles (top : Nat) (A : Nat → Prop) (l : List PowBlock) : Prop where
  aligned : ∀ b ∈ l, b.Aligned
  small : ∀ b ∈ l, b.order ≤ top
  apart : l.Pairwise Apart
  cover : ∀ f, A f ↔ ∃ b ∈ l, f ∈ b

variable {top : Nat} {A B : Nat → Prop} {l l' : List PowBlock}

theorem total_cons (b : PowBlock) (l : List PowBlock) : total (b :: l) = b.size + total l := by
  unfold total
  rw [List.map_cons, List.sum_cons]

theorem total_append (l l' : List PowBlock) : total (l ++ l') = total l + total l' := by
  unfold total
  rw [List.map_append, List.sum_append_nat]

theorem total_perm (h : l.Perm l') : total l = total l' := (h.map size).sum_nat

theorem tiles_nil : Tiles top (fun _ => False) [] :=
  ⟨fun _ hb => (nomatch hb), fun _ hb => (nomatch hb), .nil, fun _ =>
  ⟨False.elim, fun ⟨_, hb, _⟩ => (nomatch hb)⟩⟩

/-- The part of a tiling is a tiling of its own cells. -/
theorem Tiles.left (h : Tiles top A (l ++ l')) : Tiles top (fun f => ∃ b ∈ l, f ∈ b) l :=
  ⟨fun b hb => h.aligned b (List.mem_append_left _ hb), fun b hb =>
  h.small b (List.mem_append_left _ hb), (List.pairwise_append.mp h.apart).1, fun _ => Iff.rfl⟩

theorem Tiles.split (h : Tiles top A (b.double :: l)) : Tiles top A (b.upper :: b :: l) := by
  have hlow : b.Low := (h.aligned _ List.mem_cons_self).of_double
  have hsmall : b.order + 1 ≤ top := h.small _ List.mem_cons_self
  obtain ⟨hhead, htail⟩ := List.pairwise_cons.mp h.apart
  refine ⟨?_, ?_, ?_, fun f => ?_⟩
  · simp only [List.forall_mem_cons]
    exact ⟨hlow.upper_aligned, hlow.aligned, fun c hc => h.aligned c (List.mem_cons_of_mem _ hc)⟩
  · simp only [List.forall_mem_cons]
    exact ⟨Nat.le_of_succ_le hsmall, Nat.le_of_succ_le hsmall, fun c hc =>
      h.small c (List.mem_cons_of_mem _ hc)⟩
  · refine List.pairwise_cons.mpr ⟨?_, List.pairwise_cons.mpr ⟨fun c hc => ?_, htail⟩⟩
    · simp only [List.forall_mem_cons]
      exact ⟨b.apart_upper.symm, fun c hc => apart_of_disjoint fun f hf =>
        (hhead c hc).not_mem (mem_double.mpr (.inr hf))⟩
    · exact apart_of_disjoint fun f hf => (hhead c hc).not_mem (mem_double.mpr (.inl hf))
  · rw [h.cover f]
    simp only [List.exists_mem_cons_iff, mem_double]
    tauto

theorem Tiles.merge (h : Tiles top A (b.upper :: b :: l)) (hlow : b.Low) (ho : b.order < top) :
    Tiles top A (b.double :: l) := by
  obtain ⟨hup, hrest⟩ := List.pairwise_cons.mp h.apart
  obtain ⟨hb, htail⟩ := List.pairwise_cons.mp hrest
  refine ⟨?_, ?_, List.pairwise_cons.mpr ⟨fun c hc => ?_, htail⟩, fun f => ?_⟩
  · simp only [List.forall_mem_cons]
    exact ⟨hlow.double, fun c hc =>
      h.aligned c (List.mem_cons_of_mem _ (List.mem_cons_of_mem _ hc))⟩
  · simp only [List.forall_mem_cons]
    exact ⟨ho, fun c hc => h.small c (List.mem_cons_of_mem _ (List.mem_cons_of_mem _ hc))⟩
  · refine apart_of_disjoint fun f hf => ?_
    rcases mem_double.mp hf with hf | hf
    · exact (hb c hc).not_mem hf
    · exact (hup c (List.mem_cons_of_mem _ hc)).not_mem hf
  · rw [h.cover f]
    simp only [List.exists_mem_cons_iff, mem_double]
    tauto

theorem total_eq_extent (l : List PowBlock) :
    total l = Ranges.extent (l.map fun b => (b.base, b.stop)) := by
  induction l with
  | nil => rfl
  | cons b l ih =>
    have hsize : b.stop - b.base = b.size := Nat.add_sub_cancel_left _ _
    rw [total_cons, ih, List.map_cons, Ranges.extent_cons, hsize]

section

variable (h : Tiles top A l)

include h

theorem Tiles.congr (hAB : ∀ f, A f ↔ B f) : Tiles top B l :=
  ⟨h.aligned, h.small, h.apart, fun f => (hAB f).symm.trans (h.cover f)⟩

theorem Tiles.perm (hp : l.Perm l') : Tiles top A l' :=
  ⟨fun b hb => h.aligned b (hp.mem_iff.mpr hb), fun b hb => h.small b (hp.mem_iff.mpr hb),
    h.apart.perm hp Apart.symm, fun f => by
      rw [h.cover f]
      constructor
      · rintro ⟨b, hb, hf⟩
        exact ⟨b, hp.mem_iff.mp hb, hf⟩
      · rintro ⟨b, hb, hf⟩
        exact ⟨b, hp.mem_iff.mpr hb, hf⟩⟩

/-- A cell is in one block. -/
theorem Tiles.eq_of_mem (hb : b ∈ l) (hc : c ∈ l) (hfb : f ∈ b) (hfc : f ∈ c) :
    b = c := by
  by_contra hne
  exact (h.apart.forall hb hc hne).not_mem hfb hfc

/-- **Two tilings side by side.** -/
theorem Tiles.append (h' : Tiles top B l') (hAB : ∀ f, A f → ¬ B f) :
    Tiles top (fun f => A f ∨ B f) (l ++ l') := by
  refine ⟨fun b hb => ?_, fun b hb =>
    ?_, List.pairwise_append.mpr ⟨h.apart, h'.apart, fun b hb c hc => ?_⟩, fun f => ?_⟩
  · rcases List.mem_append.mp hb with hb | hb
    · exact h.aligned b hb
    · exact h'.aligned b hb
  · rcases List.mem_append.mp hb with hb | hb
    · exact h.small b hb
    · exact h'.small b hb
  · exact apart_of_disjoint fun f hfb hfc =>
      hAB f ((h.cover f).mpr ⟨b, hb, hfb⟩) ((h'.cover f).mpr ⟨c, hc, hfc⟩)
  · rw [h.cover f, h'.cover f]
    simp only [List.mem_append, or_and_right, exists_or]

/-- **The blocks of a tiling have the cells of the set.** -/
theorem Tiles.total_eq_card (s : Finset Nat) (hs : ∀ f, f ∈ s ↔ A f) :
    total l = s.card := by
  rw [total_eq_extent]
  refine Ranges.sum_eq_card (List.pairwise_map.mpr h.apart) s fun f => ?_
  rw [hs f, h.cover f]
  constructor
  · rintro ⟨b, hb, hf⟩
    exact ⟨_, List.mem_map.mpr ⟨b, hb, rfl⟩, hf⟩
  · rintro ⟨r, hr, hf⟩
    obtain ⟨b, hb, rfl⟩ := List.mem_map.mp hr
    exact ⟨b, hb, hf⟩

theorem Tiles.total_le (n : Nat) (hA : ∀ f, A f → f < n) : total l ≤ n := by
  classical
  have hcard := h.total_eq_card ((Finset.range n).filter A) fun f => by
    rw [Finset.mem_filter, Finset.mem_range]
    exact ⟨And.right, fun hf => ⟨hA f hf, hf⟩⟩
  have hle := Finset.card_filter_le (Finset.range n) A
  rw [Finset.card_range] at hle
  omega

end

variable {n base : Nat}

theorem Tiles.stop_le (h : Tiles top A l) (hA : ∀ f, A f → f < n) (hb : b ∈ l) : b.stop ≤ n := by
  have hpos := b.size_pos
  have hlast : b.stop - 1 ∈ b := mem_def.mpr ⟨by unfold stop; omega, by unfold stop; omega⟩
  have := hA _ ((h.cover _).mpr ⟨b, hb, hlast⟩)
  omega

/-! ## Settled tilings -/

/-- No two halves of one block of order at most `top`. -/
def Settled (top : Nat) (l : List PowBlock) : Prop :=
  ∀ b ∈ l, b.Low → b.order < top → b.upper ∉ l

/-- An aligned block of cells of `A` that is in no larger one. -/
structure Widest (top : Nat) (A : Nat → Prop) (b : PowBlock) : Prop where
  aligned : b.Aligned
  small : b.order ≤ top
  inside : ∀ f ∈ b, A f
  maximal : ∀ c : PowBlock, c.Aligned → c.order ≤ top → (∀ f ∈ c, A f) → b.Within c → c = b

section

variable (h : Settled top l)

include h

theorem Settled.subset (hs : ∀ b ∈ l', b ∈ l) : Settled top l' :=
  fun b hb hlow ho hu => h b (hs b hb) hlow ho (hs _ hu)

/-- A block whose buddy is not there may come. -/
theorem Settled.cons (hb : b.Aligned) (hbuddy : b.order < top → b.buddy ∉ l) :
    Settled top (b :: l) := by
  intro c hc hlow ho hu
  rcases List.mem_cons.mp hc with rfl | hc
  · rcases List.mem_cons.mp hu with hu | hu
    · exact hlow.upper_not_low (hu.symm ▸ hlow)
    · exact hbuddy ho (buddy_low hlow ▸ hu)
  · rcases List.mem_cons.mp hu with hu | hu
    · obtain ⟨hbl, hbu⟩ := buddy_high hb (hu ▸ hlow.upper_not_low)
      have hsame : b.buddy = c := upper_inj (hbu.symm.trans hu.symm)
      have hob : b.order = c.upper.order := congrArg order hu.symm
      exact hbuddy (hob ▸ ho) (hsame ▸ hc)
    · exact h c hc hlow ho hu

/-- Settled tilings of sets that do not touch are settled side by side. -/
theorem Settled.append (h' : Settled top l') (ht : Tiles top A l) (ht' : Tiles top B l')
    (hgap : ∀ f, (A f → ¬ B (f + 1)) ∧ (B f → ¬ A (f + 1))) :
    Settled top (l ++ l') := by
  -- the last cell of a lower half and the first of the upper one are neighbours
  have hlast : ∀ b : PowBlock, b.stop - 1 ∈ b ∧ b.stop - 1 + 1 = b.upper.base := fun b => by
    have := b.size_pos
    have hu : b.upper.base = b.stop := rfl
    rw [mem_def, hu]
    unfold stop
    omega
  intro b hb hlow ho hu
  rcases List.mem_append.mp hb with hb | hb
  · rcases List.mem_append.mp hu with hu | hu
    · exact h b hb hlow ho hu
    · refine (hgap (b.stop - 1)).1 ((ht.cover _).mpr ⟨b, hb, (hlast b).1⟩)
        ((ht'.cover _).mpr ⟨_, hu, ?_⟩)
      rw [(hlast b).2]
      exact base_mem _
  · rcases List.mem_append.mp hu with hu | hu
    · refine (hgap (b.stop - 1)).2 ((ht'.cover _).mpr ⟨b, hb, (hlast b).1⟩)
        ((ht.cover _).mpr ⟨_, hu, ?_⟩)
      rw [(hlast b).2]
      exact base_mem _
    · exact h' b hb hlow ho hu

/-- **Room.**  In a settled tiling an aligned range of covered cells lies in one block. -/
theorem Settled.room (ht : Tiles top A l) (n base : Nat) (hn : n ≤ top)
    (ha : (PowBlock.mk base n).Aligned) (hA : ∀ f ∈ PowBlock.mk base n, A f) :
    ∃ b ∈ l, (PowBlock.mk base n).Within b := by
  induction n generalizing base with
  | zero =>
    obtain ⟨b, hb, hf⟩ := (ht.cover base).mp (hA base (base_mem _))
    exact ⟨b, hb, hf.1, hf.2⟩
  | succ n ih =>
    -- the two halves are in blocks; were these of order `n`, they would be the halves
    have hlow : (PowBlock.mk base n).Low := Aligned.of_double ha
    obtain ⟨b, hb, hbw⟩ := ih base (by omega) hlow.aligned fun f hf =>
      hA f (mem_double.mpr (.inl hf))
    obtain ⟨c, hc, hcw⟩ := ih (PowBlock.mk base n).stop (by omega) hlow.upper_aligned fun f hf =>
      hA f (mem_double.mpr (.inr hf))
    rcases Nat.lt_or_ge n b.order with hlt | hge
    · exact ⟨b, hb, within_of_mem ha (ht.aligned b hb) hlt (base_mem _) (hbw.mem (base_mem _))⟩
    rcases Nat.lt_or_ge n c.order with hlt' | hge'
    · have hf : (PowBlock.mk base n).stop ∈ (PowBlock.mk base n).double :=
        mem_double.mpr (.inr (base_mem _))
      exact ⟨c, hc, within_of_mem ha (ht.aligned c hc) hlt' hf (hcw.mem (base_mem _))⟩
    have hb' : PowBlock.mk base n = b := eq_of_within hbw (Nat.le_antisymm hbw.order_le hge)
    have hc' : (PowBlock.mk base n).upper = c :=
      eq_of_within hcw (Nat.le_antisymm hcw.order_le hge')
    exact absurd (hc' ▸ hc) (h _ (hb' ▸ hb) hlow hn)

/-- **Uniqueness.**  The blocks of a settled tiling are the widest ones. -/
theorem Settled.mem_iff (ht : Tiles top A l) : b ∈ l ↔ Widest top A b := by
  have inside : ∀ c ∈ l, ∀ f ∈ c, A f := fun c hc f hf => (ht.cover f).mpr ⟨c, hc, hf⟩
  constructor
  · intro hb
    refine ⟨ht.aligned b hb, ht.small b hb, inside b hb, fun c hc ho hA hbc => ?_⟩
    obtain ⟨d, hd, hcd⟩ := h.room ht c.order c.base ho hc hA
    -- `b` is in `d`, and blocks of a tiling that share a cell are one block
    have hbd : b = d := ht.eq_of_mem hb hd (base_mem b) ((hbc.trans hcd).mem (base_mem b))
    have hcb : c.Within b := hbd ▸ hcd
    exact eq_of_within hcb (Nat.le_antisymm hcb.order_le hbc.order_le)
  · intro hb
    obtain ⟨d, hd, hbd⟩ := h.room ht b.order b.base hb.small hb.aligned hb.inside
    rw [← hb.maximal d (ht.aligned d hd) (ht.small d hd) (inside d hd) hbd]
    exact hd

end

/-! ## The greedy tiling of a run -/

/-- `base .. stop` cut from the left into the largest aligned blocks that fit. -/
inductive Carved (top : Nat) : Nat → Nat → List PowBlock → Prop
  | done (stop : Nat) : Carved top stop stop []
  | block {b : PowBlock} {stop : Nat} {l : List PowBlock} : b.Aligned → b.order ≤ top →
      b.stop ≤ stop → (b.order < top → b.Low → stop < b.double.stop) → Carved top b.stop stop l →
      Carved top b.base stop (b :: l)

theorem Carved.le {stop : Nat} (h : Carved top base stop l) : base ≤ stop := by
  cases h with
  | done => exact Nat.le_refl _
  | @block b stop l _ _ hfit _ _ =>
    have := b.size_pos
    unfold PowBlock.stop at hfit
    omega

theorem Carved.tiles {stop : Nat} (h : Carved top base stop l) :
    Tiles top (fun f => base ≤ f ∧ f < stop) l := by
  induction h with
  | done stop => exact tiles_nil.congr fun f => ⟨False.elim, fun h => by omega⟩
  | @block b stop l ha ho hfit _ hrest ih =>
    have hone : Tiles top (· ∈ b) [b] :=
      ⟨fun c hc => by rwa [List.mem_singleton.mp hc], fun c hc => by rwa [List.mem_singleton.mp hc],
        List.pairwise_singleton _ _, fun f => by simp⟩
    refine (hone.append ih fun f hf => ?_).congr fun f => ?_
    · have := mem_def.mp hf
      omega
    · have := b.size_pos
      have := hrest.le
      rw [mem_def]
      unfold PowBlock.stop at *
      omega

/-- **Greed leaves nothing to merge.** -/
theorem Carved.settled {stop : Nat} (h : Carved top base stop l) : Settled top l := by
  induction h with
  | done => exact fun b hb => (nomatch hb)
  | @block b stop l ha ho hfit hmax hrest ih =>
    refine ih.cons ha fun hlt hbuddy => ?_
    have hcells := hrest.tiles
    have hmem : b.stop ≤ b.buddy.base := ((hcells.cover _).mpr ⟨_, hbuddy, base_mem _⟩).1
    have hend : b.buddy.stop ≤ stop := hcells.stop_le (fun f hf => hf.2) hbuddy
    by_cases hlow : b.Low
    · -- the other half follows `b` in the run, so the block around both would have fit
      have hlt' := hmax hlt hlow
      rw [buddy_low hlow] at hend
      have hd := size_double b
      have hu : b.upper.size = b.size := rfl
      have hub : b.upper.base = b.stop := rfl
      have hdb : b.double.base = b.base := rfl
      unfold PowBlock.stop at *
      omega
    · obtain ⟨-, hup⟩ := buddy_high ha hlow
      have hbase : b.base = b.buddy.stop := congrArg PowBlock.base hup
      have := b.size_pos
      have := b.buddy.size_pos
      unfold PowBlock.stop at *
      omega

/-! ## Blocks kept by order -/

/-- The blocks whose bases are listed by order. -/
def ofLists (n : Nat) (l : Nat → List Nat) : List PowBlock :=
  (List.range n).flatMap fun o => (l o).map (PowBlock.mk · o)

theorem mem_ofLists {l : Nat → List Nat} : b ∈ ofLists n l ↔ b.order < n ∧ b.base ∈ l b.order := by
  unfold ofLists
  rw [List.mem_flatMap]
  constructor
  · rintro ⟨o, ho, hb⟩
    obtain ⟨i, hi, rfl⟩ := List.mem_map.mp hb
    exact ⟨List.mem_range.mp ho, hi⟩
  · rintro ⟨ho, hb⟩
    exact ⟨b.order, List.mem_range.mpr ho, List.mem_map.mpr ⟨b.base, hb, rfl⟩⟩

/-- One list with one more base is one more block. -/
theorem ofLists_perm {l l' : Nat → List Nat} (hb : b.order < n)
    (hl : (l' b.order).Perm (b.base :: l b.order)) (hrest : ∀ o, o ≠ b.order → l' o = l o) :
    (ofLists n l').Perm (b :: ofLists n l) := by
  induction n with
  | zero => omega
  | succ n ih =>
    unfold ofLists at *
    rw [List.range_succ, List.flatMap_append, List.flatMap_append, List.flatMap_singleton,
      List.flatMap_singleton]
    rcases Nat.lt_or_eq_of_le (Nat.le_of_lt_succ hb) with hlt | heq
    · rw [hrest n (by omega)]
      exact (ih hlt).append_right _
    · have hsame : (List.range n).flatMap (fun o => (l' o).map (PowBlock.mk · o))
          = (List.range n).flatMap (fun o => (l o).map (PowBlock.mk · o)) :=
        List.flatMap_congr fun o ho => by rw [hrest o (by have := List.mem_range.mp ho; omega)]
      rw [hsame, ← heq]
      exact ((hl.map _).append_left _).trans List.perm_middle

end PowBlock
