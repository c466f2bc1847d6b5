import Praesidium.Mem.Buddy

/-!
What `add_frames`, `alloc` and `free` do to the blocks.

`Shape b l held A`: the free blocks, which the lists `l` of `b` hold, and the blocks of `held`,
which no list holds, tile the frames of `A`.  Inside an operation a block is on its way between
the two sides; splitting and merging happen to held blocks, and `insert` and `unlink` move a block
across (`Shape.insert`, `Shape.unlink`).

    Shape b l live A → alloc order b   takes a block of that order out of a free one  (alloc_ends)
    Shape b l (c :: live) A → free c.base b   gives c back                            (free_ends)
    Shape b l live A → addFrames start count b   adds the carved run
        (addFrames_ends)

`alloc` and `free` keep the free blocks settled: no two halves of one block are both free.
-/

namespace Praesidium

namespace Buddy

open Fallible PowBlock

/-- The blocks on the free lists. -/
def freeBlocks (l : Nat → List Nat) : List PowBlock := ofLists (MAX_ORDER + 1) l

structure Shape (b : Buddy) (l : Nat → List Nat) (held : List PowBlock)
    (A : Nat → Prop) : Prop where
  lists : Lists b l
  tiles : Tiles MAX_ORDER A (held ++ freeBlocks l)
  inside : ∀ f, A f → f < b.nframes

/-- The recorded orders of the blocks of `held` stay. -/
structure Steady (held : List PowBlock) (b b' : Buddy) : Prop where
  nframes : b'.nframes = b.nframes
  orders : ∀ c ∈ held, (b'.node c.base).order = (b.node c.base).order

variable {b b' b'' : Buddy} {l l' : Nat → List Nat} {held : List PowBlock} {A : Nat → Prop}
  {c d : PowBlock}

theorem Steady.refl (held : List PowBlock) (b : Buddy) : Steady held b b := ⟨rfl, fun _ _ => rfl⟩

theorem Steady.trans (h : Steady held b b') (h' : Steady held b' b'') : Steady held b b'' :=
  ⟨h'.nframes.trans h.nframes, fun c hc => (h'.orders c hc).trans (h.orders c hc)⟩

theorem Steady.tail (h : Steady (c :: held) b b') : Steady held b b' :=
  ⟨h.nframes, fun d hd => h.orders d (List.mem_cons_of_mem c hd)⟩

/-! ## Free and held blocks -/

theorem mem_freeBlocks : c ∈ freeBlocks l ↔ c.order ≤ MAX_ORDER ∧ c.base ∈ l c.order := by
  unfold freeBlocks
  rw [mem_ofLists, Nat.lt_succ_iff]

theorem Shape.head_ne (h : Shape b l (c :: held) A) (hd : d ∈ held) : d.base ≠ c.base := by
  intro hc
  have hap := (List.pairwise_cons.mp h.tiles.apart).1 d (List.mem_append_left _ hd)
  exact hap.not_mem c.base_mem (hc ▸ d.base_mem)

section

variable (h : Shape b l held A)

include h

theorem Shape.stop_le (hc : c ∈ held ++ freeBlocks l) : c.stop ≤ b.nframes :=
  h.tiles.stop_le h.inside hc

theorem Shape.base_lt (hc : c ∈ held ++ freeBlocks l) :
    c.base < b.nframes := by
  have := h.stop_le hc
  have := c.size_pos
  unfold PowBlock.stop at *
  omega

theorem Shape.held_not_free (hc : c ∈ held) : c ∉ freeBlocks l := fun hf =>
  ((List.pairwise_append.mp h.tiles.apart).2.2 c hc c hf).not_mem c.base_mem c.base_mem

/-- The count of free frames is not part of the shape. -/
theorem Shape.recount (n : Nat) :
    Shape { b with freeFrames := n } l held A :=
  ⟨⟨h.lists.desc, h.lists.heads, h.lists.small, h.lists.linked, h.lists.nodup, h.lists.mem,
  h.lists.top⟩, h.tiles, h.inside⟩

theorem Shape.congr {B : Nat → Prop} (hAB : ∀ f, A f ↔ B f) :
    Shape b l held B :=
  ⟨h.lists, h.tiles.congr hAB, fun f hf => h.inside f ((hAB f).mpr hf)⟩

theorem Shape.total_le : total held + total (freeBlocks l) ≤ b.nframes := by
  rw [← total_append]
  exact h.tiles.total_le _ h.inside

/-- **A free block is taken off its list.** -/
theorem Shape.unlink (hc : c ∈ freeBlocks l) :
    Ends (unlink c.base c.order) b (fun _ b' => ∃ l', (freeBlocks l).Perm (c :: freeBlocks l') ∧
      Shape b' l' (c :: held) A ∧ Steady held b b' ∧ b'.freeFrames = b.freeFrames)
        (fun _ _ => False) := by
  obtain ⟨ho, hmem⟩ := mem_freeBlocks.mp hc
  refine (unlink_lists h.lists ho hmem).imp_ok fun _ b' hu => ?_
  obtain ⟨hlists, hkept, -⟩ := hu
  have hperm : (freeBlocks l).Perm
    (c :: freeBlocks (Function.update l c.order ((l c.order).erase c.base))) :=
    ofLists_perm (Nat.lt_succ_of_le ho)
    (by rw [Function.update_self]; exact List.perm_cons_erase hmem)
      (fun o ho => (Function.update_of_ne ho _ _).symm)
  have htiles := h.tiles.perm ((hperm.append_left held).trans List.perm_middle)
  refine ⟨_, hperm, ⟨hlists, htiles, fun f hf => hkept.size.nframes ▸ h.inside f hf⟩,
    ⟨hkept.size.nframes, fun d hd => (hkept.node d.base ?_).2⟩, hkept.size.freeFrames⟩
  intro hdc
  have hap := (List.pairwise_cons.mp htiles.apart).1 d (List.mem_append_left _ hd)
  exact hap.not_mem c.base_mem (hdc ▸ d.base_mem)

end

/-- A held block is not marked free. -/
theorem Shape.not_free (h : Shape b l (c :: held) A) : (b.node c.base).free = false := by
  have hlt := h.base_lt (c := c) List.mem_cons_self
  apply eq_false_of_ne_true
  intro hfree
  have htop := h.lists.top _ hlt hfree
  have hmem : PowBlock.mk c.base (b.node c.base).order ∈ freeBlocks l :=
    mem_freeBlocks.mpr ⟨htop, (h.lists.mem _ htop _).mpr ⟨hlt, hfree, rfl⟩⟩
  have hap := (List.pairwise_cons.mp h.tiles.apart).1 _ (List.mem_append_right held hmem)
  exact hap.not_mem c.base_mem (base_mem ⟨c.base, (b.node c.base).order⟩)

/-- **A held block goes on its list.** -/
theorem Shape.insert (h : Shape b l (c :: held) A) :
    Ends (insert c.base c.order) b (fun _ b' => ∃ l', (freeBlocks l').Perm (c :: freeBlocks l) ∧
      Shape b' l' held A ∧
      Steady held b b' ∧ b'.freeFrames = b.freeFrames) (fun _ _ => False) := by
  have ho : c.order ≤ MAX_ORDER := h.tiles.small c List.mem_cons_self
  refine (insert_lists h.lists (h.base_lt List.mem_cons_self) h.not_free ho).imp_ok fun _ b' hi =>
    ?_
  obtain ⟨hlists, hkept⟩ := hi
  have hperm : (freeBlocks (Function.update l c.order (c.base :: l c.order))).Perm
    (c :: freeBlocks l) :=
    ofLists_perm (Nat.lt_succ_of_le ho) (by rw [Function.update_self]) (fun o ho =>
    Function.update_of_ne ho _ _)
  refine ⟨_, hperm, ⟨hlists, ?_, fun f hf => hkept.size.nframes ▸ h.inside f hf⟩,
    ⟨hkept.size.nframes, fun d hd => (hkept.node d.base (h.head_ne hd)).2⟩, hkept.size.freeFrames⟩
  exact h.tiles.perm (List.perm_middle.symm.trans (hperm.symm.append_left held))

/-! ## `alloc` -/

/-- The first order from `o` up that has a free block. -/
theorem findLoop_ends (h : Lists b l) (n o : Nat) (hn : n = MAX_ORDER + 1 - o)
    (ho : o ≤ MAX_ORDER + 1) :
    Ends (findLoop n o) b (fun r b' => b' = b ∧ o ≤ r ∧ (∀ k, o ≤ k → k < r → l k = []) ∧
      (r ≤ MAX_ORDER → b.head r ∈ l r)) (fun _ _ => False) := by
  induction n generalizing o with
  | zero =>
    rw [findLoop, ends_pure]
    exact ⟨rfl, Nat.le_refl _, fun k h1 h2 => by omega, fun hr => by omega⟩
  | succ n ih =>
    have hle : o ≤ MAX_ORDER := by omega
    rw [findLoop, if_pos hle, ends_bind, ends_readHead (by rw [h.heads]; omega), ends_ite]
    refine ⟨fun hnil => ?_, fun hnil => ?_⟩
    · have hempty : l o = [] := ((h.linked o hle).head.resolve_right fun hc => hc.1 hnil).2
      refine (ih (o + 1) (by omega) (by omega)).imp_ok fun r b' hr => ?_
      obtain ⟨rfl, hor, hk, hr⟩ := hr
      refine ⟨rfl, by omega, fun k h1 h2 => ?_, hr⟩
      rcases Nat.lt_or_eq_of_le h1 with hlt | heq
      · exact hk k hlt h2
      · exact heq ▸ hempty
    · rw [ends_pure]
      exact ⟨rfl, Nat.le_refl _, fun k h1 h2 => by omega, fun _ => h.head_lt hle hnil⟩

/-- The halves split off are free, and the rest is held. -/
theorem splitLoop_ends (base order o : Nat) (h : Shape b l (⟨base, o⟩ :: held) A) (ho : order ≤ o) :
    Ends (splitLoop base order o) b (fun _ b' => ∃ l', Shape b' l' (⟨base, order⟩ :: held) A ∧
      Steady held b b' ∧
      b'.freeFrames = b.freeFrames ∧ total (freeBlocks l') + 2 ^ order = total
        (freeBlocks l) + 2 ^ o ∧
      (Settled MAX_ORDER (freeBlocks l) → Settled MAX_ORDER (freeBlocks l')))
        (fun _ _ => False) := by
  induction o generalizing b l with
  | zero =>
    obtain rfl : order = 0 := Nat.le_zero.mp ho
    rw [splitLoop, ends_pure]
    exact ⟨l, h, .refl _ _, rfl, rfl, id⟩
  | succ o ih =>
    rw [splitLoop, ends_ite]
    refine ⟨fun hlt => ?_, fun hge => ?_⟩
    · have htop : o + 1 ≤ MAX_ORDER := h.tiles.small _ List.mem_cons_self
      have hstop : base + 2 ^ (o + 1) ≤ b.nframes :=
        h.stop_le (c := ⟨base, o + 1⟩) List.mem_cons_self
      have hsmall := h.lists.small
      have hpow : 2 ^ (o + 1) = 2 ^ o + 2 ^ o := by rw [Nat.pow_succ, Nat.mul_two]
      have hpos := Nat.two_pow_pos o
      unfold MAX_ORDER at htop
      unfold NIL at hsmall
      rw [ends_bind, ends_bit (by omega), ends_bind, ends_plus (by omega), ends_bind]
      -- the block in hand is the upper half and the lower half
      have hsplit : Shape b l ((PowBlock.mk base o).upper :: ⟨base, o⟩ :: held) A :=
        ⟨h.lists, Tiles.split h.tiles, h.inside⟩
      refine hsplit.insert.imp_ok fun _ b₁ h₁ => ?_
      obtain ⟨l₁, hperm, hshape, hsteady, hcount⟩ := h₁
      refine (ih hshape (by omega)).imp_ok fun _ b' h' => ?_
      obtain ⟨l', hshape', hsteady', hcount', htotal, hsettled⟩ := h'
      refine ⟨l', hshape', hsteady.tail.trans hsteady', hcount'.trans hcount, ?_, fun hs =>
        hsettled ?_⟩
      · have ht := total_perm hperm
        rw [total_cons] at ht
        have hup : (PowBlock.mk base o).upper.size = 2 ^ o := rfl
        omega
      · -- the buddy of the upper half is the lower one, which is held
        have hlow : (PowBlock.mk base o).Low :=
          Aligned.of_double (h.tiles.aligned _ List.mem_cons_self)
        refine (hs.cons hlow.upper_aligned fun _ hbuddy => ?_).subset fun c hc =>
          hperm.mem_iff.mp hc
        have hsame := upper_inj (buddy_high hlow.upper_aligned hlow.upper_not_low).2
        exact hsplit.held_not_free (List.mem_cons_of_mem _ List.mem_cons_self) (hsame ▸ hbuddy)
    · obtain rfl : order = o + 1 := by omega
      rw [ends_pure]
      exact ⟨l, h, .refl _ _, rfl, rfl, id⟩

/-- What a successful `alloc` leaves. -/
structure Taken (b b' : Buddy) (l l' : Nat → List Nat) (live : List PowBlock)
    (A : Nat → Prop) (c : PowBlock) : Prop where
  shape : Shape b' l' (c :: live) A
  steady : Steady live b b'
  recorded : (b'.node c.base).order = c.order
  count : b'.freeFrames + c.size = b.freeFrames
  total : total (freeBlocks l') + c.size = total (freeBlocks l)
  source : ∃ d ∈ freeBlocks l, c.Within d
  settled : Settled MAX_ORDER (freeBlocks l) → Settled MAX_ORDER (freeBlocks l')

/-- The descriptor of a held block may be written. -/
theorem Shape.put (h : Shape b l (c :: held) A) {d : FrameDesc} (hd : d.free = false) :
    Shape (b.put c.base d) l (c :: held) A ∧ Steady held b (b.put c.base d) := by
  have hlen : c.base < b.desc.length := by
    rw [h.lists.desc]
    exact h.base_lt List.mem_cons_self
  have hnode : ∀ i, i ≠ c.base → (b.put c.base d).node i = b.node i := fun i hi => by
    rw [node_put hlen, if_neg hi]
  have hsize := put_sameSize b c.base d
  -- a node of a list is not the block's
  have hlisted : ∀ o, o ≤ MAX_ORDER → ∀ i ∈ l o, i ≠ c.base := fun o ho i hi hc => by
    have := ((h.lists.mem o ho i).mp hi).2.1
    rw [hc, h.not_free] at this
    cases this
  have hown : ((b.put c.base d).node c.base).free = false := by rw [node_put hlen, if_pos rfl, hd]
  refine ⟨⟨⟨hsize.desc.trans h.lists.desc, h.lists.heads, h.lists.small, fun o ho =>
    ?_, h.lists.nodup, fun o ho i => ?_,
    fun i hi hf => ?_⟩, h.tiles, h.inside⟩, rfl, fun e he => by rw [hnode _ (h.head_ne he)]⟩
  · exact (h.lists.linked o ho).congr (fun i hi => by rw [hnode i (hlisted o ho i hi)])
      (fun i hi => by rw [hnode i (hlisted o ho i hi)])
  · by_cases hic : i = c.base
    · rw [hic, hown]
      exact ⟨fun hi => absurd rfl (hlisted o ho _ hi), fun hi => by cases hi.2.1⟩
    · rw [hnode i hic]
      exact h.lists.mem o ho i
  · have hic : i ≠ c.base := fun hc => by
      rw [hc, hown] at hf
      cases hf
    rw [hnode i hic] at hf ⊢
    exact h.lists.top i hi hf

theorem Shape.setTaken (h : Shape b l (c :: held) A) :
    Ends (setTaken c.base c.order) b (fun _ b' => Shape b' l (c :: held) A ∧ Steady held b b' ∧
      (b'.node c.base).order = c.order ∧ b'.freeFrames = b.freeFrames) (fun _ _ => False) := by
  have hlen : c.base < b.desc.length := by
    rw [h.lists.desc]
    exact h.base_lt List.mem_cons_self
  unfold Buddy.setTaken
  rw [ends_bind, ends_setOrder hlen]
  obtain ⟨h₁, hsteady₁⟩ := h.put (d := { b.node c.base with order := c.order }) h.not_free
  have hlen₁ : c.base < (b.put c.base { b.node c.base with order := c.order }).desc.length := by
    rw [(put_sameSize _ _ _).desc]
    exact hlen
  rw [ends_clearFree hlen₁]
  obtain ⟨h₂, hsteady₂⟩ := h₁.put
    (d := { (b.put c.base { b.node c.base with order := c.order }).node c.base with free := false })
    rfl
  refine ⟨h₂, hsteady₁.trans hsteady₂, ?_, rfl⟩
  rw [node_put hlen₁, if_pos rfl, node_put hlen, if_pos rfl]

variable {live : List PowBlock} {base stop : Nat}

/-- **`alloc`** takes a block out of a free one, or there is none. -/
theorem alloc_ends (h : Shape b l live A) (hcount : b.freeFrames = total (freeBlocks l))
    (order : Nat) :
    Ends (alloc order) b (fun r b' =>
      (r = none ∧ b' = b ∧ ∀ c ∈ freeBlocks l, c.order < order) ∨
      (∃ base l', r = some base ∧ Taken b b' l l' live A ⟨base, order⟩)) (fun _ _ => False) := by
  unfold alloc
  rw [ends_ite]
  refine ⟨fun hbig => ?_, fun hle => ?_⟩
  · rw [ends_pure]
    refine .inl ⟨rfl, rfl, fun c hc => ?_⟩
    have := (mem_freeBlocks.mp hc).1
    omega
  rw [ends_bind]
  refine (findLoop_ends h.lists _ order rfl (by omega)).imp_ok fun o b₁ ho => ?_
  obtain ⟨rfl, hoo, hempty, hhead⟩ := ho
  rw [ends_ite]
  refine ⟨fun hbig => ?_, fun hle' => ?_⟩
  · rw [ends_pure]
    refine .inl ⟨rfl, rfl, fun c hc => ?_⟩
    obtain ⟨hc1, hc2⟩ := mem_freeBlocks.mp hc
    by_contra hge
    rw [hempty c.order (by omega) (by omega)] at hc2
    cases hc2
  have hotop : o ≤ MAX_ORDER := by omega
  have hfree : PowBlock.mk (b₁.head o) o ∈ freeBlocks l := mem_freeBlocks.mpr ⟨hotop, hhead hotop⟩
  rw [ends_bind, ends_readHead (by rw [h.lists.heads]; omega), ends_bind]
  refine (h.unlink hfree).imp_ok fun _ b₂ hu => ?_
  obtain ⟨l₂, hperm, hshape₂, hsteady₂, hcount₂⟩ := hu
  rw [ends_bind]
  refine (splitLoop_ends (b₁.head o) order o hshape₂ hoo).imp_ok fun _ b₃ hs => ?_
  obtain ⟨l₃, hshape₃, hsteady₃, hcount₃, htotal₃, hsettled₃⟩ := hs
  rw [ends_bind]
  refine hshape₃.setTaken.imp_ok fun _ b₄ ht => ?_
  obtain ⟨hshape₄, hsteady₄, hrecorded, hcount₄⟩ := ht
  have htotal : total (freeBlocks l) = 2 ^ o + total (freeBlocks l₂) := by
    rw [total_perm hperm, total_cons]
    rfl
  unfold MAX_ORDER at hle
  rw [ends_bind, ends_get, ends_bind, ends_bit (by omega), ends_bind, ends_minus (by omega),
    ends_bind, ends_modify, ends_pure]
  have hsteady : Steady live b₁ b₄ := (hsteady₂.trans hsteady₃).trans hsteady₄
  refine .inr ⟨_, l₃, rfl, hshape₄.recount _, ⟨hsteady.nframes, hsteady.orders⟩, hrecorded, ?_, ?_,
    ⟨_, hfree, Nat.le_refl _, Nat.add_le_add_left (Nat.pow_le_pow_right (by decide) hoo) _⟩,
    fun hs => hsettled₃ (hs.subset fun c hc => hperm.mem_iff.mpr (List.mem_cons_of_mem _ hc))⟩
  · show b₄.freeFrames - 2 ^ order + 2 ^ order = b₁.freeFrames
    omega
  · show total (freeBlocks l₃) + 2 ^ order = total (freeBlocks l)
    omega

/-! ## `free` -/

/-- A held block and a held buddy are the block around both. -/
theorem Shape.merge (h : Shape b l (c.buddy :: c :: held) A) (ho : c.order < MAX_ORDER) :
    Shape b l (⟨if c.buddy.base < c.base then c.buddy.base else c.base, c.order + 1⟩ :: held) A :=
      by
  have hc : c.Aligned := h.tiles.aligned c (List.mem_cons_of_mem _ List.mem_cons_self)
  have hpos := c.size_pos
  by_cases hlow : c.Low
  · have htiles := h.tiles
    rw [buddy_low hlow] at htiles ⊢
    have hge : ¬ c.upper.base < c.base := by
      show ¬ c.base + c.size < c.base
      omega
    rw [if_neg hge]
    exact ⟨h.lists, Tiles.merge htiles hlow ho, h.inside⟩
  · obtain ⟨hblow, hup⟩ := buddy_high hc hlow
    have hbase : c.base = c.buddy.base + c.size := congrArg PowBlock.base hup
    have htiles : Tiles MAX_ORDER A (c.buddy.upper :: c.buddy :: (held ++ freeBlocks l)) := by
      rw [← hup]
      exact h.tiles.perm (.swap _ _ _)
    rw [if_pos (by omega)]
    exact ⟨h.lists, htiles.merge hblow ho, h.inside⟩

/-- The block grows until its buddy is not free. -/
theorem coalesceLoop_ends (n base order : Nat) (hn : n = MAX_ORDER - order)
    (h : Shape b l (⟨base, order⟩ :: held) A) :
    Ends (coalesceLoop n base order) b (fun r b' => ∃ l', Shape b' l' (⟨r.1, r.2⟩ :: held) A ∧
      Steady held b b' ∧
      b'.freeFrames = b.freeFrames ∧ total (freeBlocks l') + 2 ^ r.2 = total (freeBlocks l) + 2
        ^ order ∧
      (∀ c ∈ freeBlocks l', c ∈ freeBlocks l) ∧
        (r.2 < MAX_ORDER → (PowBlock.mk r.1 r.2).buddy ∉ freeBlocks l'))
      (fun _ _ => False) := by
  induction n generalizing b l base order with
  | zero =>
    rw [coalesceLoop, ends_pure]
    exact ⟨l, h, .refl _ _, rfl, rfl, fun _ hc => hc, fun ho => by dsimp only at ho; omega⟩
  | succ n ih =>
    have ho : order < MAX_ORDER := by omega
    have ho32 : order < 32 := by unfold MAX_ORDER at ho; omega
    have hbuddy : base ^^^ 2 ^ order = (PowBlock.mk base order).buddy.base := rfl
    rw [coalesceLoop, if_pos ho, ends_bind, ends_bit ho32, ends_bind, ends_get, ends_ite]
    refine ⟨fun hbig => ?_, fun hlt => ?_⟩
    · rw [ends_pure]
      refine ⟨l, h, .refl _ _, rfl, rfl, fun _ hc => hc, fun _ hc => ?_⟩
      have hlt : (PowBlock.mk base order).buddy.base < b.nframes :=
        h.base_lt (List.mem_append_right _ hc)
      omega
    have hlen : base ^^^ 2 ^ order < b.desc.length := by
      rw [h.lists.desc]
      omega
    rw [ends_bind, ends_readDesc hlen, ends_ite]
    refine ⟨fun hno => ?_, fun hyes => ?_⟩
    · rw [ends_pure]
      refine ⟨l, h, .refl _ _, rfl, rfl, fun _ hc => hc, fun _ hc => ?_⟩
      obtain ⟨hctop, hcl⟩ := mem_freeBlocks.mp hc
      obtain ⟨-, hcf, hco⟩ := (h.lists.mem _ hctop _).mp hcl
      rcases hno with hno | hno
      · rw [hbuddy, hcf] at hno
        cases hno
      · exact hno hco
    · obtain ⟨hf, hord⟩ := not_or.mp hyes
      have hmem : (PowBlock.mk base order).buddy ∈ freeBlocks l :=
        mem_freeBlocks.mpr ⟨Nat.le_of_lt ho, (h.lists.mem order (Nat.le_of_lt ho) _).mpr
          ⟨by omega, eq_true_of_ne_false hf, not_ne_iff.mp hord⟩⟩
      rw [ends_bind]
      refine (h.unlink hmem).imp_ok fun _ b₁ hu => ?_
      obtain ⟨l₁, hperm, hshape₁, hsteady₁, hcount₁⟩ := hu
      refine (ih _ (order + 1) (by omega) (hshape₁.merge ho)).imp_ok fun r b' hr => ?_
      obtain ⟨l', hshape', hsteady', hcount', htotal', hsub, hlast⟩ := hr
      refine ⟨l', hshape', hsteady₁.tail.trans hsteady', hcount'.trans hcount₁, ?_, fun c hc =>
        ?_, hlast⟩
      · have ht := total_perm hperm
        rw [total_cons] at ht
        have hsize : (PowBlock.mk base order).buddy.size = 2 ^ order := rfl
        have hpow : 2 ^ (order + 1) = 2 ^ order + 2 ^ order := by rw [Nat.pow_succ, Nat.mul_two]
        omega
      · exact hperm.mem_iff.mpr (List.mem_cons_of_mem _ (hsub c hc))

/-- What `free` leaves. -/
structure Returned (b b' : Buddy) (l l' : Nat → List Nat) (live : List PowBlock)
    (A : Nat → Prop) (c : PowBlock) : Prop where
  shape : Shape b' l' live A
  steady : Steady live b b'
  count : b'.freeFrames = b.freeFrames + c.size
  total : total (freeBlocks l') = total (freeBlocks l) + c.size
  settled : Settled MAX_ORDER (freeBlocks l) → Settled MAX_ORDER (freeBlocks l')

/-- **`free`** gives a held block back. -/
theorem free_ends (h : Shape b l (c :: live) A) (hrec : (b.node c.base).order = c.order)
    (hcount : b.freeFrames = total (freeBlocks l)) :
    Ends (free c.base) b (fun _ b' => ∃ l', Returned b b' l l' live A c) (fun _ _ => False) := by
  have hlt : c.base < b.nframes := h.base_lt List.mem_cons_self
  have hlen : c.base < b.desc.length := by rw [h.lists.desc]; exact hlt
  have htop : c.order ≤ MAX_ORDER := h.tiles.small c List.mem_cons_self
  have hle := h.total_le
  have hsmall := h.lists.small
  rw [total_cons] at hle
  have hsize : c.size = 2 ^ c.order := rfl
  unfold MAX_ORDER at htop
  unfold NIL at hsmall
  unfold Buddy.free
  rw [ends_bind, ends_get, ends_bind, ends_refuseIf]
  refine ⟨fun hc => absurd hlt hc, fun _ => ?_⟩
  rw [ends_bind, ends_readDesc hlen, ends_bind, ends_refuseIf]
  refine ⟨fun hc => absurd hc (by rw [h.not_free]; decide), fun _ => ?_⟩
  rw [ends_bind, ends_readDesc hlen, hrec, ends_bind, ends_get, ends_bind, ends_bit (by omega),
    ends_bind, ends_plus (by omega), ends_bind, ends_modify]
  unfold coalesce
  rw [ends_bind]
  refine (coalesceLoop_ends _ c.base c.order rfl (h.recount _)).imp_ok fun r b₁ hr => ?_
  obtain ⟨l₁, hshape₁, hsteady₁, hcount₁, htotal₁, hsub, hlast⟩ := hr
  refine (hshape₁.insert (c := ⟨r.1, r.2⟩)).imp_ok fun _ b' hi => ?_
  obtain ⟨l', hperm, hshape', hsteady', hcount'⟩ := hi
  have hst := hsteady₁.trans hsteady'
  refine ⟨l', hshape', ⟨hst.nframes, hst.orders⟩, hcount'.trans hcount₁, ?_, fun hs => ?_⟩
  · have ht := total_perm hperm
    rw [total_cons] at ht
    have hsize' : (PowBlock.mk r.1 r.2).size = 2 ^ r.2 := rfl
    omega
  · refine ((hs.subset hsub).cons (hshape₁.tiles.aligned _ List.mem_cons_self) hlast).subset fun d
      hd => hperm.mem_iff.mp hd

/-! ## `add_frames` -/

/-- The order `add_frames` takes at `base`. -/
def fitOrder (base stop : Nat) : Nat :=
  min (min (if base = 0 then MAX_ORDER else Word.trailingZeros 32 base) (stop - base).log2)
    MAX_ORDER

/-- It is the largest order whose block is aligned at `base` and fits. -/
theorem fitOrder_spec (hlt : base < stop) :
    (PowBlock.mk base (fitOrder base stop)).Aligned ∧ fitOrder base stop ≤ MAX_ORDER ∧
      (PowBlock.mk base (fitOrder base stop)).stop ≤ stop ∧
      (fitOrder base stop < MAX_ORDER → (PowBlock.mk base (fitOrder base stop)).Low →
        stop < (PowBlock.mk base (fitOrder base stop)).double.stop) := by
  have hfits : 2 ^ (stop - base).log2 ≤ stop - base := Nat.log2_self_le (by omega)
  have hover : stop - base < 2 ^ ((stop - base).log2 + 1) := Nat.lt_log2_self
  refine ⟨?_, Nat.min_le_right _ _, ?_, fun htop hlow => ?_⟩
  · by_cases h0 : base = 0
    · subst h0
      exact Nat.dvd_zero _
    · have hle : fitOrder base stop ≤ Word.trailingZeros 32 base := by
        unfold fitOrder
        rw [if_neg h0]
        omega
      exact Nat.dvd_trans (Nat.pow_dvd_pow 2 hle) (Word.two_pow_trailingZeros_dvd 32 base)
  · have hle : fitOrder base stop ≤ (stop - base).log2 := by
      unfold fitOrder
      omega
    have hpow : 2 ^ fitOrder base stop ≤ 2 ^ (stop - base).log2 :=
      Nat.pow_le_pow_right (by decide) hle
    show base + 2 ^ fitOrder base stop ≤ stop
    omega
  · have hdvd : 2 ^ (fitOrder base stop + 1) ∣ base := by
      rw [Nat.pow_succ, Nat.mul_comm]
      exact hlow
    -- the alignment allows the next order, so the length does not
    have halign : fitOrder base stop < if base = 0 then MAX_ORDER else Word.trailingZeros 32
      base := by
      split
      · exact htop
      · exact Word.le_trailingZeros (by unfold MAX_ORDER at htop; omega) hdvd
    have hlog : fitOrder base stop = (stop - base).log2 := by
      unfold fitOrder at *
      omega
    show stop < base + 2 ^ (fitOrder base stop + 1)
    rw [hlog]
    omega

/-- What `add_frames` leaves: the run, carved, is free too. -/
structure Grown (b b' : Buddy) (l l' : Nat → List Nat) (live : List PowBlock)
    (A : Nat → Prop) (start stop : Nat) (cs : List PowBlock) : Prop where
  carved : Carved MAX_ORDER start stop cs
  perm : (freeBlocks l').Perm (cs ++ freeBlocks l)
  shape : Shape b' l' live (fun f => A f ∨ start ≤ f ∧ f < stop)
  steady : Steady live b b'
  count : b'.freeFrames = total (freeBlocks l')

/-- A block of new frames. -/
theorem Shape.extend (h : Shape b l held A) (hc : c.Aligned) (ho : c.order ≤ MAX_ORDER)
    (hstop : c.stop ≤ b.nframes) (hnew : ∀ f ∈ c, ¬ A f) :
    Shape b l (c :: held) (fun f => A f ∨ f ∈ c) := by
  have hone : Tiles MAX_ORDER (· ∈ c) [c] :=
    ⟨fun d hd => by rwa [List.mem_singleton.mp hd], fun d hd => by rwa [List.mem_singleton.mp hd],
      List.pairwise_singleton _ _, fun f => by simp⟩
  refine ⟨h.lists, (hone.append h.tiles hnew).congr fun f => Or.comm, fun f hf => ?_⟩
  rcases hf with hf | hf
  · exact h.inside f hf
  · exact Nat.lt_of_lt_of_le hf.2 hstop

theorem grown_nil (h : Shape b l live A) (hcount : b.freeFrames = total (freeBlocks l))
    (hbase : base = stop) : Grown b b l l live A base stop [] := by
  subst hbase
  exact ⟨.done _, .refl _, h.congr fun f => ⟨Or.inl, fun hf => hf.resolve_right (by omega)⟩,
    .refl _ _, hcount⟩

theorem addLoop_ends (n base stop : Nat) (hn : stop - base ≤ n) (hle : base ≤ stop)
    (hstop : stop ≤ b.nframes) (h : Shape b l live A) (hcount : b.freeFrames = total (freeBlocks l))
    (hnew : ∀ f, base ≤ f → f < stop → ¬ A f) :
    Ends (addLoop stop n base) b (fun _ b' => ∃ l' cs, Grown b b' l l' live A base stop cs)
      (fun _ _ => False) := by
  induction n generalizing b l A base with
  | zero =>
    rw [addLoop, ends_pure]
    exact ⟨l, [], grown_nil h hcount (by omega)⟩
  | succ n ih =>
    rw [addLoop, ends_ite]
    refine ⟨fun hlt => ?_, fun hge => ?_⟩
    · have hsmall := h.lists.small
      unfold NIL at hsmall
      obtain ⟨hlead, hlog⟩ :=
        Word.sub_leadingZeros (w := 32) (n := stop - base) (by omega) (by omega)
      have hlog' : 31 - Word.leadingZeros 32 (stop - base) = (stop - base).log2 := hlog
      rw [ends_bind, ends_minus (by omega), ends_bind, ends_minus hlead, hlog', ends_bind]
      obtain ⟨hal, htop, hfit, hmax⟩ := fitOrder_spec hlt
      unfold fitOrder at hal htop hfit hmax
      generalize min (min (if base = 0 then MAX_ORDER else Word.trailingZeros 32 base)
        (stop - base).log2) MAX_ORDER = o at hal htop hfit hmax ⊢
      have ho32 : o < 32 := by unfold MAX_ORDER at htop; omega
      have hsize : (PowBlock.mk base o).stop = base + 2 ^ o := rfl
      have hpos := Nat.two_pow_pos o
      -- the block joins the held ones, so the count still fits
      have hext := h.extend hal htop (Nat.le_trans hfit hstop) fun f hf =>
        hnew f hf.1 (Nat.lt_of_lt_of_le hf.2 hfit)
      have htotal := hext.total_le
      rw [total_cons] at htotal
      have hblock : (PowBlock.mk base o).size = 2 ^ o := rfl
      rw [ends_bit ho32, ends_bind, ends_get, ends_bind, ends_plus (by omega), ends_bind,
        ends_modify, ends_bind]
      refine ((hext.recount (b.freeFrames + 2 ^ o)).insert).imp_ok fun _ b₁ hi => ?_
      obtain ⟨l₁, hperm₁, hshape₁, hsteady₁, hcount₁⟩ := hi
      have hcount' : b₁.freeFrames = total (freeBlocks l₁) := by
        rw [hcount₁, total_perm hperm₁, total_cons, hblock, ← hcount, Nat.add_comm]
      rw [ends_bind, ends_plus (by omega)]
      refine (ih (base + 2 ^ o) (by omega) (by omega) (by rw [hsteady₁.nframes]; exact hstop)
        hshape₁ hcount' fun f h1 h2 => ?_).imp (fun _ b' hg => ?_) (fun _ _ hf => hf)
      · rintro (hf | hf)
        · exact hnew f (by omega) h2 hf
        · have := (mem_def.mp hf).2
          omega
      · obtain ⟨l', cs, hcarved, hperm, hshape, hsteady, hc⟩ := hg
        have hst := hsteady₁.trans hsteady
        refine ⟨l', ⟨base, o⟩ :: cs, .block hal htop hfit hmax hcarved, ?_,
          hshape.congr fun f => ?_, ⟨hst.nframes, hst.orders⟩, hc⟩
        · exact (hperm.trans (hperm₁.append_left cs)).trans List.perm_middle
        · rw [mem_def, or_assoc, hsize]
          refine or_congr_right ?_
          show (base ≤ f ∧ f < base + 2 ^ o) ∨ base + 2 ^ o ≤ f ∧ f < stop ↔ base ≤ f ∧ f < stop
          omega
    · rw [ends_pure]
      exact ⟨l, [], grown_nil h hcount (by omega)⟩

/-- **`add_frames`** releases a run of new frames. -/
theorem addFrames_ends (start count : Nat) (hrange : start + count ≤ b.nframes)
    (h : Shape b l live A) (hcount : b.freeFrames = total (freeBlocks l))
    (hnew : ∀ f, start ≤ f → f < start + count → ¬ A f) :
    Ends (addFrames start count) b (fun _ b' => ∃ l' cs, Grown b b' l l' live A start
      (start + count) cs)
      (fun _ _ => False) := by
  have hsmall := h.lists.small
  unfold NIL at hsmall
  have hfits : start + count < 0x100000000 := by omega
  unfold addFrames
  rw [Word.narrow_eq_some.mpr ⟨hfits, rfl⟩]
  dsimp only
  rw [ends_bind, ends_get, ends_bind, ends_refuseIf]
  refine ⟨fun hc => absurd hrange hc, fun _ => ?_⟩
  rw [ends_ite]
  refine ⟨fun h0 => ?_, fun h0 => ?_⟩
  · rw [ends_pure]
    exact ⟨l, [], grown_nil h hcount (by omega)⟩
  · rw [ends_bind, ends_plus hfits]
    exact addLoop_ends _ start (start + count) (Nat.le_refl _) (by omega) hrange h hcount hnew

end Buddy

end Praesidium
