import Mathlib.Logic.Function.Basic
import Praesidium.Lib.Dll
import Praesidium.Lib.Fallible
import Praesidium.Lib.PowBlock
import Praesidium.Lib.Word

/-!
The buddy allocator (`mem/src/buddy.rs`), and what its free lists hold.

Frame numbers are `u32`s: numbers here, with the additions, subtractions and shifts that could
leave 32 bits checked where the code makes them.  An index out of an array, an overflow and a
failed `debug_assert!` are a `Fault`.

`Lists b l` says that the descriptors and heads of `b` hold, for each order, the doubly linked
list `l order`, and that the lists hold exactly the descriptors marked free.  The two operations
on the lists keep it:

    Lists b l → insert base o puts base in front of l o        (insert_lists)
    Lists b l → unlink base o takes base out of l o            (unlink_lists)
-/

namespace Praesidium

structure FrameDesc where
  next : Nat
  prev : Nat
  order : Nat
  free : Bool
  deriving DecidableEq, Repr

/-- `heads` is the array the source calls `free`. -/
structure Buddy where
  desc : List FrameDesc
  heads : List Nat
  nframes : Nat
  freeFrames : Nat
  deriving DecidableEq, Repr

namespace Buddy

open Fallible

/-- No frame. -/
def NIL : Nat := 0xffffffff

def MAX_ORDER : Nat := 18

def RESERVED : FrameDesc := ⟨NIL, NIL, 0, false⟩

inductive Fault where
  | overflow
  | bounds
  | assertion
  deriving DecidableEq, Repr

abbrev Prog (α : Type) := EStateM Fault Buddy α

/-! ## Machine operations -/

/-- `a + b` on `u32`s -/
def plus (a b : Nat) : Prog Nat := okOr (Word.narrow 32 (a + b)) .overflow

/-- `a - b` on `u32`s -/
def minus (a b : Nat) : Prog Nat := if b ≤ a then pure (a - b) else throw .overflow

/-- `1u32 << order` -/
def bit (order : Nat) : Prog Nat := if order < 32 then pure (2 ^ order) else throw .overflow

/-- `self.desc[i]` -/
def readDesc (i : Nat) : Prog FrameDesc := do okOr (← get).desc[i]? .bounds

/-- `self.desc[i] = d` -/
def writeDesc (i : Nat) (d : FrameDesc) : Prog Unit := do
  refuseIf ((← get).desc.length ≤ i) .bounds
  modify fun b => { b with desc := b.desc.set i d }

/-- `self.desc[i].next = p` -/
def setNext (i p : Nat) : Prog Unit := do writeDesc i { ← readDesc i with next := p }

/-- `self.desc[i].prev = p` -/
def setPrev (i p : Nat) : Prog Unit := do writeDesc i { ← readDesc i with prev := p }

/-- `self.desc[i].order = order` -/
def setOrder (i order : Nat) : Prog Unit := do writeDesc i { ← readDesc i with order := order }

/-- `self.desc[i].free = false` -/
def clearFree (i : Nat) : Prog Unit := do writeDesc i { ← readDesc i with free := false }

/-- `self.free[order]` -/
def readHead (order : Nat) : Prog Nat := do okOr (← get).heads[order]? .bounds

/-- `self.free[order] = p` -/
def writeHead (order p : Nat) : Prog Unit := do
  refuseIf ((← get).heads.length ≤ order) .bounds
  modify fun b => { b with heads := b.heads.set order p }

/-- `self.desc[i].order = order; self.desc[i].free = false` -/
def setTaken (i order : Nat) : Prog Unit := do
  setOrder i order
  clearFree i

/-- `if i != NIL { self.desc[i].prev = p }` -/
def linkPrev (i p : Nat) : Prog Unit := if i ≠ NIL then setPrev i p else pure ()

/-- `if i != NIL { self.desc[i].next = p } else { self.free[order] = p }` -/
def linkNext (order i p : Nat) : Prog Unit := if i ≠ NIL then setNext i p else writeHead order p

/-! ## The allocator -/

def new (desc : List FrameDesc) : Buddy :=
  ⟨desc.map fun _ => RESERVED, List.replicate (MAX_ORDER + 1) NIL, desc.length % 0x100000000, 0⟩

def insert (base order : Nat) : Prog Unit := do
  let head ← readHead order
  writeDesc base ⟨head, NIL, order, true⟩
  linkPrev head base
  writeHead order base

def unlink (base order : Nat) : Prog Unit := do
  let ⟨next, prev, _, _⟩ ← readDesc base
  linkNext order prev next
  linkPrev next prev
  clearFree base

/-- The `while` loop of `add_frames`; each round takes at least one frame, so `stop - base`
rounds are enough. -/
def addLoop (stop : Nat) : Nat → Nat → Prog Unit
  | 0, _ => pure ()
  | n + 1, base =>
    if base < stop then do
      let alignOrder := if base = 0 then MAX_ORDER else Word.trailingZeros 32 base
      let left ← minus stop base
      let sizeOrder ← minus 31 (Word.leadingZeros 32 left)
      let order := min (min alignOrder sizeOrder) MAX_ORDER
      let size ← bit order
      let freeFrames ← plus (← get).freeFrames size
      modify fun b => { b with freeFrames := freeFrames }
      insert base order
      let base ← plus base size
      addLoop stop n base
    else pure ()

def addFrames (start count : Nat) : Prog Unit := do
  match Word.narrow 32 (start + count) with
  | none => throw .assertion
  | some e => refuseIf (¬ e ≤ (← get).nframes) .assertion
  if count = 0 then pure () else do
    let stop ← plus start count
    addLoop stop (stop - start) start

/-- `while o <= MAX_ORDER && self.free[o] == NIL { o += 1 }` -/
def findLoop : Nat → Nat → Prog Nat
  | 0, o => pure o
  | n + 1, o =>
    if o ≤ MAX_ORDER then do
      if (← readHead o) = NIL then findLoop n (o + 1) else pure o
    else pure o

/-- `while o > order { o -= 1; … }` -/
def splitLoop (base order : Nat) : Nat → Prog Unit
  | 0 => pure ()
  | o + 1 =>
    if order < o + 1 then do
      let upper ← plus base (← bit o)
      insert upper o
      splitLoop base order o
    else pure ()

def alloc (order : Nat) : Prog (Option Nat) := do
  if MAX_ORDER < order then pure none else do
    let o ← findLoop (MAX_ORDER + 1 - order) order
    if MAX_ORDER < o then pure none else do
      let base ← readHead o
      unlink base o
      splitLoop base order o
      setTaken base order
      let freeFrames ← minus (← get).freeFrames (← bit order)
      modify fun b => { b with freeFrames := freeFrames }
      pure (some base)

/-- The `while` loop of `coalesce`; the order grows in each round. -/
def coalesceLoop : Nat → Nat → Nat → Prog (Nat × Nat)
  | 0, base, order => pure (base, order)
  | n + 1, base, order =>
    if order < MAX_ORDER then do
      let buddy := base ^^^ (← bit order)
      if (← get).nframes ≤ buddy then pure (base, order)
      else do
        let bd ← readDesc buddy
        if bd.free = false ∨ bd.order ≠ order then pure (base, order)
        else do
          unlink buddy order
          coalesceLoop n (if buddy < base then buddy else base) (order + 1)
    else pure (base, order)

def coalesce (base order : Nat) : Prog Unit := do
  let r ← coalesceLoop (MAX_ORDER - order) base order
  insert r.1 r.2

def free (base : Nat) : Prog Unit := do
  refuseIf (¬ base < (← get).nframes) .assertion
  refuseIf ((← readDesc base).free = true) .assertion
  let d ← readDesc base
  let freeFrames ← plus (← get).freeFrames (← bit d.order)
  modify fun b => { b with freeFrames := freeFrames }
  coalesce base d.order

/-! ## Reading and writing the state -/

/-- The descriptor of frame `i`. -/
def node (b : Buddy) (i : Nat) : FrameDesc := (b.desc[i]?).getD RESERVED

/-- The head of the list of an order. -/
def head (b : Buddy) (o : Nat) : Nat := (b.heads[o]?).getD NIL

def put (b : Buddy) (i : Nat) (d : FrameDesc) : Buddy := { b with desc := b.desc.set i d }

def putHead (b : Buddy) (o p : Nat) : Buddy := { b with heads := b.heads.set o p }

/-- The arrays keep their lengths and the counts stay. -/
structure SameSize (b b' : Buddy) : Prop where
  desc : b'.desc.length = b.desc.length
  heads : b'.heads.length = b.heads.length
  nframes : b'.nframes = b.nframes
  freeFrames : b'.freeFrames = b.freeFrames

theorem SameSize.trans {b b' b'' : Buddy} (h : SameSize b b') (h' : SameSize b' b'') :
    SameSize b b'' :=
  ⟨h'.desc.trans h.desc, h'.heads.trans h.heads, h'.nframes.trans h.nframes,
  h'.freeFrames.trans h.freeFrames⟩

section Primitives

variable {b : Buddy} {i o : Nat} {d : FrameDesc} {E : Fault → Buddy → Prop}

theorem put_sameSize (b : Buddy) (i : Nat) (d : FrameDesc) : SameSize b (b.put i d) :=
  ⟨List.length_set, rfl, rfl, rfl⟩

theorem putHead_sameSize (b : Buddy) (o p : Nat) : SameSize b (b.putHead o p) :=
  ⟨rfl, List.length_set, rfl, rfl⟩

theorem node_put (hi : i < b.desc.length) (j : Nat) :
    (b.put i d).node j = if j = i then d else b.node j := by
  unfold node put
  by_cases hj : j = i
  · subst hj
    rw [if_pos rfl, List.getElem?_set_self hi]
    rfl
  · rw [if_neg hj, List.getElem?_set_ne (Ne.symm hj)]

variable {p x y : Nat} {Q : Unit → Buddy → Prop}

theorem head_putHead (ho : o < b.heads.length) (o' : Nat) :
    (b.putHead o p).head o' = if o' = o then p else b.head o' := by
  unfold head putHead
  by_cases hj : o' = o
  · subst hj
    rw [if_pos rfl, List.getElem?_set_self ho]
    rfl
  · rw [if_neg hj, List.getElem?_set_ne (Ne.symm hj)]

theorem ends_readHead {Q : Nat → Buddy → Prop} (ho : o < b.heads.length) :
    Ends (readHead o) b Q E ↔ Q (b.head o) b := by
  unfold readHead head
  rw [ends_bind, ends_get, List.getElem?_eq_getElem ho]
  exact Iff.rfl

theorem ends_writeHead (ho : o < b.heads.length) :
    Ends (writeHead o p) b Q E ↔ Q () (b.putHead o p) := by
  unfold writeHead
  simp only [ends_bind, ends_get, ends_refuseIf, ends_modify]
  exact ⟨fun h => h.2 (by omega), fun h => ⟨fun hc => by omega, fun _ => h⟩⟩

section

variable (hi : i < b.desc.length)

include hi

theorem ends_readDesc {Q : FrameDesc → Buddy → Prop} :
    Ends (readDesc i) b Q E ↔ Q (b.node i) b := by
  unfold readDesc node
  rw [ends_bind, ends_get, List.getElem?_eq_getElem hi]
  exact Iff.rfl

theorem ends_writeDesc :
    Ends (writeDesc i d) b Q E ↔ Q () (b.put i d) := by
  unfold writeDesc
  simp only [ends_bind, ends_get, ends_refuseIf, ends_modify]
  exact ⟨fun h => h.2 (by omega), fun h => ⟨fun hc => by omega, fun _ => h⟩⟩

theorem ends_setNext :
    Ends (setNext i p) b Q E ↔ Q () (b.put i { b.node i with next := p }) := by
  unfold setNext
  rw [ends_bind, ends_readDesc hi, ends_writeDesc hi]

theorem ends_setPrev :
    Ends (setPrev i p) b Q E ↔ Q () (b.put i { b.node i with prev := p }) := by
  unfold setPrev
  rw [ends_bind, ends_readDesc hi, ends_writeDesc hi]

theorem ends_setOrder {order : Nat} :
    Ends (setOrder i order) b Q E ↔ Q () (b.put i { b.node i with order := order }) := by
  unfold setOrder
  rw [ends_bind, ends_readDesc hi, ends_writeDesc hi]

theorem ends_clearFree :
    Ends (clearFree i) b Q E ↔ Q () (b.put i { b.node i with free := false }) := by
  unfold clearFree
  rw [ends_bind, ends_readDesc hi, ends_writeDesc hi]

end

theorem ends_plus {Q : Nat → Buddy → Prop} (h : x + y < 0x100000000) :
    Ends (plus x y) b Q E ↔ Q (x + y) b := by
  unfold plus
  rw [Word.narrow_eq_some.mpr ⟨h, rfl⟩]
  exact Iff.rfl

theorem ends_minus {Q : Nat → Buddy → Prop} (h : y ≤ x) : Ends (minus x y) b Q E ↔ Q (x - y) b := by
  unfold minus
  rw [if_pos h, ends_pure]

theorem ends_bit {Q : Nat → Buddy → Prop} (h : o < 32) : Ends (bit o) b Q E ↔ Q (2 ^ o) b := by
  unfold bit
  rw [if_pos h, ends_pure]

end Primitives

/-! ## What `insert` and `unlink` write -/

structure Inserted (base o : Nat) (b b' : Buddy) : Prop where
  size : SameSize b b'
  head : ∀ o', b'.head o' = if o' = o then base else b.head o'
  own : b'.node base = ⟨b.head o, NIL, o, true⟩
  node : ∀ i, i ≠ base → b'.node i = if i = b.head o ∧
    i ≠ NIL then { b.node i with prev := base } else b.node i

structure Unlinked (base o : Nat) (b b' : Buddy) : Prop where
  size : SameSize b b'
  head : ∀ o', b'.head o' = if o' = o ∧
    (b.node base).prev = NIL then (b.node base).next else b.head o'
  own : (b'.node base).free = false
  next : ∀ i, i ≠ base → i ≠ NIL →
    (b'.node i).next = if i = (b.node base).prev then (b.node base).next else (b.node i).next
  prev : ∀ i, i ≠ base → i ≠ NIL →
    (b'.node i).prev = if i = (b.node base).next then (b.node base).prev else (b.node i).prev
  kept : ∀ i, i ≠ base → (b'.node i).free = (b.node i).free ∧ (b'.node i).order = (b.node i).order

variable {b b' : Buddy} {base o : Nat}

variable {i p : Nat}

theorem linkPrev_ends (hi : i ≠ NIL → i < b.desc.length) :
    Ends (linkPrev i p) b (fun _ b' => SameSize b b' ∧ b'.heads = b.heads ∧
      ∀ j, b'.node j = if j = i ∧ i ≠ NIL then { b.node j with prev := p } else b.node j)
        (fun _ _ => False) := by
  unfold linkPrev
  rw [ends_ite]
  refine ⟨fun hnil => ?_, fun hnil => ?_⟩
  · rw [ends_setPrev (hi hnil)]
    refine ⟨put_sameSize _ _ _, rfl, fun j => ?_⟩
    rw [node_put (hi hnil)]
    by_cases hj : j = i
    · rw [if_pos hj, if_pos ⟨hj, hnil⟩, hj]
    · rw [if_neg hj, if_neg fun hc => hj hc.1]
  · rw [ends_pure]
    exact ⟨⟨rfl, rfl, rfl, rfl⟩, rfl, fun j => by rw [if_neg fun hc => hnil hc.2]⟩

theorem insert_ends (hb : base < b.desc.length) (ho : o < b.heads.length) (hne : b.head o ≠ base)
    (hh : b.head o ≠ NIL → b.head o < b.desc.length) :
    Ends (insert base o) b (fun _ => Inserted base o b) (fun _ _ => False) := by
  unfold insert
  rw [ends_bind, ends_readHead ho, ends_bind, ends_writeDesc hb, ends_bind]
  have hsize := put_sameSize b base ⟨b.head o, NIL, o, true⟩
  refine (linkPrev_ends (by rw [hsize.desc]; exact hh)).imp_ok fun _ b₁ h => ?_
  obtain ⟨hsize₁, hheads, hnode⟩ := h
  have ho₁ : o < b₁.heads.length := by rw [hheads]; exact ho
  rw [ends_writeHead ho₁]
  refine ⟨(hsize.trans hsize₁).trans (putHead_sameSize _ _ _), fun o' => ?_, ?_, fun i hi => ?_⟩
  · rw [head_putHead ho₁]
    unfold head
    rw [hheads]
    rfl
  · show b₁.node base = _
    rw [hnode, if_neg fun hc => hne hc.1.symm, node_put hb, if_pos rfl]
  · show b₁.node i = _
    rw [hnode, node_put hb, if_neg hi]
    by_cases hi' : i = b.head o
    · simp only [hi', true_and]
    · rw [if_neg fun hc => hi' hc.1, if_neg fun hc => hi' hc.1]

theorem linkNext_ends (hi : i ≠ NIL → i < b.desc.length) (ho : o < b.heads.length) :
    Ends (linkNext o i p) b (fun _ b' => SameSize b b' ∧
      (∀ o', b'.head o' = if o' = o ∧ i = NIL then p else b.head o') ∧
      ∀ j, b'.node j = if j = i ∧ i ≠ NIL then { b.node j with next := p } else b.node j)
        (fun _ _ => False) := by
  unfold linkNext
  rw [ends_ite]
  refine ⟨fun hnil => ?_, fun hnil => ?_⟩
  · rw [ends_setNext (hi hnil)]
    refine ⟨put_sameSize _ _ _, fun o' => by rw [if_neg fun hc => hnil hc.2]; rfl, fun j => ?_⟩
    rw [node_put (hi hnil)]
    by_cases hj : j = i
    · rw [if_pos hj, if_pos ⟨hj, hnil⟩, hj]
    · rw [if_neg hj, if_neg fun hc => hj hc.1]
  · rw [ends_writeHead ho]
    refine ⟨putHead_sameSize _ _ _, fun o' => ?_, fun j => by rw [if_neg fun hc => hnil hc.2]; rfl⟩
    rw [head_putHead ho]
    simp only [not_ne_iff.mp hnil, and_true]

theorem unlink_ends (hb : base < b.desc.length) (ho : o < b.heads.length)
    (hprev : (b.node base).prev ≠ NIL → (b.node base).prev < b.desc.length)
    (hnext : (b.node base).next ≠ NIL → (b.node base).next < b.desc.length) :
    Ends (unlink base o) b (fun _ => Unlinked base o b) (fun _ _ => False) := by
  unfold unlink
  rw [ends_bind, ends_readDesc hb]
  dsimp only
  rw [ends_bind]
  refine (linkNext_ends hprev ho).imp_ok fun _ b₁ h => ?_
  obtain ⟨hsize₁, hhead₁, hnode₁⟩ := h
  rw [ends_bind]
  refine (linkPrev_ends (by rw [hsize₁.desc]; exact hnext)).imp_ok fun _ b₂ h => ?_
  obtain ⟨hsize₂, hheads₂, hnode₂⟩ := h
  have hb₂ : base < b₂.desc.length := by rw [hsize₂.desc, hsize₁.desc]; exact hb
  rw [ends_clearFree hb₂]
  have hnode : ∀ i, i ≠ base → (b₂.put base { b₂.node base with free := false }).node i =
    b₂.node i := fun i hi => by
    rw [node_put hb₂, if_neg hi]
  have hlink : ∀ i p : Nat, i ≠ NIL → ((i = p ∧ p ≠ NIL) ↔ i = p) :=
    fun i p hi => ⟨And.left, fun h => ⟨h, h ▸ hi⟩⟩
  refine ⟨(hsize₁.trans hsize₂).trans (put_sameSize _ _ _), fun o' => ?_, ?_, fun i hi hnil =>
    ?_, fun i hi hnil => ?_, fun i hi => ?_⟩
  · rw [← hhead₁ o']
    show (b₂.heads[o']?).getD NIL = (b₁.heads[o']?).getD NIL
    rw [hheads₂]
  · rw [node_put hb₂, if_pos rfl]
  · rw [hnode i hi, hnode₂, hnode₁]
    simp only [hlink i _ hnil]
    split <;> split <;> rfl
  · rw [hnode i hi, hnode₂, hnode₁]
    simp only [hlink i _ hnil]
    split <;> split <;> rfl
  · rw [hnode i hi, hnode₂, hnode₁]
    split <;> split <;> exact ⟨rfl, rfl⟩

/-! ## The free lists -/

/-- The free lists of `b`, by order. -/
structure Lists (b : Buddy) (l : Nat → List Nat) : Prop where
  desc : b.desc.length = b.nframes
  heads : b.heads.length = MAX_ORDER + 1
  small : b.nframes ≤ NIL
  linked : ∀ o, o ≤ MAX_ORDER →
    Dll.Linked NIL (fun i => (b.node i).next) (fun i => (b.node i).prev) NIL (b.head o) (l o)
  nodup : ∀ o, o ≤ MAX_ORDER → (l o).Nodup
  mem : ∀ o, o ≤ MAX_ORDER → ∀ i, i ∈ l o ↔ i < b.nframes ∧ (b.node i).free = true ∧
    (b.node i).order = o
  top : ∀ i, i < b.nframes → (b.node i).free = true → (b.node i).order ≤ MAX_ORDER

/-- Only the mark and the order of `base` may change. -/
structure Kept (base : Nat) (b b' : Buddy) : Prop where
  size : SameSize b b'
  node : ∀ i, i ≠ base → (b'.node i).free = (b.node i).free ∧ (b'.node i).order = (b.node i).order

variable {l : Nat → List Nat}

theorem Lists.lt (h : Lists b l) (ho : o ≤ MAX_ORDER) (hi : i ∈ l o) : i < b.desc.length := by
  rw [h.desc]
  exact ((h.mem o ho i).mp hi).1

theorem Lists.head_lt (h : Lists b l) (ho : o ≤ MAX_ORDER) (hnil : b.head o ≠ NIL) :
    b.head o ∈ l o := by
  rcases (h.linked o ho).head with ⟨hc, -⟩ | ⟨-, l', hl⟩
  · exact absurd hc hnil
  · rw [hl]
    exact List.mem_cons_self

/-- A frame is in one list. -/
theorem Lists.order_unique (h : Lists b l) {o o' : Nat} (ho : o ≤ MAX_ORDER) (ho' : o' ≤ MAX_ORDER)
    (hi : i ∈ l o) (hi' : i ∈ l o') : o = o' :=
  ((h.mem o ho i).mp hi).2.2.symm.trans ((h.mem o' ho' i).mp hi').2.2

/-- **`insert` puts a frame that is in no list in front of one.** -/
theorem insert_lists (h : Lists b l) (hb : base < b.nframes) (hfree : (b.node base).free = false)
    (ho : o ≤ MAX_ORDER) :
    Ends (insert base o) b (fun _ b' => Lists b' (Function.update l o (base :: l o)) ∧
      Kept base b b')
      (fun _ _ => False) := by
  have hnot : ∀ o', o' ≤ MAX_ORDER → base ∉ l o' := fun o' ho' hc => by
    have := ((h.mem o' ho' base).mp hc).2.1
    rw [hfree] at this
    cases this
  have hne : ∀ o', o' ≤ MAX_ORDER → ∀ i ∈ l o', i ≠ base :=
    fun o' ho' i hi hc => hnot o' ho' (hc ▸ hi)
  have hhead : b.head o ≠ base := by
    intro hc
    by_cases hnil : b.head o = NIL
    · have := h.small
      omega
    · exact hne o ho _ (h.head_lt ho hnil) hc
  refine (insert_ends (by rw [h.desc]; exact hb) (by rw [h.heads]; omega) hhead
    (fun hnil => h.lt ho (h.head_lt ho hnil))).imp_ok fun _ b' hi => ?_
  have hkept : Kept base b b' :=
    ⟨hi.size, fun i hib => by rw [hi.node i hib]; split <;> exact ⟨rfl, rfl⟩⟩
  refine ⟨⟨hi.size.desc.trans (h.desc.trans hi.size.nframes.symm), hi.size.heads.trans h.heads,
    hi.size.nframes ▸ h.small,
    fun o' ho' => ?_, fun o' ho' => ?_, fun o' ho' i => ?_, fun i hin hif => ?_⟩, hkept⟩
  · rw [hi.head]
    by_cases hoo : o' = o
    · subst hoo
      rw [if_pos rfl, Function.update_self]
      refine (h.linked o' ho').push (h.nodup o' ho') (by have := h.small; omega) (by rw [hi.own])
        (by rw [hi.own]) (fun y hy => ?_) (fun y hy => ?_)
      · rw [hi.node y (hne o' ho' y hy)]
        split <;> rfl
      · have hy' : y ≠ NIL := (h.linked o' ho').ne_nil hy
        rw [hi.node y (hne o' ho' y hy)]
        by_cases hyh : y = b.head o'
        · rw [if_pos ⟨hyh, hy'⟩, if_pos hyh]
        · rw [if_neg fun hc => hyh hc.1, if_neg hyh]
    · rw [if_neg hoo, Function.update_of_ne hoo]
      -- the other lists do not contain the old head
      have hsame : ∀ y ∈ l o', b'.node y = b.node y := fun y hy => by
        rw [hi.node y (hne o' ho' y hy), if_neg]
        rintro ⟨hyh, hy'⟩
        exact hoo (h.order_unique ho' ho hy (hyh ▸ h.head_lt ho (hyh ▸ hy')))
      exact (h.linked o' ho').congr (fun y hy => by rw [hsame y hy])
        (fun y hy => by rw [hsame y hy])
  · by_cases hoo : o' = o
    · subst hoo
      rw [Function.update_self]
      exact List.nodup_cons.mpr ⟨hnot o' ho', h.nodup o' ho'⟩
    · rw [Function.update_of_ne hoo]
      exact h.nodup o' ho'
  · rw [hi.size.nframes]
    by_cases hib : i = base
    · subst hib
      rw [hi.own]
      by_cases hoo : o' = o
      · subst hoo
        rw [Function.update_self]
        exact ⟨fun _ => ⟨hb, rfl, rfl⟩, fun _ => List.mem_cons_self⟩
      · rw [Function.update_of_ne hoo]
        exact ⟨fun hc => absurd hc (hnot o' ho'), fun hc => absurd hc.2.2.symm hoo⟩
    · obtain ⟨hf, hor⟩ := hkept.node i hib
      rw [hf, hor, ← h.mem o' ho' i]
      by_cases hoo : o' = o
      · subst hoo
        rw [Function.update_self, List.mem_cons]
        exact ⟨fun hc => hc.resolve_left hib, Or.inr⟩
      · rw [Function.update_of_ne hoo]
  · rw [hi.size.nframes] at hin
    by_cases hib : i = base
    · rw [hib, hi.own]
      exact ho
    · obtain ⟨hf, hor⟩ := hkept.node i hib
      rw [hor]
      exact h.top i hin (hf ▸ hif)

/-- **`unlink` takes a frame out of its list.** -/
theorem unlink_lists (h : Lists b l) (ho : o ≤ MAX_ORDER) (hb : base ∈ l o) :
    Ends (unlink base o) b (fun _ b' => Lists b' (Function.update l o ((l o).erase base)) ∧
      Kept base b b' ∧
      (b'.node base).free = false) (fun _ _ => False) := by
  have hprev : (b.node base).prev = NIL ∨ (b.node base).prev ∈ l o :=
    ((h.linked o ho).prev_mem hb).imp And.right id
  have hnext : (b.node base).next = NIL ∨ (b.node base).next ∈ l o := (h.linked o ho).next_mem hb
  refine (unlink_ends (h.lt ho hb) (by rw [h.heads]; omega) (fun hnil =>
    h.lt ho (hprev.resolve_left hnil))
    (fun hnil => h.lt ho (hnext.resolve_left hnil))).imp_ok fun _ b' hu => ?_
  have hkept : Kept base b b' := ⟨hu.size, hu.kept⟩
  refine ⟨⟨hu.size.desc.trans (h.desc.trans hu.size.nframes.symm), hu.size.heads.trans h.heads,
    hu.size.nframes ▸ h.small,
    fun o' ho' => ?_, fun o' ho' => ?_, fun o' ho' i => ?_, fun i hin hif => ?_⟩, hkept, hu.own⟩
  · rw [hu.head]
    by_cases hoo : o' = o
    · subst hoo
      have hnil := fun y hy => (h.linked o' ho').ne_nil (x := y) hy
      rw [Function.update_self]
      simp only [true_and]
      exact (h.linked o' ho').unlink (h.nodup o' ho') (fun hc => hnil NIL hc rfl) hb
        (fun y hy hyb => hu.next y hyb (hnil y hy)) (fun y hy hyb => hu.prev y hyb (hnil y hy))
    · rw [if_neg fun hc => hoo hc.1, Function.update_of_ne hoo]
      -- the neighbours are in the list of `base`
      have hout : ∀ y ∈ l o', y ∉ l o := fun y hy hc => hoo (h.order_unique ho' ho hy hc)
      have hnil := fun y hy => (h.linked o' ho').ne_nil (x := y) hy
      have hyb : ∀ y ∈ l o', y ≠ base := fun y hy hc => hout y hy (hc ▸ hb)
      refine (h.linked o' ho').congr (fun y hy => ?_) (fun y hy => ?_)
      · rw [hu.next y (hyb y hy) (hnil y hy), if_neg]
        rintro hc
        rcases hprev with hp | hp
        · exact hnil y hy (hc.trans hp)
        · exact hout y hy (hc ▸ hp)
      · rw [hu.prev y (hyb y hy) (hnil y hy), if_neg]
        rintro hc
        rcases hnext with hp | hp
        · exact hnil y hy (hc.trans hp)
        · exact hout y hy (hc ▸ hp)
  · by_cases hoo : o' = o
    · subst hoo
      rw [Function.update_self]
      exact (h.nodup o' ho').erase base
    · rw [Function.update_of_ne hoo]
      exact h.nodup o' ho'
  · rw [hu.size.nframes]
    by_cases hib : i = base
    · subst hib
      rw [hu.own]
      refine ⟨fun hc => ?_, fun hc => by cases hc.2.1⟩
      by_cases hoo : o' = o
      · subst hoo
        rw [Function.update_self] at hc
        exact absurd hc (h.nodup o' ho').not_mem_erase
      · rw [Function.update_of_ne hoo] at hc
        exact absurd (h.order_unique ho' ho hc hb) hoo
    · obtain ⟨hf, hor⟩ := hkept.node i hib
      rw [hf, hor, ← h.mem o' ho' i]
      by_cases hoo : o' = o
      · subst hoo
        rw [Function.update_self, List.mem_erase_of_ne hib]
      · rw [Function.update_of_ne hoo]
  · rw [hu.size.nframes] at hin
    have hib : i ≠ base := fun hc => by
      rw [hc, hu.own] at hif
      cases hif
    obtain ⟨hf, hor⟩ := hkept.node i hib
    rw [hor]
    exact h.top i hin (hf ▸ hif)

end Buddy

end Praesidium
