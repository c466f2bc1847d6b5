import Mathlib.Algebra.Group.Nat.Defs
import Mathlib.Tactic.Common

/-!
Byte buffers and little-endian words.

A buffer is a list of bytes.  `slice b off n` reads a range of it and `patch b off xs`
overwrites one; `Holds b off xs` says that `xs` stands at `off`.  A word is read from
`slice` by `word` and written as `leBytes`.

    Holds b off (wordBytes v) → word w b off = v                       (Holds.word)
    off + xs.length ≤ b.length → Holds (patch b off xs) off xs         (holds_patch)
    ws pairwise apart → each of ws survives in patches b ws            (patches_spec)
-/

namespace Bytes

abbrev Byte := BitVec 8

/-! ## Little-endian numbers -/

def leNat : List Byte → Nat
  | [] => 0
  | b :: bs => b.toNat + 256 * leNat bs

def leBytes : Nat → Nat → List Byte
  | 0, _ => []
  | k + 1, n => BitVec.ofNat 8 n :: leBytes k (n / 256)

@[simp] theorem leBytes_length (k n : Nat) : (leBytes k n).length = k := by
  induction k generalizing n with
  | zero => rfl
  | succ k ih => rw [leBytes, List.length_cons, ih]

theorem leNat_lt (bs : List Byte) : leNat bs < 256 ^ bs.length := by
  induction bs with
  | nil => exact Nat.one_pos
  | cons b bs ih =>
    have hb := b.isLt
    rw [leNat, List.length_cons, Nat.pow_succ]
    omega

theorem leNat_leBytes (k n : Nat) (h : n < 256 ^ k) : leNat (leBytes k n) = n := by
  induction k generalizing n with
  | zero =>
    rw [Nat.pow_zero] at h
    rw [leBytes, leNat]
    omega
  | succ k ih =>
    rw [Nat.pow_succ] at h
    rw [leBytes, leNat, ih (n / 256) (by omega), BitVec.toNat_ofNat]
    omega

theorem leNat_replicate_zero (k : Nat) : leNat (List.replicate k 0) = 0 := by
  induction k with
  | zero => rfl
  | succ k ih =>
    rw [List.replicate_succ, leNat, ih]
    rfl

/-- Only zeros make a zero. -/
theorem leNat_eq_zero (bs : List Byte) : leNat bs = 0 ↔ bs = List.replicate bs.length 0 := by
  constructor
  · intro h
    induction bs with
    | nil => rfl
    | cons b bs ih =>
      rw [leNat] at h
      rw [List.length_cons, List.replicate_succ, ← ih (by omega)]
      congr 1
      exact BitVec.eq_of_toNat_eq (show b.toNat = 0 by omega)
  · intro h
    rw [h, leNat_replicate_zero]

/-! ## Ranges of a buffer -/

def slice (b : List Byte) (off n : Nat) : List Byte := (b.drop off).take n

/-- The word of `w` bits at `off`; past the end of the buffer the missing bytes are dropped. -/
def word (w : Nat) (b : List Byte) (off : Nat) : BitVec w :=
  BitVec.ofNat w (leNat (slice b off (w / 8)))

/-- `v.to_le_bytes()` -/
def wordBytes {w : Nat} (v : BitVec w) : List Byte := leBytes (w / 8) v.toNat

/-- `b[start..stop]`, unless it leaves the buffer -/
def range (b : List Byte) (start stop : Nat) : Option (List Byte) :=
  if start ≤ stop ∧ stop ≤ b.length then some (slice b start (stop - start)) else none

/-- `b[off..off + xs.len()].copy_from_slice(xs)` -/
def patch (b : List Byte) (off : Nat) (xs : List Byte) : List Byte :=
  b.take off ++ xs ++ b.drop (off + xs.length)

theorem slice_length (b : List Byte) (off n : Nat) (h : off + n ≤ b.length) :
    (slice b off n).length = n := by
  unfold slice
  rw [List.length_take, List.length_drop]
  omega

theorem getElem?_slice (b : List Byte) (off n i : Nat) :
    (slice b off n)[i]? = if i < n then b[off + i]? else none := by
  unfold slice
  rw [List.getElem?_take, List.getElem?_drop]

theorem range_eq_some (b : List Byte) (start stop : Nat) (xs : List Byte) :
    range b start stop = some xs ↔ start ≤ stop ∧ stop ≤ b.length ∧
      xs = slice b start (stop - start) := by
  unfold range
  split
  · next h =>
    rw [Option.some.injEq]
    exact ⟨fun e => ⟨h.1, h.2, e.symm⟩, fun e => e.2.2.symm⟩
  · next h => exact ⟨fun e => (by cases e), fun e => absurd ⟨e.1, e.2.1⟩ h⟩

theorem patch_length (b : List Byte) (off : Nat) (xs : List Byte) (h : off + xs.length ≤ b.length) :
    (patch b off xs).length = b.length := by
  unfold patch
  rw [List.length_append, List.length_append, List.length_take, List.length_drop]
  omega

theorem getElem?_patch (b : List Byte) (off : Nat) (xs : List Byte) (h : off + xs.length ≤ b.length)
    (i : Nat) :
    (patch b off xs)[i]? = if off ≤ i ∧ i < off + xs.length then xs[i - off]? else b[i]? := by
  have htake : (b.take off).length = off := by rw [List.length_take]; omega
  unfold patch
  rw [List.append_assoc]
  by_cases h1 : i < off
  · rw [if_neg (by omega), List.getElem?_append_left (by omega), List.getElem?_take, if_pos h1]
  · rw [List.getElem?_append_right (by omega), htake]
    by_cases h2 : i < off + xs.length
    · rw [if_pos ⟨by omega, h2⟩, List.getElem?_append_left (by omega)]
    · rw [if_neg (by omega), List.getElem?_append_right (by omega), List.getElem?_drop]
      congr 1
      omega

/-! ## What stands where -/

/-- The ranges of `n` bytes at `off` and of `m` bytes at `off'` have no byte in common. -/
def Apart (off n off' m : Nat) : Prop := off + n ≤ off' ∨ off' + m ≤ off

variable {b xs : List Byte} {off off' n w : Nat}

theorem slice_patch_apart (h : off + xs.length ≤ b.length) (ha : Apart off xs.length off' n) :
    slice (patch b off xs) off' n = slice b off' n := by
  apply List.ext_getElem?
  intro i
  unfold Apart at ha
  rw [getElem?_slice, getElem?_slice]
  by_cases hi : i < n
  · rw [if_pos hi, if_pos hi, getElem?_patch b off xs h, if_neg (by omega)]
  · rw [if_neg hi, if_neg hi]

/-- The bytes from `off` on are `xs`. -/
def Holds (b : List Byte) (off : Nat) (xs : List Byte) : Prop :=
  ∀ i, i < xs.length → b[off + i]? = xs[i]?

theorem holds_patch (b : List Byte) (off : Nat) (xs : List Byte) (h : off + xs.length ≤ b.length) :
    Holds (patch b off xs) off xs := by
  intro i hi
  rw [getElem?_patch b off xs h, if_pos ⟨by omega, by omega⟩, Nat.add_sub_cancel_left]

theorem Holds.patch {ys : List Byte} (hy : Holds b off' ys) (off : Nat) (xs : List Byte)
    (h : off + xs.length ≤ b.length) (ha : Apart off xs.length off' ys.length) :
    Holds (patch b off xs) off' ys := by
  intro i hi
  unfold Apart at ha
  rw [getElem?_patch b off xs h, if_neg (by omega)]
  exact hy i hi

theorem Holds.slice (h : Holds b off xs) : slice b off xs.length = xs := by
  apply List.ext_getElem?
  intro i
  rw [getElem?_slice]
  split
  · next hi => exact h i hi
  · next hi => rw [List.getElem?_eq_none (by omega)]

/-- **Reading back a word.** -/
theorem Holds.word {v : BitVec w} (h : Holds b off (wordBytes v)) (hw : 8 * (w / 8) = w) :
    word w b off = v := by
  have hs := h.slice
  unfold wordBytes at hs
  rw [leBytes_length] at hs
  unfold Bytes.word
  have hlt : v.toNat < 256 ^ (w / 8) := by
    rw [show (256 : Nat) = 2 ^ 8 from rfl, ← Nat.pow_mul, hw]
    exact v.isLt
  rw [hs, leNat_leBytes _ _ hlt, BitVec.ofNat_toNat, BitVec.setWidth_eq]

theorem Holds.byte {v : Byte} (h : Holds b off [v]) : b[off]? = some v :=
  h 0 Nat.one_pos

theorem wordBytes_length (v : BitVec w) : (wordBytes v).length = w / 8 := leBytes_length _ _

/-! ## Many writes -/

/-- A write: an offset and the bytes that go there. -/
abbrev Write := Nat × List Byte

def patches (b : List Byte) (ws : List Write) : List Byte := ws.foldl (fun b w => patch b w.1 w.2) b

/-- The write lies in `lo..hi`. -/
def Write.In (w : Write) (lo hi : Nat) : Prop := lo ≤ w.1 ∧ w.1 + w.2.length ≤ hi

/-- The two writes have no byte in common. -/
def Write.Apart (v w : Write) : Prop := Bytes.Apart v.1 v.2.length w.1 w.2.length

theorem Write.In.apart {v w : Write} {lo hi lo' hi' : Nat} (hv : v.In lo hi) (hw : w.In lo' hi')
    (h : hi ≤ lo' ∨ hi' ≤ lo) : v.Apart w := by
  unfold Write.In at hv hw
  unfold Write.Apart Bytes.Apart
  omega

theorem patches_append (b : List Byte) (ws vs : List Write) :
    patches b (ws ++ vs) = patches (patches b ws) vs :=
  List.foldl_append

theorem patches_length (b : List Byte) (ws : List Write)
    (h : ∀ w ∈ ws, w.1 + w.2.length ≤ b.length) : (patches b ws).length = b.length := by
  induction ws generalizing b with
  | nil => rfl
  | cons w ws ih =>
    have hw := patch_length b w.1 w.2 (h w List.mem_cons_self)
    show (patches (patch b w.1 w.2) ws).length = b.length
    rw [ih _ (fun v hv => by rw [hw]; exact h v (List.mem_cons_of_mem w hv)), hw]

/-- **Writes that do not overlap all survive**, and change nothing else. -/
theorem patches_spec (b : List Byte) (ws : List Write)
    (hfit : ∀ w ∈ ws, w.1 + w.2.length ≤ b.length) (hap : ws.Pairwise Write.Apart) :
    (patches b ws).length = b.length ∧ (∀ w ∈ ws, Holds (patches b ws) w.1 w.2) ∧
      ∀ off xs, Holds b off xs → (∀ w ∈ ws, Bytes.Apart w.1 w.2.length off xs.length) →
        Holds (patches b ws) off xs := by
  induction ws generalizing b with
  | nil => exact ⟨rfl, fun w hw => (by cases hw), fun off xs h _ => h⟩
  | cons w ws ih =>
    have hw : w.1 + w.2.length ≤ b.length := hfit w List.mem_cons_self
    obtain ⟨hfirst, hrest⟩ := List.pairwise_cons.mp hap
    have hlen := patch_length b w.1 w.2 hw
    obtain ⟨h1, h2, h3⟩ :=
      ih (patch b w.1 w.2) (fun v hv => by rw [hlen]; exact hfit v (List.mem_cons_of_mem w hv))
      hrest
    change (patches (patch b w.1 w.2) ws).length = _ ∧
      (∀ v ∈ w :: ws, Holds (patches (patch b w.1 w.2) ws) v.1 v.2) ∧
      ∀ off xs, _ → _ → Holds (patches (patch b w.1 w.2) ws) off xs
    refine ⟨h1.trans hlen, fun v hv => ?_, fun off xs hx ha => ?_⟩
    · rcases List.mem_cons.mp hv with rfl | hv
      · -- the first write survives the later ones
        refine h3 v.1 v.2 (holds_patch b v.1 v.2 hw) (fun u hu => ?_)
        have hvu : Bytes.Apart v.1 v.2.length u.1 u.2.length := hfirst u hu
        unfold Bytes.Apart at hvu ⊢
        omega
      · exact h2 v hv
    · exact h3 off xs (hx.patch w.1 w.2 hw (ha w List.mem_cons_self)) (fun u hu =>
        ha u (List.mem_cons_of_mem w hu))

/-- A zeroed buffer, read anywhere. -/
theorem holds_zeros (n off k : Nat) (h : off + k ≤ n) :
    Holds (List.replicate n 0) off (List.replicate k 0) := by
  intro i hi
  rw [List.length_replicate] at hi
  rw [List.getElem?_replicate, List.getElem?_replicate, if_pos (by omega), if_pos hi]

theorem Holds.zeros_sub (h : Holds b off (List.replicate n 0)) (k m : Nat) (hk : k + m ≤ n) :
    Holds b (off + k) (List.replicate m 0) := by
  intro i hi
  rw [List.length_replicate] at hi
  rw [Nat.add_assoc, h (k + i) (by rw [List.length_replicate]; omega), List.getElem?_replicate,
    List.getElem?_replicate, if_pos (by omega), if_pos hi]

end Bytes
