import Praesidium.CapCore.CSpaceSpec

/-!
`retype`, from any state: what it carves, what it charges, which hook calls it
makes, and when its arithmetic can trap.

    Ends (retype ut t f n dest) cs (Retyped cs ut t f n dest)
      (refused with cs unchanged, or overflow with ¬ Fits (cs.slot ut).cap)      (retype_spec)
-/

namespace Praesidium

open Fallible

namespace CSpace

variable {N : Nat}

/-- The frame number of object `i` of a retype out of `u`. -/
def objAt (u : RawCap) (framesPerObj : U32) (i : Nat) : U64 :=
  BitVec.ofNat 64 (u.objref.toNat + u.watermark.toNat + i * framesPerObj.toNat)

/-- What `retype` checks before it changes anything. -/
structure Admits (cs : CSpace N) (ut : Nat) (newType : CapType) (framesPerObj count : U32)
    (dest : Nat) : Prop where
  live : cs.Live ut
  untyped : (cs.slot ut).cap.capType = .untyped
  retypeable : isRetypeable newType = true
  frames_pos : 0 < framesPerObj.toNat
  count_pos : 0 < count.toNat
  budget : (cs.slot ut).cap.watermark.toNat + framesPerObj.toNat * count.toNat ≤
    (cs.slot ut).cap.size.toNat
  stop : dest + count.toNat ≤ N
  free : ∀ i, i < count.toNat → ¬ cs.Live (dest + i)

/-- The space after a retype. -/
structure Retyped (cs : CSpace N) (ut : Nat) (newType : CapType) (framesPerObj count : U32)
    (dest : Nat) (cs' : CSpace N) : Prop extends
    Admits cs ut newType framesPerObj count dest where
  fits : ∀ i, i < count.toNat →
    (objAt (cs.slot ut).cap framesPerObj i).toNat =
      (cs.slot ut).cap.objref.toNat + (cs.slot ut).cap.watermark.toNat + i * framesPerObj.toNat
  made : ∀ i, i < count.toNat → cs'.slot (dest + i) =
    ⟨retyped newType (objAt (cs.slot ut).cap framesPerObj i) framesPerObj, some ut⟩
  charged : ∃ watermark : U32,
    watermark.toNat = (cs.slot ut).cap.watermark.toNat + framesPerObj.toNat * count.toNat ∧
      cs'.slot ut = { cs.slot ut with cap := { (cs.slot ut).cap with watermark } }
  frame : ∀ k, k ≠ ut → (k < dest ∨ dest + count.toNat ≤ k) → cs'.slot k = cs.slot k
  nextObj : cs'.nextObj = cs.nextObj
  zeroed : cs'.zeroed = cs.zeroed ++
    (List.range count.toNat).map fun i => (objAt (cs.slot ut).cap framesPerObj i, framesPerObj)

/-- Nothing `retype` computes from this `Untyped` can overflow. -/
def Fits (u : RawCap) : Prop :=
  u.watermark.toNat ≤ u.size.toNat ∧ u.objref.toNat + u.size.toNat ≤ 2 ^ 64

theorem slotsFree_spec (cs : CSpace N) (dest n : Nat) (h : dest + n ≤ N) :
    Ends (slotsFree dest n) cs (fun _ t => t = cs ∧ ∀ i, i < n → ¬ cs.Live (dest + i))
      (Refused cs) := by
  unfold slotsFree
  refine ends_forRange (fun k t => t = cs ∧ ∀ i, i < k → ¬ cs.Live (dest + i)) _ n ⟨rfl,
    fun i hi => by omega⟩ (fun k t hk ht => ?_)
  obtain ⟨rfl, hfree⟩ := ht
  simp only [ends_bind, ends_readSlot, ends_refuseIf]
  refine ⟨fun h' => by omega, fun _ => ⟨fun _ => refused_err t _, fun hn => ⟨trivial, fun i hi =>
    ?_⟩⟩⟩
  rcases Nat.lt_succ_iff_lt_or_eq.mp hi with hi | rfl
  · exact hfree i hi
  · unfold Live; simpa using hn

theorem checkedAddUsize_eq_some (a b n : Nat) (h : checkedAddUsize a b = some n) : n = a + b := by
  unfold checkedAddUsize at h
  split at h
  · exact (Option.some.inj h).symm
  · cases h

section

variable (cs : CSpace N) (ut : Nat) (newType : CapType)

theorem carve_spec (base : U64) (framesPerObj : U32) (dest n : Nat) (hf : 0 < framesPerObj.toNat)
    (hn : n * framesPerObj.toNat < 2 ^ 32) (hn' : n < 2 ^ 32) (hstop : dest + n ≤ N) :
    Ends (carve zero ut newType base framesPerObj dest n) cs
      (fun _ cs' => (∀ i, i < n → base.toNat + i * framesPerObj.toNat < 2 ^ 64) ∧
        (∀ i, i < n → cs'.slot (dest + i) =
          ⟨retyped newType (BitVec.ofNat 64 (base.toNat + i * framesPerObj.toNat)) framesPerObj,
            some ut⟩) ∧
        (∀ k, (k < dest ∨ dest + n ≤ k) → cs'.slot k = cs.slot k) ∧
        cs'.nextObj = cs.nextObj ∧
        cs'.zeroed = cs.zeroed ++ (List.range n).map fun i =>
          (BitVec.ofNat 64 (base.toNat + i * framesPerObj.toNat), framesPerObj))
      (fun f _ => f = .overflow ∧ 2 ^ 64 < base.toNat + n * framesPerObj.toNat) := by
  unfold carve
  refine ends_forRange (fun m (t : CSpace N) =>
    (∀ i, i < m → base.toNat + i * framesPerObj.toNat < 2 ^ 64) ∧ (∀ i, i < m → t.slot (dest + i) =
      ⟨retyped newType (BitVec.ofNat 64 (base.toNat + i * framesPerObj.toNat)) framesPerObj,
      some ut⟩) ∧ (∀ k, (k < dest ∨ dest + m ≤ k) → t.slot k = cs.slot k) ∧ t.nextObj = cs.nextObj ∧
    t.zeroed = cs.zeroed ++ (List.range m).map fun i =>
      (BitVec.ofNat 64 (base.toNat + i * framesPerObj.toNat), framesPerObj)) _ n
    ⟨fun i hi => by omega, fun i hi => by omega, fun k _ => rfl, rfl, by simp⟩ (fun m t hm ht => ?_)
  obtain ⟨h1, h2, h3, h4, h5⟩ := ht
  have hmul : (m + 1) * framesPerObj.toNat ≤ n * framesPerObj.toNat := Nat.mul_le_mul_right _ hm
  rw [Nat.add_mul, Nat.one_mul] at hmul
  have hcast : (BitVec.ofNat 32 m).toNat = m := by
    rw [BitVec.toNat_ofNat, Nat.mod_eq_of_lt (by omega)]
  simp only [ends_bind, ends_okOr, ends_zero, ends_writeSlot, Word.checkedMul_eq_none,
    Word.checkedMul_eq_some, Word.checkedAdd_eq_none, Word.checkedAdd_eq_some, hcast]
  refine ⟨fun h => by omega, fun offset hoff => ?_⟩
  have hwide : (offset.setWidth 64).toNat = m * framesPerObj.toNat := by
    rw [BitVec.toNat_setWidth, hoff, Nat.mod_eq_of_lt (by omega)]
  rw [hwide]
  refine ⟨fun h => ⟨trivial, by omega⟩, fun objref hobj => ⟨fun h => by omega, fun hd => ?_⟩⟩
  have hlt : base.toNat + m * framesPerObj.toNat < 2 ^ 64 := by rw [← hobj]; exact objref.isLt
  have hobj' : objref = BitVec.ofNat 64 (base.toNat + m * framesPerObj.toNat) := by
    apply BitVec.eq_of_toNat_eq
    rw [BitVec.toNat_ofNat, Nat.mod_eq_of_lt hlt, hobj]
  have hput : ∀ k, (({ t with zeroed := t.zeroed ++ [(objref, framesPerObj)] } : CSpace N).put
    (dest + m) ⟨retyped newType objref framesPerObj, some ut⟩).slot k =
        if k = dest + m then ⟨retyped newType objref framesPerObj, some ut⟩ else t.slot k :=
    fun k => slot_put _ (dest + m) k _ hd
  refine ⟨fun i hi => ?_, fun i hi => ?_, fun k hk => ?_, h4, ?_⟩
  · rcases Nat.lt_succ_iff_lt_or_eq.mp hi with hi | rfl
    · exact h1 i hi
    · exact hlt
  · rw [hput]
    rcases Nat.lt_succ_iff_lt_or_eq.mp hi with hi | rfl
    · rw [if_neg (by omega)]; exact h2 i hi
    · rw [if_pos rfl, hobj']
  · rw [hput, if_neg (by omega)]
    exact h3 k (by omega)
  · show t.zeroed ++ [(objref, framesPerObj)] = _
    rw [h5, List.range_succ, List.map_append, List.map_singleton, List.append_assoc, hobj']

/-- The commit loop starts from the charged space. -/
theorem takeFrames_spec (framesPerObj count : U32) (dest : Nat) :
    Ends (takeFrames ut newType framesPerObj count dest) cs
      (fun base s => Admits cs ut newType framesPerObj count dest ∧
        base.toNat = (cs.slot ut).cap.objref.toNat + (cs.slot ut).cap.watermark.toNat ∧
        ∃ watermark : U32,
          watermark.toNat = (cs.slot ut).cap.watermark.toNat + framesPerObj.toNat * count.toNat ∧
          s = cs.put ut { cs.slot ut with cap := { (cs.slot ut).cap with watermark } })
      (fun f cs' => Refused cs f cs' ∨
        (f = .overflow ∧ cs.Live ut ∧ (cs.slot ut).cap.capType = .untyped ∧
        ¬ Fits (cs.slot ut).cap)) := by
  unfold takeFrames
  simp only [ends_bind, ends_live, ends_refuseIf, ends_okOr, refused_err, implies_true, true_and,
    true_or, Word.checkedMul_eq_none, Word.checkedMul_eq_some, Word.checkedSub_eq_none,
    Word.checkedSub_eq_some, not_or, not_not, Bool.not_eq_true]
  intro hl hu _ hty hpos need hneed
  have hut := hl.lt
  refine ⟨fun h => Or.inr ⟨hl, hu, fun hf => by have := hf.1; omega⟩,
    fun left hleft hle stop hstop hN => ?_⟩
  have hstop' := checkedAddUsize_eq_some _ _ _ hstop
  have hf : 0 < framesPerObj.toNat := Nat.pos_of_ne_zero fun h => hpos.1 (BitVec.eq_of_toNat_eq h)
  have hc : 0 < count.toNat := Nat.pos_of_ne_zero fun h => hpos.2 (BitVec.eq_of_toNat_eq h)
  have hneed_pos := Nat.mul_pos hf hc
  refine (slotsFree_spec cs dest count.toNat (by omega)).imp (fun _ t ht => ?_) (fun _ _ h =>
    Or.inl h)
  obtain ⟨rfl, hfree⟩ := ht
  have hwide : ((t.slot ut).cap.watermark.setWidth 64).toNat = (t.slot ut).cap.watermark.toNat := by
    rw [BitVec.toNat_setWidth, Nat.mod_eq_of_lt]
    have := (t.slot ut).cap.watermark.isLt
    omega
  simp only [ends_readSlot, ends_writeSlot, ends_pure, Word.checkedAdd_eq_none,
    Word.checkedAdd_eq_some, hwide]
  -- a base that overflows, or a charge that does, is past the end of the region
  refine ⟨fun h => Or.inr ⟨hl, hu, fun hf' => by have := hf'.2; omega⟩, fun base hbase =>
    ⟨fun h => by omega, fun _ => ⟨fun h => Or.inr ⟨hl, hu, fun hf' => ?_⟩, fun watermark hw =>
      ⟨fun h => by omega, fun _ => ?_⟩⟩⟩⟩
  · have := hf'.1
    have := (t.slot ut).cap.size.isLt
    omega
  · exact ⟨⟨hl, hu, by simpa using hty, hf, hc, by omega, by omega, hfree⟩, hbase, watermark,
      by omega, rfl⟩

theorem retype_spec (framesPerObj count : U32) (dest : Nat) :
    Ends (retype ut newType framesPerObj count dest) cs
      (fun _ cs' => Retyped cs ut newType framesPerObj count dest cs')
      (fun f cs' => Refused cs f cs' ∨
        (f = .overflow ∧ cs.Live ut ∧ (cs.slot ut).cap.capType = .untyped ∧
        ¬ Fits (cs.slot ut).cap)) := by
  unfold retype retypeWith
  rw [ends_bind]
  refine (takeFrames_spec cs ut newType framesPerObj count dest).imp_ok fun base s hs => ?_
  obtain ⟨h, hbase, watermark, hw, rfl⟩ := hs
  have hut := h.live.lt
  have hbudget := h.budget
  have hsize := (cs.slot ut).cap.size.isLt
  rw [Nat.mul_comm] at hbudget
  refine (carve_spec _ ut newType base framesPerObj dest count.toNat h.frames_pos (by omega)
    count.isLt h.stop).imp (fun _ cs' hc => ?_) (fun _ _ hc =>
    Or.inr ⟨hc.1, h.live, h.untyped, fun hf => by have := hc.2; have := hf.2; omega⟩)
  obtain ⟨h1, h2, h3, h4, h5⟩ := hc
  have hobj : ∀ i, BitVec.ofNat 64 (base.toNat + i * framesPerObj.toNat) = objAt (cs.slot ut).cap
    framesPerObj i := by
    intro i; unfold objAt; rw [hbase]
  have hout : ut < dest ∨ dest + count.toNat ≤ ut := by
    by_cases hd : ut < dest
    · exact Or.inl hd
    · refine Or.inr (Nat.le_of_not_lt fun h' => h.free (ut - dest) (by omega) ?_)
      rw [Nat.add_sub_cancel' (by omega)]
      exact h.live
  refine ⟨h, fun i hi => ?_, fun i hi => by rw [h2 i hi, hobj], ⟨watermark, hw, ?_⟩,
    fun k hk hkd => ?_, h4, ?_⟩
  · have := h1 i hi
    unfold objAt
    rw [BitVec.toNat_ofNat, Nat.mod_eq_of_lt (by omega)]
  · rw [h3 ut hout, slot_put cs ut ut _ hut, if_pos rfl]
  · rw [h3 k hkd, slot_put cs ut k _ hut, if_neg hk]
  · rw [h5]
    simp only [hobj, put_zeroed]

end

end CSpace

end Praesidium
