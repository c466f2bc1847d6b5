import Praesidium.Kernel.LoaderSegments

/-!
The manifest loop of the loader.

`Delivered p s n proc`: the process's space holds exactly the capabilities of the first `n`
manifest entries.  `Drawn p u n t`: what the loader's side of state `t` is after them, from the
state `u` that the segment loop left.

    Delivered p s n t.proc ∧ Drawn p u n t →
      Ends (loadEntry p frames n budget) t (the same for n + 1) …                (loadEntry_spec)
-/

namespace Praesidium

open Fallible CSpace

/-! ## What the manifest asks for -/

namespace Pex

def dest (p : Pex) (j : Nat) : Nat := (p.manifestAt j).destSlot.toNat

/-- The budget entry `j` asks for. -/
def amount (p : Pex) (j : Nat) : U32 := (p.manifestAt j).param0.setWidth 32

def isSched (p : Pex) (j : Nat) : Bool := (p.manifestAt j).capType = MANIFEST_SCHED

/-- The `SCHED` entries among the first `n`. -/
def scheds (p : Pex) (n : Nat) : Nat := (List.range n).countP p.isSched

/-- The CPU time they ask for. -/
def drawn (p : Pex) (n : Nat) : Nat :=
  ((List.range n).map fun j => if p.isSched j then (p.amount j).toNat else 0).sum

theorem scheds_succ (p : Pex) (n : Nat) :
    p.scheds (n + 1) = p.scheds n + if p.isSched n then 1 else 0 := by
  unfold scheds
  rw [List.range_succ, List.countP_append, List.countP_singleton]

theorem drawn_succ (p : Pex) (n : Nat) :
    p.drawn (n + 1) = p.drawn n + if p.isSched n then (p.amount n).toNat else 0 := by
  unfold drawn
  rw [List.range_succ, List.map_append, List.sum_append]
  simp

/-- `budget` after the first `n` entries. -/
def budgetAt (p : Pex) : Nat → U32
  | 0 => 0
  | n + 1 => if p.isSched n then p.amount n else p.budgetAt n

end Pex

/-- The capability that entry `j` of a load from `s` gives the process. -/
def LoadState.granted (s : LoadState) (p : Pex) (j : Nat) : RawCap :=
  let m := p.manifestAt j
  if m.capType = MANIFEST_SCHED then
    ⟨.sched, m.rights, s.loader.nextObj + BitVec.ofNat 64 (p.scheds j), p.amount j, 0,
      (s.loader.slot L_SCHED).cap.aux, 0⟩
  else if m.capType = MANIFEST_ENDPOINT then
    { (s.loader.slot L_ENDPOINT).cap with rights := m.rights, badge := m.param0 }
  else { s.frameCap p m.param0.toNat with rights := m.rights, badge := 0 }

section Granted

variable {s : LoadState} {p : Pex} {j : Nat}

theorem granted_sched (h : (p.manifestAt j).capType = MANIFEST_SCHED) :
    s.granted p j = ⟨.sched, (p.manifestAt j).rights, s.loader.nextObj + BitVec.ofNat 64
      (p.scheds j), p.amount j, 0,
      (s.loader.slot L_SCHED).cap.aux, 0⟩ := if_pos h

theorem granted_endpoint (h : (p.manifestAt j).capType = MANIFEST_ENDPOINT) :
    s.granted p j =
      { (s.loader.slot L_ENDPOINT).cap with rights := (p.manifestAt j).rights, badge := (p.manifestAt j).param0 } := by
  unfold LoadState.granted
  dsimp only
  rw [h, if_neg (by decide), if_pos rfl]

theorem granted_frame (h : (p.manifestAt j).capType = MANIFEST_FRAME) :
    s.granted p
      j = { s.frameCap p (p.manifestAt j).param0.toNat with rights := (p.manifestAt j).rights, badge := 0 } := by
  unfold LoadState.granted
  dsimp only
  rw [h, if_neg (by decide), if_neg (by decide)]

end Granted

/-- The entry has a known type; a frame is one of a segment. -/
def Pex.Known (p : Pex) (j : Nat) : Prop :=
  (p.manifestAt j).capType = MANIFEST_SCHED ∨ (p.manifestAt j).capType = MANIFEST_ENDPOINT ∨
    ((p.manifestAt j).capType = MANIFEST_FRAME ∧ (p.manifestAt j).param0.toNat < p.segCount)

/-! ## The process's side -/

/-- The process's space after the first `n` entries. -/
structure Delivered (p : Pex) (s : LoadState) (n : Nat) (proc : CSpace PROCESS_SLOTS) : Prop where
  inRange : ∀ j, j < n → p.dest j < PROCESS_SLOTS
  known : ∀ j, j < n → p.Known j
  distinct : ∀ i j, i < j → j < n → p.dest i ≠ p.dest j
  slots : ∀ j, j < n → proc.slot (p.dest j) = ⟨s.granted p j, NIL⟩
  rest : ∀ d, (∀ j, j < n → p.dest j ≠ d) → proc.slot d = s.proc.slot d

variable {p : Pex} {s : LoadState}

/-- What an entry gives is a capability. -/
theorem granted_isNull (hinv : LoaderInv s.loader s.scratch) (j : Nat) :
    (s.granted p j).isNull = false := by
  obtain ⟨objref, hep⟩ := hinv.endpoint
  unfold LoadState.granted
  dsimp only
  split
  · rfl
  · split
    · rw [hep]
      rfl
    · rfl

theorem Delivered.zero (p : Pex) (s : LoadState) : Delivered p s 0 s.proc where
  inRange := fun j hj => by omega
  known := fun j hj => by omega
  distinct := fun i j _ hj => by omega
  slots := fun j hj => by omega
  rest := fun _ _ => rfl

/-- One more entry, in a slot that was free. -/
theorem Delivered.succ {n : Nat} {proc : CSpace PROCESS_SLOTS} (hinv : LoaderInv s.loader s.scratch)
    (h : Delivered p s n proc) (hd : p.dest n < PROCESS_SLOTS) (hfree : ¬ proc.Live (p.dest n))
    (hk : p.Known n) : Delivered p s (n + 1) (proc.put (p.dest n) ⟨s.granted p n, NIL⟩) := by
  have hend : ∀ j, j < n + 1 → j < n ∨ j = n := fun j hj => Nat.lt_succ_iff_lt_or_eq.mp hj
  have hnew : ∀ j, j < n → p.dest j ≠ p.dest n := by
    intro j hj he
    apply hfree
    unfold Live
    rw [← he, h.slots j hj]
    exact granted_isNull hinv j
  constructor
  case inRange =>
    intro j hj
    rcases hend j hj with hj | rfl
    · exact h.inRange j hj
    · exact hd
  case known =>
    intro j hj
    rcases hend j hj with hj | rfl
    · exact h.known j hj
    · exact hk
  case distinct =>
    intro i j hij hj
    rcases hend j hj with hj | rfl
    · exact h.distinct i j hij hj
    · exact hnew i hij
  case slots =>
    intro j hj
    rw [slot_put proc _ _ _ hd]
    rcases hend j hj with hj | rfl
    · rw [if_neg (hnew j hj)]
      exact h.slots j hj
    · rw [if_pos rfl]
  case rest =>
    intro d hout
    rw [slot_put proc _ _ _ hd, if_neg (Ne.symm (hout n (Nat.lt_succ_self n)))]
    exact h.rest d fun j hj => hout j (Nat.lt_succ_of_lt hj)

/-! ## The loader's side -/

/-- What the manifest loop does to the two spaces. -/
inductive ManifestEvent (scratch : Nat) : SysEvent Party → Prop
  | split {d : Nat} {amount : U32} : scratch ≤ d →
      ManifestEvent scratch ⟨.call .owner (.split L_SCHED d amount), .ok none⟩
  | move {d dest : Nat} {rights : Rights} {badge : U64} : scratch ≤ d →
      ManifestEvent scratch ⟨.grant .owner .peer d dest rights badge .move, .ok none⟩
  | mint {src dest : Nat} {rights : Rights} {badge : U64} :
      ManifestEvent scratch ⟨.grant .owner .peer src dest rights badge .mint, .ok none⟩

/-- The state after the first `n` entries, the process's space apart, from the state `u`. -/
structure Drawn (p : Pex) (u : LoadState) (n : Nat) (t : LoadState) : Prop where
  scratch : t.scratch = u.scratch + p.scheds n
  ram : t.ram = u.ram
  maps : t.maps = u.maps
  zeroed : t.loader.zeroed = u.loader.zeroed
  nextObj : t.loader.nextObj.toNat = u.loader.nextObj.toNat + p.scheds n
  time : ∃ size : U32, size.toNat + p.drawn n = (u.loader.slot L_SCHED).cap.size.toNat ∧
    t.loader.slot L_SCHED =
    { u.loader.slot L_SCHED with cap := { (u.loader.slot L_SCHED).cap with size := size } }
  ids : p.scheds n ≤ p.drawn n
  other : ∀ d, d ≠ L_SCHED → d < u.scratch → t.loader.slot d = u.loader.slot d
  free : ∀ d, u.scratch ≤ d → ¬ t.loader.Live d
  run : ∃ tr, Run SysStep u.spaces tr t.spaces ∧ ∀ ev ∈ tr, ManifestEvent u.scratch ev

/-- CPU time is split off into the next scratch slot. -/
structure SplitOff (amount : U32) (t t' : LoadState) : Prop where
  call : split L_SCHED t.scratch amount t.loader = .ok () t'.loader
  inRange : t.scratch < LOADER_SLOTS
  pos : 0 < amount.toNat
  child : t'.loader.slot t.scratch = ⟨⟨.sched, (t.loader.slot L_SCHED).cap.rights, t.loader.nextObj,
    amount, 0, (t.loader.slot L_SCHED).cap.aux, 0⟩, some L_SCHED⟩
  parent : ∃ size : U32, size.toNat + amount.toNat = (t.loader.slot L_SCHED).cap.size.toNat ∧
    t'.loader.slot L_SCHED =
    { t.loader.slot L_SCHED with cap := { (t.loader.slot L_SCHED).cap with size := size } }
  other : ∀ d, d ≠ L_SCHED → d ≠ t.scratch → t'.loader.slot d = t.loader.slot d
  nextObj : t'.loader.nextObj.toNat = t.loader.nextObj.toNat + 1
  zeroed : t'.loader.zeroed = t.loader.zeroed
  rest : t' = { t with loader := t'.loader, scratch := t.scratch + 1, casts := t'.casts }

theorem split_overflow {N : Nat} (cs : CSpace N) (src dest : Nat) (amount : U32) :
    Ends (split src dest amount) cs (fun _ _ => True) (fun f _ => f = .overflow →
      2 ^ 64 ≤ cs.nextObj.toNat + 1) := by
  unfold split writeBudget
  simp only [ends_bind, ends_live, ends_refuseIf, ends_okOr, ends_get, ends_place, ends_readSlot,
    ends_writeSlot,
    ends_takeObj, ends_pure, reduceCtorEq, IsEmpty.forall_iff, implies_true, true_and, and_true]
  intro _ _ _ _ _ _ _ _ _ h _
  exact h

theorem splitOff_spec (t : LoadState) (amount : U32) (casts : List (U64 × U32)) :
    Ends (split L_SCHED t.scratch amount) t.loader
      (fun _ cs' => SplitOff amount t
        { t with loader := cs', scratch := t.scratch + 1, casts := casts })
      (fun f cs' => Refused t.loader f cs' ∨
        (f = .overflow ∧ 2 ^ 64 ≤ t.loader.nextObj.toNat + 1)) := by
  refine ((split_spec t.loader L_SCHED t.scratch amount).and (split_overflow _ _ _ _)).with_eq.imp
    (fun _ cs' h => ?_) (fun f cs' h => ?_)
  · obtain ⟨hcall, ⟨hl, -, hd, hfree, child, parent, hs, next, hnext, rfl⟩, -⟩ := h
    obtain ⟨hpos, rfl, rfl⟩ := Budget.split_eq_some hs
    have hsum := (Budget.split_spec _ _ _ _ hs).2
    have hslot :=
      slot_split t.loader ⟨amount, 0, (Budget.fromCap (t.loader.slot L_SCHED).cap).period⟩
      { Budget.fromCap (t.loader.slot L_SCHED).cap with
        capacity := (Budget.fromCap (t.loader.slot L_SCHED).cap).capacity - amount } next hl hd
    have hne : t.scratch ≠ L_SCHED := fun e => hfree (e ▸ hl)
    refine ⟨hcall, hd, hpos, ?_, ⟨_, hsum, ?_⟩, fun d h1 h2 => ?_, hnext, rfl, rfl⟩
    · rw [hslot, if_neg hne, if_pos rfl]
      rfl
    · rw [hslot, if_pos rfl]
      rfl
    · rw [hslot, if_neg h1, if_neg h2]
  · obtain ⟨-, hrefused | hover, himp⟩ := h
    · exact Or.inl hrefused
    · exact Or.inr ⟨hover, himp hover⟩

/-! ## The loop -/

/-- A load that stopped in the manifest loop: after whole entries, with at most one more scratch
slot taken and at most one child split off. -/
def ManifestStop (p : Pex) (user : Option U64) (s : LoadState) (f : LoadFault)
    (t : LoadState) : Prop := (f = .trap ∧ 2 ^ 64 ≤ t.scratch + 1) ∨
  (∃ e, f = .err e) ∧ ∃ u n t₀, n < p.manCount ∧ Segments p user s p.segCount u ∧
    Delivered p s n t₀.proc ∧ Drawn p u n t₀ ∧ (t = t₀ ∨
      t = { t₀ with scratch := t₀.scratch + 1, casts := t.casts } ∨ SplitOff (p.amount n) t₀ t)

section Loop

variable {p : Pex} {user : Option U64} {s u t t' : LoadState} {n : Nat}

variable {k i : Nat} {rights : Rights} {badge : U64}

section

variable (hinv : LoaderInv s.loader s.scratch) (hu : Segments p user s k u)

include hinv hu

/-- The loader's fixed capabilities after the segment loop. -/
theorem Segments.fixed {d : Nat}
    (hd : d ≠ L_UNTYPED) (hlow : d < L_SCRATCH) : u.loader.slot d = s.loader.slot d :=
  hu.other d hd (Or.inl (Nat.lt_of_lt_of_le hlow hinv.low))

theorem Segments.free (d : Nat)
    (hd : u.scratch ≤ d) : ¬ u.loader.Live d := by
  have hlow := hinv.low
  have hscr := hu.scratch
  unfold L_SCRATCH at hlow
  unfold Live
  rw [hu.other d (by unfold L_UNTYPED; omega) (Or.inr (by omega))]
  exact hinv.free d (by omega)

theorem Drawn.zero :
    Drawn p u 0 u where
  scratch := rfl
  ram := rfl
  maps := rfl
  zeroed := rfl
  nextObj := rfl
  time := ⟨_, rfl, rfl⟩
  ids := Nat.le_refl _
  other := fun _ _ _ => rfl
  free := hu.free hinv
  run := ⟨[], .nil _, fun ev hev => by cases hev⟩

end

/-- An entry that only mints. -/
theorem Drawn.mint (ht : Drawn p u n t) (hsched : p.isSched n = false) {src dest : Nat}
    (hg : grant src dest rights badge .mint (t.loader, t.proc) = .ok () (t'.loader, t'.proc))
    (hl : t'.loader = t.loader) (hrest : t' = { t with proc := t'.proc }) :
    Drawn p u (n + 1) t' := by
  have hs : p.scheds (n + 1) = p.scheds n := by rw [Pex.scheds_succ, hsched]; rfl
  have hw : p.drawn (n + 1) = p.drawn n := by rw [Pex.drawn_succ, hsched]; rfl
  obtain ⟨tr, hrun, hev⟩ := ht.run
  constructor
  case scratch => rw [hs, hrest]; exact ht.scratch
  case ram => rw [hrest]; exact ht.ram
  case maps => rw [hrest]; exact ht.maps
  case zeroed => rw [hl]; exact ht.zeroed
  case nextObj => rw [hl, hs]; exact ht.nextObj
  case time => rw [hl, hw]; exact ht.time
  case ids => rw [hs, hw]; exact ht.ids
  case other => rw [hl]; exact ht.other
  case free => rw [hl]; exact ht.free
  case run =>
    refine ⟨_, hrun.snoc (sysStep_grant hg), fun ev hmem => ?_⟩
    rcases List.mem_append.mp hmem with hmem | hmem
    · exact hev ev hmem
    · cases List.mem_singleton.mp hmem
      exact .mint

theorem exec_split {N : Nat} {cs cs' : CSpace N} {src dest : Nat} {amount : U32}
    (h : split src dest amount cs = .ok () cs') :
    (Call.split src dest amount).exec cs = .ok none cs' := by
  show EStateM.bind _ _ _ = _
  unfold EStateM.bind
  rw [h]
  rfl

/-- An entry that splits and moves. -/
theorem Drawn.sched {v : LoadState} (ht : Drawn p u n t) (hlow : L_SCHED < u.scratch)
    (hsched : p.isSched n = true) (hs : SplitOff (p.amount n) t v) {dest : Nat}
    (hg : grant t.scratch dest rights badge .move (v.loader, v.proc) = .ok () (t'.loader, t'.proc))
    (hl : t'.loader = v.loader.put t.scratch .EMPTY)
    (hrest : t' = { v with loader := t'.loader, proc := t'.proc }) : Drawn p u (n + 1) t' := by
  have hcount : p.scheds (n + 1) = p.scheds n + 1 := by rw [Pex.scheds_succ, hsched]; rfl
  have hw : p.drawn (n + 1) = p.drawn n + (p.amount n).toNat := by rw [Pex.drawn_succ, hsched]; rfl
  have hslot : ∀ d, t'.loader.slot d = if d = t.scratch then .EMPTY else v.loader.slot d := by
    intro d
    rw [hl]
    exact slot_put v.loader t.scratch d .EMPTY hs.inRange
  have hscr := ht.scratch
  have hproc : v.proc = t.proc := by rw [hs.rest]
  obtain ⟨tr, hrun, hev⟩ := ht.run
  constructor
  case scratch =>
    rw [hrest, hcount, ← Nat.add_assoc, ← hscr]
    show v.scratch = _
    rw [hs.rest]
  case ram =>
    rw [hrest]
    show v.ram = _
    rw [hs.rest]
    exact ht.ram
  case maps =>
    rw [hrest]
    show v.maps = _
    rw [hs.rest]
    exact ht.maps
  case zeroed =>
    rw [hl]
    show v.loader.zeroed = _
    rw [hs.zeroed, ht.zeroed]
  case nextObj =>
    rw [hl]
    show v.loader.nextObj.toNat = _
    rw [hs.nextObj, ht.nextObj, hcount]
    rfl
  case time =>
    obtain ⟨size, hsize, hslot1⟩ := ht.time
    obtain ⟨size', hsize', hslot1'⟩ := hs.parent
    rw [hslot1] at hsize' hslot1'
    change size'.toNat + _ = size.toNat at hsize'
    refine ⟨size', by omega, ?_⟩
    rw [hslot, if_neg (by omega), hslot1']
  case ids =>
    have hle := ht.ids
    have hpos := hs.pos
    omega
  case other =>
    intro d hd hlt
    rw [hslot, if_neg (by omega), hs.other d hd (by omega)]
    exact ht.other d hd hlt
  case free =>
    intro d hd
    unfold Live
    rw [hslot]
    by_cases he : d = t.scratch
    · rw [if_pos he]
      decide
    · rw [if_neg he, hs.other d (by omega) he]
      exact ht.free d hd
  case run =>
    refine ⟨_, (hrun.snoc (sysStep_call (exec_split hs.call) hproc)).snoc (sysStep_grant hg),
      fun ev hmem => ?_⟩
    rcases List.mem_append.mp hmem with hmem | hmem
    · rcases List.mem_append.mp hmem with hmem | hmem
      · exact hev ev hmem
      · cases List.mem_singleton.mp hmem
        exact .split (by omega)
    · cases List.mem_singleton.mp hmem
      exact .move (by omega)

/-- The identity that `split` gives the child. -/
theorem Drawn.objref (hu : u.loader.nextObj = s.loader.nextObj) (ht : Drawn p u n t) :
    t.loader.nextObj = s.loader.nextObj + BitVec.ofNat 64 (p.scheds n) := by
  have h := ht.nextObj
  have hlt := t.loader.nextObj.isLt
  rw [hu] at h
  apply BitVec.eq_of_toNat_eq
  rw [BitVec.toNat_add, BitVec.toNat_ofNat, Nat.add_mod_mod, Nat.mod_eq_of_lt (by omega), h]

/-- A segment's frame capability is still in its scratch slot. -/
theorem Drawn.frame (hlow : L_SCRATCH ≤ s.scratch) (hu : Segments p user s p.segCount u)
    (ht : Drawn p u n t) (hi : i < p.segCount) :
    t.loader.slot (s.scratch + i) = ⟨s.frameCap p i, some L_UNTYPED⟩ := by
  have hscr := hu.scratch
  unfold L_SCRATCH at hlow
  rw [ht.other _ (by unfold L_SCHED; omega) (by omega), hu.frames i hi]

theorem FramesAt.src {scratch src : Nat} {frames : SegFrames} (hf : FramesAt scratch k frames)
    (h : (frames[i]?).join = some src) : i < k ∧ src = scratch + i := by
  by_cases hi : i < MAX_SEGMENTS
  · rw [hf i hi] at h
    by_cases hk : i < k
    · rw [if_pos hk] at h
      exact ⟨hk, (Option.some.inj h).symm⟩
    · rw [if_neg hk] at h
      cases h
  · rw [Vector.getElem?_eq_none (Nat.le_of_not_lt hi)] at h
    cases h

/-- An entry that mints capability `cap` out of slot `src`. -/
theorem mintEntry_spec (hinv : LoaderInv s.loader s.scratch) (hd : Delivered p s n t.proc)
    (ht : Drawn p u n t) (hsched : p.isSched n = false) (hk : p.Known n) {src : Nat}
    (hcap : { (t.loader.slot src).cap with rights := (p.manifestAt n).rights, badge := badge } =
      s.granted p n) (hstop : ∀ e, ManifestStop p user s (.err e) t) :
    Ends (onBoth (grant src (p.dest n) (p.manifestAt n).rights badge .mint)) t
      (fun _ t' => Delivered p s (n + 1) t'.proc ∧ Drawn p u (n + 1) t')
        (ManifestStop p user s) := by
  rw [ends_onBoth]
  refine (grant_spec t.loader src t.proc _ _ _ _).with_eq.imp (fun _ r h => ?_) (fun f r h => ?_)
  · obtain ⟨hcall, hg⟩ := h
    have hsrc : r.1 = t.loader := hg.src
    have hdst := hg.dst
    rw [hcap] at hdst
    refine ⟨?_, ht.mint hsched hcall hsrc (by rw [hsrc])⟩
    show Delivered p s (n + 1) r.2
    rw [hdst]
    exact hd.succ hinv hg.inRange hg.free hk
  · obtain ⟨-, ⟨e, rfl⟩, rfl⟩ := h
    exact hstop (.cap e)

/-- The `SCHED` entry: a child of the loader's `Sched` is split off and moved. -/
theorem schedEntry_spec (hinv : LoaderInv s.loader s.scratch) (hu : Segments p user s p.segCount u)
    (hn : n < p.manCount) (hd : Delivered p s n t.proc) (ht : Drawn p u n t)
    (htype : (p.manifestAt n).capType = MANIFEST_SCHED) {Q : U32 → LoadState → Prop}
    (hQ : ∀ t', Delivered p s (n + 1) t'.proc → Drawn p u (n + 1) t' → Q (p.amount n) t') :
    Ends (do
      let child ← takeScratch
      let amount ← castAmount (p.manifestAt n).param0
      onLoader (split L_SCHED child amount)
      onBoth (grant child (p.dest n) (p.manifestAt n).rights 0 .move)
      pure amount) t Q (ManifestStop p user s) := by
  have hlow := hinv.low
  have hscr := hu.scratch
  unfold L_SCRATCH at hlow
  have hsched : p.isSched n = true := decide_eq_true htype
  have hids : t.loader.nextObj.toNat + 1 < 2 ^ 64 := by
    obtain ⟨size, hsize, -⟩ := ht.time
    have hle := hinv.ids
    have hcount := ht.ids
    have hnext := ht.nextObj
    rw [hu.fixed hinv (by decide) (by decide)] at hsize
    rw [hu.nextObj] at hnext
    omega
  simp only [ends_bind, ends_takeScratch, ends_castAmount, ends_onLoader]
  refine ⟨fun h => Or.inl ⟨rfl, h⟩, fun _ => ?_⟩
  refine (splitOff_spec t (p.amount n) (t.casts ++ [((p.manifestAt n).param0, p.amount n)])).imp
    (fun _ cs' hs => ?_) (fun f cs' h => ?_)
  · rw [withLoader_eq (s := { t with scratch := t.scratch + 1, casts := _ }) cs' hs.zeroed,
      ends_onBoth]
    refine (grant_spec cs' t.scratch t.proc _ _ _ _).with_eq.imp (fun _ r h => ?_) (fun f r h => ?_)
    · obtain ⟨hcall, hg⟩ := h
      have hsrc : r.1 = cs'.put t.scratch .EMPTY := hg.src
      have hdst := hg.dst
      have hchild : cs'.slot t.scratch = _ := hs.child
      have htime : (t.loader.slot L_SCHED).cap.aux = (s.loader.slot L_SCHED).cap.aux := by
        obtain ⟨size, -, hslot⟩ := ht.time
        rw [hslot, hu.fixed hinv (by decide) (by decide)]
      rw [hchild] at hdst
      refine hQ _ ?_ (ht.sched (by unfold L_SCHED; omega) hsched hs hcall hsrc rfl)
      show Delivered p s (n + 1) r.2
      have hcap : (⟨.sched, (p.manifestAt n).rights, t.loader.nextObj, p.amount n, 0,
        (t.loader.slot L_SCHED).cap.aux, 0⟩ : RawCap) = s.granted p n := by
        rw [granted_sched htype, ht.objref hu.nextObj, htime]
      rw [hdst]
      show Delivered p s (n + 1) (t.proc.put (p.dest n)
        ⟨⟨.sched, (p.manifestAt n).rights, t.loader.nextObj, p.amount n, 0,
        (t.loader.slot L_SCHED).cap.aux, 0⟩, NIL⟩)
      rw [hcap]
      exact hd.succ hinv hg.inRange hg.free (Or.inl htype)
    · obtain ⟨-, ⟨e, rfl⟩, rfl⟩ := h
      exact Or.inr ⟨⟨.cap e, rfl⟩, u, n, t, hn, hu, hd, ht, Or.inr (Or.inr hs)⟩
  · rcases h with ⟨⟨e, rfl⟩, rfl⟩ | ⟨-, hover⟩
    · rw [withLoader_eq (s := { t with scratch := t.scratch + 1, casts := _ }) _ rfl]
      exact Or.inr ⟨⟨.cap e, rfl⟩, u, n, t, hn, hu, hd, ht, Or.inr (Or.inl rfl)⟩
    · omega

end Loop

section Load

variable {b : List U8} {arch : U16} {user : Option U64} {s u t : LoadState} {n : Nat}

/-- **One round of the manifest loop.** -/
theorem loadEntry_spec (hw : WellFormed b arch) (hinv : LoaderInv s.loader s.scratch)
    (hu : Segments (Pex.view b) user s (Pex.view b).segCount u) {frames : SegFrames}
    (hf : FramesAt s.scratch (Pex.view b).segCount frames) (hn : n < (Pex.view b).manCount)
    (hd : Delivered (Pex.view b) s n t.proc) (ht : Drawn (Pex.view b) u n t) :
    Ends (loadEntry (Pex.view b) frames n ((Pex.view b).budgetAt n)) t
      (fun budget t' => Delivered (Pex.view b) s (n + 1) t'.proc ∧ Drawn (Pex.view b) u (n + 1) t' ∧
        budget = (Pex.view b).budgetAt (n + 1))
      (ManifestStop (Pex.view b) user s) := by
  have hstop : ∀ e, ManifestStop (Pex.view b) user s (.err e) t := fun e =>
    Or.inr ⟨⟨e, rfl⟩, u, n, t, hn, hu, hd, ht, Or.inl rfl⟩
  have hlow := hinv.low
  unfold loadEntry
  rw [ends_bind, ends_onPex, ends_manifest hw.within hn, ends_bind, ends_refuseIf]
  refine ⟨fun _ => hstop _, fun hdest => ?_⟩
  rw [ends_bind, ends_okOr]
  refine ⟨fun _ => hstop _, fun rights hrights => ?_⟩
  cases Rights.fromBits_eq_some hrights
  rw [ends_ite]
  refine ⟨fun htype => ?_, fun h1 => ?_⟩
  · exact schedEntry_spec hinv hu hn hd ht htype fun t' hd' ht' =>
      ⟨hd', ht', (if_pos (decide_eq_true htype)).symm⟩
  have hsched : (Pex.view b).isSched n = false := decide_eq_false h1
  have hbudget : (Pex.view b).budgetAt n = (Pex.view b).budgetAt (n + 1) := by
    rw [Pex.budgetAt, hsched]
    rfl
  rw [ends_ite]
  refine ⟨fun htype => ?_, fun h2 => ?_⟩
  · rw [ends_bind]
    refine (mintEntry_spec hinv hd ht hsched (Or.inr (Or.inl htype)) ?_ hstop).imp_ok fun _ t' h =>
      ?_
    · rw [granted_endpoint htype, ht.other _ (by decide) ?_, hu.fixed hinv (by decide) (by decide)]
      have hscr := hu.scratch
      unfold L_SCRATCH at hlow
      unfold L_ENDPOINT
      omega
    · exact ⟨h.1, h.2, hbudget⟩
  rw [ends_ite]
  refine ⟨fun htype => ?_, fun _ => hstop _⟩
  rw [ends_bind, ends_okOr]
  refine ⟨fun _ => hstop _, fun src hsrc => ?_⟩
  obtain ⟨hlt, rfl⟩ := hf.src hsrc
  rw [ends_bind]
  refine (mintEntry_spec hinv hd ht hsched (Or.inr (Or.inr ⟨htype, hlt⟩)) ?_ hstop).imp_ok fun _
    t' h => ?_
  · rw [granted_frame htype, ht.frame hlow hu hlt]
  · exact ⟨h.1, h.2, hbudget⟩

/-- How a load that returned a process left the state. -/
structure LoadDone (p : Pex) (user : Option U64) (domainId : U64) (s : LoadState) (l : Loaded)
    (t : LoadState) : Prop where
  loaded : l = ⟨p.entry, p.budgetAt p.manCount, domainId⟩
  delivered : Delivered p s p.manCount t.proc
  drawn : ∃ u, Segments p user s p.segCount u ∧ Drawn p u p.manCount t

/-- How a load that returned no process left the state. -/
def LoadStop (b : List U8) (arch : U16) (user : Option U64) (s : LoadState) (f : LoadFault)
    (t : LoadState) : Prop := (∃ e, f = .err (.pex e) ∧ ¬ WellFormed b arch ∧ t = s) ∨
    (WellFormed b arch ∧ (SegmentsStop (Pex.view b) user s f t ∨
    ManifestStop (Pex.view b) user s f t))

/-- **A load**, of any bytes, from any state a loader can be in. -/
theorem load_spec (image : List U8) (arch : U16) (domainId : U64) (userAccessible : Bool)
    (hinv : LoaderInv s.loader s.scratch) :
    Ends (load arch image domainId userAccessible) s
      (fun l t => WellFormed image arch ∧
        LoadDone (Pex.view image) (if userAccessible then some domainId else none) domainId s l t)
      (LoadStop image arch (if userAccessible then some domainId else none) s) := by
  unfold load
  rw [ends_bind, ends_onPex]
  refine (parse_spec image arch).imp (fun p _ hp => ?_) (fun f _ hp => ?_)
  · obtain ⟨hw, rfl⟩ := hp
    rw [ends_bind]
    refine (loadSegments_spec hw _ hinv).imp (fun frames u hu => ?_) (fun f t hs =>
      Or.inr ⟨hw, Or.inl hs⟩)
    obtain ⟨hu, hf⟩ := hu
    rw [ends_bind]
    have hloop := ends_foldRange (s := u) (E := ManifestStop (Pex.view image)
      (if userAccessible then some domainId else none) s)
      (fun n budget t => Delivered (Pex.view image) s n t.proc ∧ Drawn (Pex.view image) u n t ∧
        budget = (Pex.view image).budgetAt n) (loadEntry (Pex.view image) frames)
        (Pex.view image).manCount 0
      ⟨hu.proc ▸ Delivered.zero _ s, Drawn.zero hinv hu, rfl⟩
      (fun n budget t hn h => by
        obtain ⟨hd, ht, rfl⟩ := h
        exact loadEntry_spec hw hinv hu hf hn hd ht)
    refine hloop.imp (fun budget t h => ?_) (fun f t hm => Or.inr ⟨hw, Or.inr hm⟩)
    obtain ⟨hd, ht, rfl⟩ := h
    exact ⟨hw, rfl, hd, u, hu, ht⟩
  · obtain ⟨⟨e, rfl⟩, hbad⟩ := hp
    exact Or.inl ⟨e, rfl, hbad, rfl⟩

end Load

end Praesidium
