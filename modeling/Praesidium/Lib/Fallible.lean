import Mathlib.Tactic.Common

/-!
Straight-line fallible programs over a mutable state, in `EStateM`, and a
weakest-precondition calculus for them.

The state is threaded through a failure: `m s = .error e s'` hands back the state
as it was when `m` failed, so "a failed call changes nothing" is a property to
prove.  `refuseIf`, `okOr`, `forRange`, `foldRange` and `findRange` are the early
return, the unwrap, the counted loops and the linear search such programs are written
with; `zoom` runs a program on a part of a larger state.

`Ends m s Q E`: from `s`, `m` returns into `Q` or fails into `E`.  With
`E = fun _ _ => False` it says that `m` returns.  For code without loops the rules
are equivalences, so `simp only` with them computes the precondition; a loop needs
an invariant indexed by the number of rounds done (`ends_forRange`).
-/

namespace Fallible

variable {ε σ α β : Type}

/-! ## Programs -/

/-- `if p { return Err(e) }` -/
def refuseIf (p : Prop) [Decidable p] (e : ε) : EStateM ε σ Unit :=
  if p then throw e else pure ()

/-- `x.ok_or(e)?` -/
def okOr (x : Option α) (e : ε) : EStateM ε σ α :=
  match x with
  | some a => pure a
  | none => throw e

/-- `for i in 0..n { body(i) }` -/
def forRange (body : Nat → EStateM ε σ Unit) : Nat → EStateM ε σ Unit
  | 0 => pure ()
  | n + 1 => do
    forRange body n
    body n

/-- `for i in 0..n { acc = body(i, acc) }` -/
def foldRange (body : Nat → α → EStateM ε σ α) : Nat → α → EStateM ε σ α
  | 0, a => pure a
  | n + 1, a => do
    let a ← foldRange body n a
    body n a

/-- `(0..n).find(p)`, for a test that may itself fail -/
def findRange (p : Nat → EStateM ε σ Bool) : Nat → EStateM ε σ (Option Nat)
  | 0 => pure none
  | n + 1 => do
    match ← findRange p n with
    | some d => pure (some d)
    | none => if ← p n then pure (some n) else pure none

/-- Run `m` on a part of the state, with its failures renamed. -/
def zoom {ε' τ : Type} (part : σ → τ) (put : τ → σ → σ) (f : ε' → ε) (m : EStateM ε' τ α) :
    EStateM ε σ α := fun s =>
  match m (part s) with
  | .ok a t => .ok a (put t s)
  | .error e t => .error (f e) (put t s)

/-! ## Outcomes -/

def Ends (m : EStateM ε σ α) (s : σ) (Q : α → σ → Prop) (E : ε → σ → Prop) : Prop :=
  match m s with
  | .ok a t => Q a t
  | .error e t => E e t

variable {m : EStateM ε σ α} {s t : σ} {Q Q' : α → σ → Prop} {E E' : ε → σ → Prop}
  {R : Unit → σ → Prop}

theorem Ends.ok (h : Ends m s Q E) {a : α} (he : m s = .ok a t) : Q a t := by
  unfold Ends at h; rw [he] at h; exact h

theorem Ends.error (h : Ends m s Q E) {e : ε} (he : m s = .error e t) : E e t := by
  unfold Ends at h; rw [he] at h; exact h

section

variable (h : Ends m s Q E) (hQ : ∀ a t, Q a t → Q' a t)

include h hQ

theorem Ends.imp (hE : ∀ e t, E e t → E' e t) : Ends m s Q' E' := by
  unfold Ends at *
  cases hm : m s with
  | ok a t => rw [hm] at h; exact hQ a t h
  | error e t => rw [hm] at h; exact hE e t h

theorem Ends.imp_ok : Ends m s Q' E := h.imp hQ fun _ _ he => he

/-- Whatever a failure leaves. -/
theorem Ends.imp_any :
    Ends m s Q' fun _ _ => True := h.imp hQ fun _ _ _ => trivial

end

theorem Ends.and (h : Ends m s Q E)
    (h' : Ends m s Q' E') : Ends m s (fun a t => Q a t ∧ Q' a t) (fun e t => E e t ∧ E' e t) := by
  unfold Ends at *
  cases hm : m s with
  | ok a t => rw [hm] at h h'; exact ⟨h, h'⟩
  | error e t => rw [hm] at h h'; exact ⟨h, h'⟩

/-- The outcome is the one that `m s` has. -/
theorem ends_self (m : EStateM ε σ α) (s : σ) :
    Ends m s (fun a t => m s = .ok a t) (fun e t => m s = .error e t) := by
  unfold Ends
  cases hm : m s with
  | ok a t => rfl
  | error e t => rfl

theorem Ends.with_eq (h : Ends m s Q E) :
    Ends m s (fun a t => m s = .ok a t ∧ Q a t) (fun e t => m s = .error e t ∧ E e t) :=
  (ends_self m s).and h

/-- What holds whatever the program does. -/
theorem ends_of_forall (m : EStateM ε σ α) (hQ : ∀ a t, Q a t) (hE : ∀ e t, E e t) : Ends m s Q E :=
  (ends_self m s).imp (fun a t _ => hQ a t) (fun e t _ => hE e t)

/-- A program that cannot fail returns. -/
theorem Ends.exists_ok (h : Ends m s Q (fun _ _ => False)) :
    ∃ a t, m s = .ok a t ∧ Q a t := by
  unfold Ends at h
  cases hm : m s with
  | ok a t => rw [hm] at h; exact ⟨a, t, rfl, h⟩
  | error e t => rw [hm] at h; exact h.elim

theorem Ends.returns (h : Ends m s Q E)
    (hE : ∀ e t, ¬ E e t) : ∃ a t, m s = .ok a t ∧ Q a t := (h.imp (fun _ _ hQ => hQ) hE).exists_ok

/-! ## Rules -/

theorem ends_pure (a : α) : Ends (pure a : EStateM ε σ α) s Q E ↔ Q a s := Iff.rfl

theorem ends_throw (e : ε) : Ends (throw e : EStateM ε σ α) s Q E ↔ E e s := Iff.rfl

theorem ends_get {R : σ → σ → Prop} : Ends (get : EStateM ε σ σ) s R E ↔ R s s := Iff.rfl

theorem ends_modify (f : σ → σ) : Ends (modify f : EStateM ε σ Unit) s R E ↔ R () (f s) :=
  Iff.rfl

theorem ends_set {R : PUnit → σ → Prop} (t : σ) : Ends (set t : EStateM ε σ PUnit) s R E ↔ R ⟨⟩ t :=
  Iff.rfl

theorem ends_bind {R : β → σ → Prop} (x : EStateM ε σ α) (f : α → EStateM ε σ β) :
    Ends (x >>= f) s R E ↔ Ends x s (fun a t => Ends (f a) t R E) E := by
  unfold Ends
  show (match (match x s with | .ok a t => f a t | .error e t => .error e t) with
    | .ok b t => R b t | .error e t => E e t) ↔ _
  cases x s with
  | ok a t => exact Iff.rfl
  | error e t => exact Iff.rfl

theorem ends_ite (p : Prop) [Decidable p] (x y : EStateM ε σ α) :
    Ends (if p then x else y) s Q E ↔ (p → Ends x s Q E) ∧ (¬ p → Ends y s Q E) := by
  by_cases hp : p
  · simp [hp]
  · simp [hp]

theorem ends_refuseIf (p : Prop) [Decidable p] (e : ε) :
    Ends (refuseIf p e : EStateM ε σ Unit) s R E ↔ (p → E e s) ∧ (¬ p → R () s) := by
  unfold refuseIf
  rw [ends_ite, ends_throw, ends_pure]

theorem ends_okOr (x : Option α) (e : ε) :
    Ends (okOr x e : EStateM ε σ α) s Q E ↔ (x = none → E e s) ∧ (∀ a, x = some a → Q a s) := by
  cases x with
  | none => show E e s ↔ _; simp
  | some a => show Q a s ↔ _; simp

theorem ends_zoom {ε' τ : Type} (part : σ → τ) (put : τ → σ → σ) (f : ε' → ε) (m : EStateM ε' τ α) :
    Ends (zoom part put f m) s Q E ↔ Ends m (part s) (fun a t => Q a (put t s))
      (fun e t => E (f e) (put t s)) := by
  unfold Ends zoom
  cases m (part s) <;> rfl

/-! ## Loops -/

/-- **Loop rule.**  `I k` holds after `k` rounds. -/
theorem ends_forRange (I : Nat → σ → Prop) (body : Nat → EStateM ε σ Unit) (n : Nat) (h0 : I 0 s)
    (hstep : ∀ k t, k < n → I k t → Ends (body k) t (fun _ => I (k + 1)) E) :
    Ends (forRange body n) s (fun _ => I n) E := by
  induction n with
  | zero => exact h0
  | succ n ih =>
    rw [forRange, ends_bind]
    refine (ih (fun k t hk => hstep k t (Nat.lt_succ_of_lt hk))).imp_ok fun _ t ht => ?_
    exact hstep n t (Nat.lt_succ_self n) ht

/-- Two loops are one when their bodies agree in every state the first one comes to. -/
theorem forRange_congr (f g : Nat → EStateM ε σ Unit) (n : Nat)
    (h : ∀ k t, k < n → forRange f k s = .ok () t → g k t = f k t) :
    forRange g n s = forRange f n s := by
  induction n with
  | zero => rfl
  | succ n ih =>
    have hih := ih fun k t hk => h k t (Nat.lt_succ_of_lt hk)
    show (forRange g n >>= fun _ => g n) s = (forRange f n >>= fun _ => f n) s
    simp only [bind, EStateM.bind, hih]
    cases hf : forRange f n s with
    | ok _ t => exact h n t (Nat.lt_succ_self n) hf
    | error _ _ => rfl

/-- **Loop rule**, for a loop with an accumulator. -/
theorem ends_foldRange (I : Nat → α → σ → Prop) (body : Nat → α → EStateM ε σ α) (n : Nat) (a : α)
    (h0 : I 0 a s) (hstep : ∀ k b t, k < n → I k b t → Ends (body k b) t (I (k + 1)) E) :
    Ends (foldRange body n a) s (I n) E := by
  induction n with
  | zero => exact h0
  | succ n ih =>
    rw [foldRange, ends_bind]
    refine (ih (fun k b t hk => hstep k b t (Nat.lt_succ_of_lt hk))).imp_ok fun b t ht => ?_
    exact hstep n b t (Nat.lt_succ_self n) ht

/-- **Search rule**, for tests that leave the state alone: a hit passed the test, and
without a hit no test passed. -/
theorem ends_findRange (R : Nat → Bool → Prop) (p : Nat → EStateM ε σ Bool) (n : Nat)
    (hp : ∀ i, i < n → Ends (p i) s (fun b t => t = s ∧ R i b) E) :
    Ends (findRange p n) s (fun r t => t = s ∧ (∀ d, r = some d → d < n ∧ R d true) ∧
      (r = none → ∀ i, i < n → R i false)) E := by
  induction n with
  | zero =>
    rw [findRange, ends_pure]
    exact ⟨rfl, fun d hd => (by cases hd), fun _ i hi => by omega⟩
  | succ n ih =>
    rw [findRange, ends_bind]
    refine (ih (fun i hi => hp i (Nat.lt_succ_of_lt hi))).imp_ok fun r t hr => ?_
    obtain ⟨rfl, hhit, hmiss⟩ := hr
    cases r with
    | some d =>
      rw [ends_pure]
      refine ⟨rfl, fun d' hd' => ?_, fun h => by cases h⟩
      have := hhit d' hd'
      exact ⟨by omega, this.2⟩
    | none =>
      rw [ends_bind]
      refine (hp n (Nat.lt_succ_self n)).imp_ok fun b t' hb => ?_
      obtain ⟨rfl, hb⟩ := hb
      cases b with
      | true =>
        rw [if_pos rfl, ends_pure]
        exact ⟨rfl, fun d' hd' => by cases hd'; exact ⟨Nat.lt_succ_self n, hb⟩, fun h => by cases h⟩
      | false =>
        rw [if_neg (by decide), ends_pure]
        refine ⟨rfl, fun d' hd' => (by cases hd'), fun _ i hi => ?_⟩
        rcases Nat.lt_succ_iff_lt_or_eq.mp hi with hi | rfl
        · exact hmiss rfl i hi
        · exact hb

end Fallible
