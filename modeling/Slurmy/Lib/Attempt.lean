import Mathlib.Data.List.Basic

/-!
# Programs that may fail

Programs in `EStateM`, which keep the state they have reached when they fail.

* `Triple`: what holds after a program, whether it has succeeded or failed;
* `Triple.bind`, `Triple.forM`, `Triple.require`: the rules of the constructs;
* `ensure`, `onError`: Python's `finally` and the `except` clause that raises again.
-/

namespace Attempt

variable {ε σ α β : Type} {P : σ → Prop} {Q : α → σ → Prop} {E : σ → Prop} {m : EStateM ε σ α}

/-- From a state with `P`, the program ends with `Q`, or fails with `E`. -/
def Triple (P : σ → Prop) (m : EStateM ε σ α) (Q : α → σ → Prop) (E : σ → Prop) : Prop :=
  ∀ s, P s → match m s with
    | .ok a s' => Q a s'
    | .error _ s' => E s'

/-- Go on under a condition only. -/
def require (c : Prop) [Decidable c] (e : ε) : EStateM ε σ Unit := if c then pure () else throw e

/-- `n` runs when the program has failed, and its own error wins. -/
def onError (n : EStateM ε σ Unit) (m : EStateM ε σ α) : EStateM ε σ α := fun s =>
  match m s with
  | .ok a s' => .ok a s'
  | .error e s' => (n *> throw e) s'

/-- `n` runs in the end, in any case. -/
def ensure (n : EStateM ε σ Unit) (m : EStateM ε σ α) : EStateM ε σ α := do
  let a ← onError n m
  n
  return a

/-- The state in the end. -/
def state : EStateM.Result ε σ α → σ
  | .ok _ s => s
  | .error _ s => s

def isError : EStateM.Result ε σ α → Bool
  | .ok _ _ => false
  | .error _ _ => true

theorem exists_of_isError {r : EStateM.Result ε σ α} (h : isError r = true) : ∃ e, r = .error e (state r) := by
  cases r with
  | ok a s => cases h
  | error e s => exact ⟨e, rfl⟩

theorem exists_of_not_isError {r : EStateM.Result ε σ α} (h : isError r = false) : ∃ a, r = .ok a (state r) := by
  cases r with
  | ok a s => exact ⟨a, rfl⟩
  | error e s => cases h

/-- Where a program fails. -/
theorem bind_eq_error {n : EStateM ε σ β} {f : β → EStateM ε σ α} {s s' : σ} {e : ε} :
    (n >>= f) s = .error e s' ↔ n s = .error e s' ∨ ∃ b s₁, n s = .ok b s₁ ∧ f b s₁ = .error e s' := by
  show EStateM.bind n f s = _ ↔ _
  unfold EStateM.bind
  cases n s with
  | ok b s₁ => simp
  | error e' s₁ => simp

theorem require_eq_error {c : Prop} [Decidable c] {s s' : σ} {e e' : ε}
    (h : (require c e : EStateM ε σ Unit) s = .error e' s') : e' = e := by
  unfold require at h
  split at h
  · cases h
  · cases h
    rfl

theorem require_eq_ok {c : Prop} [Decidable c] {s s' : σ} {e : ε} {u : Unit}
    (h : (require c e : EStateM ε σ Unit) s = .ok u s') : c ∧ s' = s := by
  unfold require at h
  split at h
  · next hc =>
    cases h
    exact ⟨hc, rfl⟩
  · cases h

theorem onError_eq_error {n : EStateM ε σ Unit} {s s' : σ} {e : ε} (h : onError n m s = .error e s') :
    ∃ e₁ s₁, m s = .error e₁ s₁ ∧ ((∃ u, n s₁ = .ok u s' ∧ e = e₁) ∨ n s₁ = .error e s') := by
  unfold onError at h
  cases hm : m s with
  | ok a s₁ =>
    rw [hm] at h
    cases h
  | error e₁ s₁ =>
    rw [hm] at h
    refine ⟨e₁, s₁, rfl, ?_⟩
    rcases bind_eq_error.mp h with hn | ⟨u, s₂, hn, hthrow⟩
    · exact .inr hn
    · cases hthrow
      exact .inl ⟨u, hn, rfl⟩

theorem Triple.pure {a : α} (h : ∀ s, P s → Q a s) : Triple P (Pure.pure a : EStateM ε σ α) Q E := h

theorem Triple.throw {e : ε} (h : ∀ s, P s → E s) : Triple P (throw e : EStateM ε σ α) Q E := h

theorem Triple.bind {R : β → σ → Prop} {n : EStateM ε σ β} {f : β → EStateM ε σ α} (hn : Triple P n R E)
    (hf : ∀ b, Triple (R b) (f b) Q E) : Triple P (n >>= f) Q E := by
  intro s hs
  have hafter := hn s hs
  show match EStateM.bind n f s with
    | .ok a s' => Q a s'
    | .error _ s' => E s'
  unfold EStateM.bind
  cases hresult : n s with
  | ok b s' =>
    rw [hresult] at hafter
    exact hf b s' hafter
  | error e s' =>
    rw [hresult] at hafter
    exact hafter

theorem Triple.weaken {P' : σ → Prop} {Q' : α → σ → Prop} {E' : σ → Prop} (h : Triple P' m Q' E')
    (hP : ∀ s, P s → P' s) (hQ : ∀ a s, Q' a s → Q a s) (hE : ∀ s, E' s → E s) : Triple P m Q E := by
  intro s hs
  have hafter := h s (hP s hs)
  cases hresult : m s with
  | ok a s' =>
    rw [hresult] at hafter
    exact hQ a s' hafter
  | error e s' =>
    rw [hresult] at hafter
    exact hE s' hafter

/-- Two things that hold afterwards. -/
theorem Triple.and {P' : σ → Prop} {Q' : α → σ → Prop} {E' : σ → Prop} (h : Triple P m Q E) (h' : Triple P' m Q' E') :
    Triple (fun s => P s ∧ P' s) m (fun a s => Q a s ∧ Q' a s) (fun s => E s ∧ E' s) := by
  intro s hs
  have hafter := h s hs.1
  have hafter' := h' s hs.2
  cases hresult : m s with
  | ok a s' =>
    rw [hresult] at hafter hafter'
    exact ⟨hafter, hafter'⟩
  | error e s' =>
    rw [hresult] at hafter hafter'
    exact ⟨hafter, hafter'⟩

/-- Nothing is said about the end. -/
theorem Triple.trivial : Triple P m (fun _ _ => True) (fun _ => True) := by
  intro s _
  cases m s with
  | ok a s' => exact True.intro
  | error e s' => exact True.intro

theorem Triple.require {c : Prop} [Decidable c] {e : ε} (hE : ∀ s, P s → E s) :
    Triple P (require c e : EStateM ε σ Unit) (fun _ s => P s ∧ c) E := by
  unfold Attempt.require
  split
  · next hc => exact Triple.pure fun s hs => ⟨hs, hc⟩
  · exact Triple.throw hE

/-- A condition that does not matter later. -/
theorem Triple.check {c : Prop} [Decidable c] {e : ε} (hE : ∀ s, P s → E s) :
    Triple P (Attempt.require c e : EStateM ε σ Unit) (fun _ => P) E :=
  (Triple.require hE).weaken (fun _ hs => hs) (fun _ _ hs => hs.1) fun _ hs => hs

/-- A loop keeps what its body keeps. -/
theorem Triple.forM {f : β → EStateM ε σ PUnit} {l : List β}
    (h : ∀ b ∈ l, Triple P (f b) (fun _ => P) E) : Triple P (l.forM f) (fun _ => P) E := by
  induction l with
  | nil => exact Triple.pure fun s hs => hs
  | cons b l ih =>
    show Triple P (f b >>= fun _ => l.forM f) (fun _ => P) E
    exact (h b List.mem_cons_self).bind fun _ => ih fun c hc => h c (List.mem_cons_of_mem b hc)

theorem Triple.onError {n : EStateM ε σ Unit} {E' : σ → Prop} (h : Triple P m Q E')
    (hn : Triple E' n (fun _ => E) E) : Triple P (onError n m) Q E := by
  intro s hs
  have hafter := h s hs
  unfold Attempt.onError
  cases hresult : m s with
  | ok a s' =>
    rw [hresult] at hafter
    exact hafter
  | error e s' =>
    rw [hresult] at hafter
    exact (hn.bind (Q := Q) fun _ => Triple.throw fun _ hs => hs) s' hafter

theorem Triple.ensure {n : EStateM ε σ Unit} {Q' : α → σ → Prop} {E' : σ → Prop} (h : Triple P m Q' E')
    (hQ : ∀ a, Triple (Q' a) n (fun _ => Q a) E) (hE : Triple E' n (fun _ => E) E) : Triple P (ensure n m) Q E :=
  (h.onError hE).bind fun a => (hQ a).bind fun _ => Triple.pure fun _ hs => hs

end Attempt
