import Mathlib.Tactic.TypeStar
import Mathlib.Data.List.Basic

/-!
# Machines driven by events

A machine over states `σ` is a partial function `step : σ → ε → Option σ`; `none` means that the
event cannot happen in that state.  Interleavings of several processes are runs of such a machine
whose events name the process that moves and the choices left open by its environment.

* `run`: the state after a list of events;
* `Along cond`: every step of the run meets `cond`, a condition on the state *before* the step and
  on the event;
* `trace obs`: what an observer of the steps has written down;
* the rules: a property kept by every step (that meets `cond`) holds wherever the run ends, and the
  same for a property of the state together with the trace.
-/

namespace Machine

variable {σ : Type*} {ε : Type*} {ω : Type*}

/-- The state after the events `es`, `none` when one of them cannot happen. -/
def run (step : σ → ε → Option σ) : σ → List ε → Option σ
  | s, [] => some s
  | s, e :: es => (step s e).bind fun t => run step t es

/-- Every step of the run of `es` from `s` meets `cond`. -/
def Along (step : σ → ε → Option σ) (cond : σ → ε → Prop) : σ → List ε → Prop
  | _, [] => True
  | s, e :: es => cond s e ∧ ∀ t, step s e = some t → Along step cond t es

/-- The observations of the run of `es` from `s`, in order. -/
def trace (step : σ → ε → Option σ) (obs : σ → ε → List ω) : σ → List ε → List ω
  | _, [] => []
  | s, e :: es => obs s e ++ ((step s e).map fun t => trace step obs t es).getD []

variable {step : σ → ε → Option σ} {C : σ → ε → Prop} {obs : σ → ε → List ω}

@[simp] theorem run_nil (s : σ) : run step s [] = some s := rfl

theorem run_cons (s : σ) (e : ε) (es : List ε) :
    run step s (e :: es) = (step s e).bind fun t => run step t es := rfl

theorem run_cons_some {s t : σ} {e : ε} {es : List ε} :
    run step s (e :: es) = some t ↔ ∃ m, step s e = some m ∧ run step m es = some t := by
  rw [run_cons, Option.bind_eq_some_iff]

theorem run_append (s : σ) (es fs : List ε) :
    run step s (es ++ fs) = (run step s es).bind fun t => run step t fs := by
  induction es generalizing s with
  | nil => rfl
  | cons e es ih =>
    rw [List.cons_append, run_cons, run_cons]
    cases step s e with
    | none => rfl
    | some t => exact ih t

theorem run_append_some {s t : σ} {es fs : List ε} :
    run step s (es ++ fs) = some t ↔ ∃ m, run step s es = some m ∧ run step m fs = some t := by
  rw [run_append, Option.bind_eq_some_iff]

theorem Along.append {s m : σ} {es fs : List ε} (hes : run step s es = some m)
    (h : Along step C s (es ++ fs)) : Along step C m fs := by
  induction es generalizing s with
  | nil => cases hes; exact h
  | cons e es ih =>
    obtain ⟨t, ht, hes⟩ := run_cons_some.1 hes
    exact ih hes (h.2 t ht)

theorem Along.of_append {s : σ} {es fs : List ε} (h : Along step C s (es ++ fs)) :
    Along step C s es := by
  induction es generalizing s with
  | nil => trivial
  | cons e es ih => exact ⟨h.1, fun t ht => ih (h.2 t ht)⟩

theorem Along.mono {D : σ → ε → Prop} (himp : ∀ s e, C s e → D s e) {s : σ}
    {es : List ε} (h : Along step C s es) : Along step D s es := by
  induction es generalizing s with
  | nil => trivial
  | cons e es ih => exact ⟨himp _ _ h.1, fun t ht => ih (h.2 t ht)⟩

theorem Along.and {D : σ → ε → Prop} {s : σ} {es : List ε} (hC : Along step C s es)
    (hD : Along step D s es) : Along step (fun s e => C s e ∧ D s e) s es := by
  induction es generalizing s with
  | nil => trivial
  | cons e es ih => exact ⟨⟨hC.1, hD.1⟩, fun t ht => ih (hC.2 t ht) (hD.2 t ht)⟩

theorem along_true (s : σ) (es : List ε) : Along step (fun _ _ => True) s es := by
  induction es generalizing s with
  | nil => trivial
  | cons e es ih => exact ⟨trivial, fun t _ => ih t⟩

/-- A condition on the events alone. -/
theorem along_of_forall {D : ε → Prop} {es : List ε} (h : ∀ e ∈ es, D e) (s : σ) :
    Along step (fun _ e => D e) s es := by
  induction es generalizing s with
  | nil => trivial
  | cons e es ih =>
    exact ⟨h e List.mem_cons_self, fun t _ => ih (fun f hf => h f (List.mem_cons_of_mem e hf)) t⟩

/-- Concrete runs can be checked. -/
instance decidableAlong (step : σ → ε → Option σ) (C : σ → ε → Prop)
    [hC : ∀ s e, Decidable (C s e)] : ∀ s es, Decidable (Along step C s es)
  | _, [] => isTrue trivial
  | s, e :: es =>
      match h : step s e with
      | none => decidable_of_iff (C s e) ⟨fun hc => ⟨hc, fun t ht => by rw [h] at ht; cases ht⟩, And.left⟩
      | some m =>
          have := decidableAlong step C m es
          decidable_of_iff (C s e ∧ Along step C m es)
            ⟨fun hc => ⟨hc.1, fun t ht => Option.some.inj (h.symm.trans ht) ▸ hc.2⟩,
              fun hc => ⟨hc.1, hc.2 m h⟩⟩

/-- A property kept by every step that meets `cond` holds at the end of a run all of whose steps
meet it. -/
theorem invariant_along {I : σ → Prop}
    (hstep : ∀ s e t, I s → C s e → step s e = some t → I t) {s t : σ} {es : List ε}
    (hs : I s) (hc : Along step C s es) (hrun : run step s es = some t) : I t := by
  induction es generalizing s with
  | nil => cases hrun; exact hs
  | cons e es ih =>
    obtain ⟨m, hm, hrun⟩ := run_cons_some.1 hrun
    exact ih (hstep s e m hs hc.1 hm) (hc.2 m hm) hrun

/-- A property kept by every step holds at the end of every run. -/
theorem invariant {I : σ → Prop} (hstep : ∀ s e t, I s → step s e = some t → I t) {s t : σ}
    {es : List ε} (hs : I s) (hrun : run step s es = some t) : I t :=
  invariant_along (C := fun _ _ => True) (fun s e t hI _ => hstep s e t hI) hs
    (along_true s es) hrun

/-- What follows at every step from a property that is kept. -/
theorem along_of_invariant {I : σ → Prop} {D : σ → ε → Prop}
    (hstep : ∀ s e t, I s → C s e → step s e = some t → I t) (himp : ∀ s e, I s → C s e → D s e) {s : σ}
    {es : List ε} (hs : I s) (hc : Along step C s es) : Along step D s es := by
  induction es generalizing s with
  | nil => trivial
  | cons e es ih => exact ⟨himp s e hs hc.1, fun t ht => ih (hstep s e t hs hc.1 ht) (hc.2 t ht)⟩

theorem trace_append {s t : σ} {es : List ε} (h : run step s es = some t) (fs : List ε) :
    trace step obs s (es ++ fs) = trace step obs s es ++ trace step obs t fs := by
  induction es generalizing s with
  | nil => cases h; rfl
  | cons e es ih =>
    obtain ⟨m, hm, hrun⟩ := run_cons_some.1 h
    simp [trace, hm, ih hrun, List.append_assoc]

/-- A relation between the trace written so far and the state, kept by every step that meets
`cond`, holds at the end of a run all of whose steps meet it. -/
theorem trace_invariant_along {I : List ω → σ → Prop}
    (hstep : ∀ w s e t, I w s → C s e → step s e = some t → I (w ++ obs s e) t)
    {w : List ω} {s t : σ} {es : List ε} (hs : I w s) (hc : Along step C s es)
    (hrun : run step s es = some t) : I (w ++ trace step obs s es) t := by
  induction es generalizing s w with
  | nil => cases hrun; simpa [trace] using hs
  | cons e es ih =>
    obtain ⟨m, hm, hrun⟩ := run_cons_some.1 hrun
    have hI := ih (hstep w s e m hs hc.1 hm) (hc.2 m hm) hrun
    simpa [trace, hm, List.append_assoc] using hI

end Machine
