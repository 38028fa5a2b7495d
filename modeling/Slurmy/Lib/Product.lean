import Mathlib.Logic.Function.Basic
import Slurmy.Lib.Machine

/-!
# Machines side by side

A family of machines, each with its own state; an event names the machine that moves.

* `productStep`, `eventsOf`: the machine of the whole family, and the events of one member;
* `run_component`, `trace_component`: seen from one member, a run of the family is a run of that
  member.
-/

namespace Machine

variable {ι : Type*} {σ : Type*} {ε : Type*} {ω : Type*} [DecidableEq ι]

/-- One member moves, the others stay. -/
def productStep (step : ι → σ → ε → Option σ) (s : ι → σ) (e : ι × ε) : Option (ι → σ) :=
  (step e.1 (s e.1) e.2).map fun t => Function.update s e.1 t

/-- The events of member `i`, in order. -/
def eventsOf (i : ι) (es : List (ι × ε)) : List ε :=
  es.filterMap fun e => if e.1 = i then some e.2 else none

variable {step : ι → σ → ε → Option σ} {obs : σ → ε → List ω}

theorem eventsOf_cons_self (i : ι) (a : ε) (es : List (ι × ε)) :
    eventsOf i ((i, a) :: es) = a :: eventsOf i es := by
  simp [eventsOf]

theorem eventsOf_cons_of_ne {i j : ι} (h : j ≠ i) (a : ε) (es : List (ι × ε)) :
    eventsOf i ((j, a) :: es) = eventsOf i es := by
  simp [eventsOf, h]

theorem mem_eventsOf {i : ι} {a : ε} {es : List (ι × ε)} :
    a ∈ eventsOf i es ↔ (i, a) ∈ es := by
  simp only [eventsOf, List.mem_filterMap, Option.ite_none_right_eq_some, Option.some.injEq]
  constructor
  · rintro ⟨⟨j, c⟩, hmem, rfl, rfl⟩
    exact hmem
  · intro h
    exact ⟨(i, a), h, rfl, rfl⟩

theorem productStep_eq_some {s t : ι → σ} {j : ι} {a : ε}
    (h : productStep step s (j, a) = some t) :
    ∃ m, step j (s j) a = some m ∧ t = Function.update s j m := by
  obtain ⟨m, hm, rfl⟩ := Option.map_eq_some_iff.1 h
  exact ⟨m, hm, rfl⟩

/-- A run of the family is a run of each member. -/
theorem run_component {s t : ι → σ} {es : List (ι × ε)}
    (h : run (productStep step) s es = some t) (i : ι) :
    run (step i) (s i) (eventsOf i es) = some (t i) := by
  induction es generalizing s with
  | nil => cases h; rfl
  | cons e es ih =>
    obtain ⟨j, a⟩ := e
    obtain ⟨m, hm, hrun⟩ := run_cons_some.1 h
    obtain ⟨n, hn, rfl⟩ := productStep_eq_some hm
    have hlater := ih hrun
    by_cases hji : j = i
    · subst hji
      rw [Function.update_self] at hlater
      rw [eventsOf_cons_self]
      exact run_cons_some.2 ⟨n, hn, hlater⟩
    · rw [Function.update_of_ne (Ne.symm hji)] at hlater
      rwa [eventsOf_cons_of_ne hji]

/-- What an observer of member `i` sees in a run of the family. -/
theorem trace_component {s t : ι → σ} {es : List (ι × ε)}
    (h : run (productStep step) s es = some t) (i : ι) :
    trace (productStep step) (fun s e => if e.1 = i then obs (s i) e.2 else []) s es =
      trace (step i) obs (s i) (eventsOf i es) := by
  induction es generalizing s with
  | nil => rfl
  | cons e es ih =>
    obtain ⟨j, a⟩ := e
    obtain ⟨m, hm, hrun⟩ := run_cons_some.1 h
    obtain ⟨n, hn, rfl⟩ := productStep_eq_some hm
    have hlater := ih hrun
    by_cases hji : j = i
    · subst hji
      rw [Function.update_self] at hlater
      rw [eventsOf_cons_self]
      simp [trace, hm, hn, hlater]
    · rw [Function.update_of_ne (Ne.symm hji)] at hlater
      rw [eventsOf_cons_of_ne hji]
      simp [trace, hm, hji, hlater]

end Machine
