import Mathlib.Data.List.Basic

/-!
# Numbered slots

Processes that are numbered as they start are a list that only grows, and in which one slot changes at
a time.

* `set_cases`, `concat_cases`: what a slot holds after a change and after a start;
* `get_set_self`, `get_set_of_ne`, `get_concat_old`, `get_concat_new`: the same the other way round.
-/

namespace Slots

variable {α : Type*} {l : List α} {i j : ℕ} {a b : α}

theorem lt_length (h : l[i]? = some a) : i < l.length := (List.getElem?_eq_some_iff.1 h).1

theorem set_cases (h : (l.set i a)[j]? = some b) : (j = i ∧ b = a) ∨ (j ≠ i ∧ l[j]? = some b) := by
  by_cases hji : j = i
  · subst hji
    have hlt : j < l.length := by simpa using lt_length h
    rw [List.getElem?_set_self hlt] at h
    exact .inl ⟨rfl, (Option.some.inj h).symm⟩
  · rw [List.getElem?_set_ne (Ne.symm hji)] at h
    exact .inr ⟨hji, h⟩

theorem get_set_self (h : l[i]? = some b) : (l.set i a)[i]? = some a :=
  List.getElem?_set_self (lt_length h)

theorem get_set_of_ne (hne : j ≠ i) (h : l[j]? = some b) : (l.set i a)[j]? = some b := by
  rwa [List.getElem?_set_ne (Ne.symm hne)]

theorem concat_cases (h : (l ++ [a])[j]? = some b) : (j = l.length ∧ b = a) ∨ l[j]? = some b := by
  by_cases hj : j < l.length
  · rw [List.getElem?_append_left hj] at h
    exact .inr h
  · rw [List.getElem?_append_right (by omega)] at h
    rw [List.getElem?_singleton] at h
    obtain ⟨hzero, heq⟩ := Option.ite_none_right_eq_some.1 h
    exact .inl ⟨by omega, (Option.some.inj heq).symm⟩

theorem get_concat_old (h : l[j]? = some b) : (l ++ [a])[j]? = some b := by
  rwa [List.getElem?_append_left (lt_length h)]

theorem get_concat_new : (l ++ [a])[l.length]? = some a := by simp

end Slots
