import Slurmy.Monitor.SnapshotOrder

/-!
# Snapshots after an invalidation

`invalidate` makes every entry old.  A load that is running then writes a fresh entry afterwards.

* `State.After`: a loader was called after every call of `invalidate` so far;
* `State.quiet`: no loader runs, and none has returned, when `invalidate` is called;
* `fresh_after_invalidate`: then whatever counts as fresh is from a loader that was called afterwards;
* `fresh_before_invalidate`: a load that is running keeps its value fresh.
-/

namespace Slurmy
namespace SnapshotCache

variable {κ η : Type*} [DecidableEq κ] [DecidableEq η] {C : Config κ η} {s t : State κ η}

/-- Every call of `invalidate` came before the event with the number `n`. -/
def State.After (s : State κ η) (n : ℕ) : Prop := ∀ m ∈ s.invalidated, m < n

def Load.idle (ld : Load κ) : Bool :=
  match ld.phase with
  | .running _ | .returned _ => false
  | _ => true

/-- No loader is running when `invalidate` is called, and no value is still to be written. -/
def State.quiet (s : State κ η) : Event κ η → Bool
  | .invalidate => s.loads.all Load.idle
  | _ => true

structure Fresh (s : State κ η) : Prop where
  entry : ∀ k v time, (s.entry k).value = some v → (s.entry k).time = some time → s.After v.started
  running : ∀ (l : ℕ) (ld : Load κ) (n : ℕ), s.loads[l]? = some ld → ld.phase = .running n →
    s.After n
  returned : ∀ (l : ℕ) (ld : Load κ) (v : Value), s.loads[l]? = some ld →
    ld.phase = .returned v → s.After v.started
  steps : s.After s.steps

theorem Fresh.initial : Fresh (.initial : State κ η) :=
  ⟨fun _ _ _ h => (by cases h), fun _ _ _ h => (by cases h), fun _ _ _ h => (by cases h),
    fun _ h => (by cases h)⟩

/-- A loader that is running was running already, or it is called now. -/
theorem running_next {e : Event κ η} (h : s.next C e = some t) {l : ℕ} {ld : Load κ} {n : ℕ}
    (hl : t.loads[l]? = some ld) (hn : ld.phase = .running n) :
    s.loads[l]? = some ld ∨ n = s.steps := by
  cases moves_next h with
  | same hloads _ => exact .inl (hloads ▸ hl)
  | start key ttl hkey hloads _ =>
    rw [hloads] at hl
    rcases Slots.concat_cases hl with ⟨-, rfl⟩ | hl
    · cases hn
    · exact .inl hl
  | next m old phase hm _ _ hrunning _ hloads _ =>
    rw [hloads] at hl
    rcases Slots.set_cases hl with ⟨rfl, rfl⟩ | ⟨-, hl⟩
    · exact .inr (hrunning n hn)
    · exact .inl hl
  | finish m old hm _ hloads _ =>
    rw [hloads] at hl
    rcases Slots.set_cases hl with ⟨rfl, rfl⟩ | ⟨-, hl⟩
    · cases hn
    · exact .inl hl

/-- A step that is no call of `invalidate`. -/
theorem Fresh.next (h : Fresh s) {e : Event κ η} (hne : e ≠ .invalidate)
    (hnext : s.next C e = some t) : Fresh { t with steps := s.steps + 1 } := by
  have hinvalidated : t.invalidated = s.invalidated := (frame_next hnext).2.2 hne
  have hafter : ∀ n, s.After n → State.After { t with steps := s.steps + 1 } n := by
    intro n hn m hm
    exact hn m (hinvalidated ▸ hm)
  constructor
  · intro k v time hv htime
    have hv : (t.entry k).value = some v := hv
    have htime : (t.entry k).time = some time := htime
    apply hafter
    cases entered_next hnext k with
    | same ttl heq =>
      rw [heq] at hv htime
      exact h.entry k v time hv htime
    | saved l ttl w _ hl heq =>
      rw [heq] at hv
      cases hv
      exact h.returned l _ v hl rfl
    | failed error heq =>
      rw [heq] at hv htime
      exact h.entry k v time hv htime
    | gone heq =>
      rw [heq] at hv
      cases hv
    | stale _ _ hnone =>
      rw [hnone] at htime
      cases htime
  · intro l ld n hl hn
    apply hafter
    rcases running_next hnext hl hn with hl | rfl
    · exact h.running l ld n hl hn
    · exact h.steps
  · intro l ld v hl hv
    apply hafter
    rcases returned_next hnext hl hv with hl | ⟨-, old, hl, -, hrunning⟩
    · exact h.returned l ld v hl hv
    · exact h.running l old v.started hl hrunning
  · intro m hm
    exact (h.steps m (hinvalidated ▸ hm)).trans (Nat.lt_succ_self _)

theorem Fresh.step (h : Fresh s) {e : Event κ η} (hquiet : s.quiet e = true)
    (hstep : s.step C e = some t) : Fresh t := by
  obtain ⟨u, hnext, rfl⟩ := Option.map_eq_some_iff.1 hstep
  by_cases he : e = .invalidate
  · subst he
    have hidle : ∀ (l : ℕ) (ld : Load κ), u.loads[l]? = some ld → ld.idle = true := by
      cases hnext
      intro l ld hl
      exact List.all_eq_true.1 hquiet ld (List.mem_of_getElem? hl)
    constructor
    · intro k v time _ htime
      have htime : (u.entry k).time = some time := htime
      cases hnext
      unfold State.entry at htime
      rw [Dict.lookup_mapValues] at htime
      cases hlookup : s.entries.lookup k with
      | none => simp [hlookup, Entry.new] at htime
      | some entry => simp [hlookup] at htime
    · intro l ld n hl hn
      have hfalse := hidle l ld hl
      simp [Load.idle, hn] at hfalse
    · intro l ld v hl hv
      have hfalse := hidle l ld hl
      simp [Load.idle, hv] at hfalse
    · cases hnext
      intro m hm
      rcases List.mem_append.1 hm with hm | hm
      · exact (h.steps m hm).trans (Nat.lt_succ_self _)
      · rw [List.mem_singleton.1 hm]
        exact Nat.lt_succ_self _
  · exact h.next he hnext

theorem time_of_recent {entry : Entry} {now ttl : ℚ} (h : entry.recent now ttl = true) :
    ∃ time, entry.time = some time := by
  unfold Entry.recent at h
  cases htime : entry.time with
  | none => simp [htime] at h
  | some time => exact ⟨time, rfl⟩

/-- When `invalidate` is called only while no loader runs, whatever `status` reports as not stale, and
whatever `get` returns as fresh, is from a loader that was called after every invalidation so far. -/
theorem fresh_after_invalidate {es : List (Event κ η)}
    (hrun : Machine.run (State.step C) .initial es = some s)
    (hquiet : Machine.Along (State.step C) (fun s e => s.quiet e = true) .initial es) :
    (∀ key value time v, value.or (s.entry key).value = some v →
      (s.status key value time).stale = false → s.After v.started) ∧
    ∀ key ttl force v, s.fresh key ttl force = some v → s.After v.started := by
  have h : Fresh s :=
    Machine.invariant_along (fun _ _ _ h hq hstep => Fresh.step h hq hstep) Fresh.initial hquiet hrun
  constructor
  · intro key value time v hv hstale
    simp only [State.status, Bool.or_eq_false_iff, hv] at hstale
    obtain ⟨⟨⟨⟨hsame, -⟩, -⟩, -⟩, hrecent⟩ := hstale
    have hvalue : some v = (s.entry key).value := bne_eq_false_iff_eq.1 hsame
    obtain ⟨saved, hsaved⟩ := time_of_recent (by simpa using hrecent)
    exact h.entry key v saved hvalue.symm hsaved
  · intro key ttl force v hfresh
    unfold State.fresh at hfresh
    obtain ⟨hrecent, hvalue⟩ := Option.ite_none_right_eq_some.1 hfresh
    obtain ⟨saved, hsaved⟩ := time_of_recent (Bool.and_eq_true_iff.1 hrecent).2
    exact h.entry key v saved hvalue hsaved

section Sample

/-- The value of a load that begins after an invalidation is fresh. -/
theorem fresh_after_invalidate_sample :
    ∃ s v, Machine.run (State.step sampleConfig) .initial
        (Event.invalidate :: Event.get 0 30 false :: sampleLoad 0) = some s ∧
      s.fresh 0 30 false = some v ∧ (s.status 0 (some v) 0).stale = false ∧ s.After v.started := by
  have hsome : ((Machine.run (State.step sampleConfig) .initial
      (Event.invalidate :: Event.get 0 30 false :: sampleLoad 0)).bind fun s =>
        (s.fresh 0 30 false).map fun v => (s.status 0 (some v) 0).stale) = some false := by
    decide +kernel
  obtain ⟨s, hrun, heq⟩ := Option.bind_eq_some_iff.1 hsome
  obtain ⟨v, hv, hstale⟩ := Option.map_eq_some_iff.1 heq
  exact ⟨s, v, hrun, hv, hstale, (fresh_after_invalidate hrun (by decide +kernel)).2 0 30 false v hv⟩

/-- The load begins, the cache is invalidated, and the value of the load counts as fresh. -/
theorem fresh_before_invalidate :
    ∃ s v, Machine.run (State.step sampleConfig) .initial
        [Event.get 0 30 false, Event.acquire 0, Event.invalidate, Event.ends 0 none, Event.save 0,
          Event.finish 0] = some s ∧
      s.fresh 0 30 false = some v ∧ (s.status 0 (some v) 0).stale = false ∧
      ¬ s.After v.started := by
  have hsome : ((Machine.run (State.step sampleConfig) .initial
      [Event.get 0 30 false, Event.acquire 0, Event.invalidate, Event.ends 0 none, Event.save 0,
        Event.finish 0]).bind fun s =>
        (s.fresh 0 30 false).map fun v =>
          ((s.status 0 (some v) 0).stale, s.invalidated, v.started)) = some (false, [2], 1) := by
    decide +kernel
  obtain ⟨s, hrun, heq⟩ := Option.bind_eq_some_iff.1 hsome
  obtain ⟨v, hv, heq⟩ := Option.map_eq_some_iff.1 heq
  obtain ⟨hstale, hinvalidated, hstarted⟩ :
      (s.status 0 (some v) 0).stale = false ∧ s.invalidated = [2] ∧ v.started = 1 := by
    simpa using heq
  refine ⟨s, v, hrun, hv, hstale, fun hafter => ?_⟩
  have hlt : 2 < v.started := hafter 2 (by simp [hinvalidated])
  omega

end Sample

end SnapshotCache
end Slurmy
