import Slurmy.Lib.Slots
import Slurmy.Monitor.SnapshotCache

/-!
# The order of the snapshots

* `Flights`: every key has at most one thread, and `pending` knows it;
* `Locks`: a loader and a callback run under the lock of their host;
* `State.Past`: whatever a later `get` may return is not from a load that ended before;
* `single_serial_monotone`: at most one load for a key, one loader or callback for a host, and values
  that never go back.
-/

namespace Slurmy
namespace SnapshotCache

variable {κ η : Type*} [DecidableEq κ] [DecidableEq η] {C : Config κ η} {s t : State κ η}

/-! ### One thread for a key -/

/-- The threads that have not ended are those that `pending` names. -/
structure Flights (loads : List (Load κ)) (pending : κ → Option ℕ) : Prop where
  load : ∀ k l, pending k = some l → ∃ ld, loads[l]? = some ld ∧ ld.key = k ∧ ld.phase ≠ .ended
  pending : ∀ (l : ℕ) (ld : Load κ), loads[l]? = some ld → ld.phase ≠ .ended →
    pending ld.key = some l

section Flights

variable {loads : List (Load κ)} {pending : κ → Option ℕ} {l : ℕ} {ld : Load κ}

/-- A thread goes on. -/
theorem Flights.set (h : Flights loads pending) (hl : loads[l]? = some ld) (hld : ld.phase ≠ .ended)
    {phase : Phase} (hphase : phase ≠ .ended) :
    Flights (loads.set l { ld with phase := phase }) pending := by
  constructor
  · intro k m hm
    obtain ⟨lm, hlm, hkey, hopen⟩ := h.load k m hm
    by_cases hml : m = l
    · subst hml
      rw [hl] at hlm
      cases hlm
      exact ⟨_, Slots.get_set_self hl, hkey, hphase⟩
    · exact ⟨lm, Slots.get_set_of_ne hml hlm, hkey, hopen⟩
  · intro m lm hlm hopen
    rcases Slots.set_cases hlm with ⟨rfl, rfl⟩ | ⟨-, hlm⟩
    · exact h.pending m ld hl hld
    · exact h.pending m lm hlm hopen

/-- A thread ends. -/
theorem Flights.finish (h : Flights loads pending) (hl : loads[l]? = some ld)
    (hld : ld.phase ≠ .ended) :
    Flights (loads.set l { ld with phase := .ended }) (Function.update pending ld.key none) := by
  constructor
  · intro k m hm
    by_cases hk : k = ld.key
    · subst hk
      rw [Function.update_self] at hm
      cases hm
    · rw [Function.update_of_ne hk] at hm
      obtain ⟨lm, hlm, hkey, hopen⟩ := h.load k m hm
      have hml : m ≠ l := by
        rintro rfl
        rw [hl] at hlm
        cases hlm
        exact hk hkey.symm
      exact ⟨lm, Slots.get_set_of_ne hml hlm, hkey, hopen⟩
  · intro m lm hlm hopen
    rcases Slots.set_cases hlm with ⟨rfl, rfl⟩ | ⟨hml, hlm⟩
    · exact absurd rfl hopen
    · have hpending := h.pending m lm hlm hopen
      have hkey : lm.key ≠ ld.key := by
        intro hkey
        have hboth := h.pending l ld hl hld
        rw [← hkey, hpending] at hboth
        exact hml (Option.some.inj hboth)
      rwa [Function.update_of_ne hkey]

/-- A thread starts for a key that has none. -/
theorem Flights.start (h : Flights loads pending) {key : κ} (hkey : pending key = none) (ttl : ℚ) :
    Flights (loads ++ [⟨key, ttl, .waiting⟩]) (Function.update pending key (some loads.length)) := by
  constructor
  · intro k m hm
    by_cases hk : k = key
    · subst hk
      rw [Function.update_self] at hm
      cases hm
      exact ⟨_, Slots.get_concat_new, rfl, by simp⟩
    · rw [Function.update_of_ne hk] at hm
      obtain ⟨lm, hlm, hkey, hopen⟩ := h.load k m hm
      exact ⟨lm, Slots.get_concat_old hlm, hkey, hopen⟩
  · intro m lm hlm hopen
    rcases Slots.concat_cases hlm with ⟨rfl, rfl⟩ | hlm
    · exact Function.update_self _ _ _
    · have hpending := h.pending m lm hlm hopen
      have hne : lm.key ≠ key := by
        rintro rfl
        rw [hkey] at hpending
        cases hpending
      rwa [Function.update_of_ne hne]

end Flights

/-- What a step does to the threads and to `pending`: nothing, a new thread, or the next phase of one. -/
inductive Moves (s t : State κ η) : Prop
  | same (hloads : t.loads = s.loads) (hpending : t.pending = s.pending)
  | start (key : κ) (ttl : ℚ) (hkey : s.pending key = none)
      (hloads : t.loads = s.loads ++ [⟨key, ttl, .waiting⟩])
      (hpending : t.pending = Function.update s.pending key (some s.loads.length))
  | next (l : ℕ) (ld : Load κ) (phase : Phase) (hl : s.loads[l]? = some ld)
      (hld : ld.phase ≠ .ended) (hphase : phase ≠ .ended)
      (hrunning : ∀ n, phase = .running n → n = s.steps)
      (hreturned : ∀ v, phase = .returned v → ld.phase = .running v.started ∧ v.ended = s.steps)
      (hloads : t.loads = s.loads.set l { ld with phase := phase })
      (hpending : t.pending = s.pending)
  | finish (l : ℕ) (ld : Load κ) (hl : s.loads[l]? = some ld) (hld : ld.phase ≠ .ended)
      (hloads : t.loads = s.loads.set l { ld with phase := .ended })
      (hpending : t.pending = Function.update s.pending ld.key none)

theorem moves_get (s : State κ η) (key : κ) (ttl : ℚ) (force : Bool) :
    Moves s (s.get key ttl force) := by
  unfold State.get
  dsimp only
  split
  · exact .same rfl rfl
  · split
    · exact .same (State.join_loads ..) (State.join_pending ..)
    · next hkey => exact .start key ttl hkey (State.join_loads ..) (State.join_pending ..)

theorem moves_next {e : Event κ η} (h : s.next C e = some t) : Moves s t := by
  cases e with
  | tick d =>
    obtain ⟨-, heq⟩ := Option.ite_none_right_eq_some.1 h
    cases heq
    exact .same rfl rfl
  | get key ttl force =>
    cases h
    exact moves_get s key ttl force
  | acquire l =>
    simp only [State.next] at h
    split at h
    · next key ttl hl =>
      obtain ⟨-, heq⟩ := Option.ite_none_left_eq_some.1 h
      cases heq
      exact .next l _ (.running s.steps) hl (by simp) (by simp) (by simp [eq_comm]) (by simp) rfl rfl
    · cases h
  | ends l fetchedEpoch =>
    simp only [State.next] at h
    split at h
    · next key ttl started hl =>
      cases h
      refine .next l _ (.returned _) hl (by simp) (by simp) (by simp) ?_ rfl rfl
      rintro v hv
      cases hv
      exact ⟨rfl, rfl⟩
    · cases h
  | fails l error =>
    simp only [State.next] at h
    split at h
    · next key ttl started hl =>
      cases h
      exact .next l _ (.raised error) hl (by simp) (by simp) (by simp) (by simp) rfl rfl
    · cases h
  | save l =>
    simp only [State.next] at h
    split at h
    · next key ttl value hl =>
      cases h
      exact .next l _ .saved hl (by simp) (by simp) (by simp) (by simp) rfl rfl
    · next key ttl error hl =>
      cases h
      exact .next l _ .saved hl (by simp) (by simp) (by simp) (by simp) rfl rfl
    · cases h
  | finish l =>
    simp only [State.next] at h
    split at h
    · next key ttl hl =>
      cases h
      exact .finish l _ hl (by simp) rfl rfl
    · cases h
  | wake c =>
    simp only [State.next] at h
    split at h
    · obtain ⟨-, heq⟩ := Option.ite_none_right_eq_some.1 h
      cases heq
      exact .same rfl rfl
    · cases h
  | timeout c =>
    simp only [State.next] at h
    split at h
    · cases h
      exact .same rfl rfl
    · cases h
  | hostCall host skip =>
    simp only [State.next] at h
    split at h
    · cases h
      exact .same rfl rfl
    · cases h
      exact .same rfl rfl
  | enter i =>
    simp only [State.next] at h
    split at h
    · split at h
      · cases h
        exact .same rfl rfl
      · cases h
        exact .same rfl rfl
    · cases h
  | leave i =>
    simp only [State.next] at h
    split at h
    · cases h
      exact .same rfl rfl
    · cases h
  | invalidate =>
    cases h
    exact .same rfl rfl

theorem Flights.next (h : Flights s.loads s.pending) {e : Event κ η}
    (hnext : s.next C e = some t) : Flights t.loads t.pending := by
  cases moves_next hnext with
  | same hloads hpending => rwa [hloads, hpending]
  | start key ttl hkey hloads hpending =>
    rw [hloads, hpending]
    exact h.start hkey ttl
  | next l ld phase hl hld hphase _ _ hloads hpending =>
    rw [hloads, hpending]
    exact h.set hl hld hphase
  | finish l ld hl hld hloads hpending =>
    rw [hloads, hpending]
    exact h.finish hl hld

/-! ### The locks of the hosts -/

inductive Holder
  | load (l : ℕ)
  | call (i : ℕ)
  deriving DecidableEq

/-- The loader or the callback is running, on the host. -/
def Holds (C : Config κ η) (loads : List (Load κ)) (calls : List (HostCall η)) : Holder → η → Prop
  | .load l, host => ∃ ld n, loads[l]? = some ld ∧ ld.phase = .running n ∧ C.host ld.key = host
  | .call i, host => calls[i]? = some ⟨host, .running⟩

section Holds

variable {loads : List (Load κ)} {calls : List (HostCall η)} {x : Holder} {host : η} {l i : ℕ}

theorem holds_set {ld : Load κ} {phase : Phase}
    (h : Holds C (loads.set l { ld with phase := phase }) calls x host) :
    (x = .load l ∧ C.host ld.key = host ∧ ∃ n, phase = .running n) ∨
      (x ≠ .load l ∧ Holds C loads calls x host) := by
  cases x with
  | call i => exact .inr ⟨by simp, h⟩
  | load m =>
    obtain ⟨lm, n, hlm, hphase, hhost⟩ := h
    rcases Slots.set_cases hlm with ⟨rfl, rfl⟩ | ⟨hne, hlm⟩
    · exact .inl ⟨rfl, hhost, n, hphase⟩
    · exact .inr ⟨by simpa using hne, lm, n, hlm, hphase, hhost⟩

theorem holds_start {key : κ} {ttl : ℚ}
    (h : Holds C (loads ++ [⟨key, ttl, .waiting⟩]) calls x host) : Holds C loads calls x host := by
  cases x with
  | call i => exact h
  | load m =>
    obtain ⟨lm, n, hlm, hphase, hhost⟩ := h
    rcases Slots.concat_cases hlm with ⟨-, rfl⟩ | hlm
    · cases hphase
    · exact ⟨lm, n, hlm, hphase, hhost⟩

theorem holds_setCall {call : HostCall η} (h : Holds C loads (calls.set i call) x host) :
    (x = .call i ∧ call = ⟨host, .running⟩) ∨ (x ≠ .call i ∧ Holds C loads calls x host) := by
  cases x with
  | load l => exact .inr ⟨by simp, h⟩
  | call j =>
    rcases Slots.set_cases h with ⟨rfl, hcall⟩ | ⟨hne, h⟩
    · exact .inl ⟨rfl, hcall.symm⟩
    · exact .inr ⟨by simpa using hne, h⟩

theorem holds_call {other : η} (h : Holds C loads (calls ++ [⟨other, .ready⟩]) x host) :
    Holds C loads calls x host := by
  cases x with
  | load l => exact h
  | call j =>
    rcases Slots.concat_cases h with ⟨-, heq⟩ | h
    · cases heq
    · exact h

end Holds

structure Locks (C : Config κ η) (s : State κ η) : Prop where
  locked : ∀ x host, Holds C s.loads s.calls x host → s.locked host = true
  unique : ∀ x y host, Holds C s.loads s.calls x host → Holds C s.loads s.calls y host → x = y

/-- Nobody gets a lock. -/
theorem Locks.mono (h : Locks C s)
    (hholds : ∀ x host, Holds C t.loads t.calls x host → Holds C s.loads s.calls x host)
    (hlocked : t.locked = s.locked) : Locks C t := by
  constructor
  · intro x host hx
    rw [hlocked]
    exact h.locked x host (hholds x host hx)
  · intro x y host hx hy
    exact h.unique x y host (hholds x host hx) (hholds y host hy)

/-- A lock that is free is taken. -/
theorem Locks.take (h : Locks C s) {z : Holder} {free : η} (hfree : s.locked free = false)
    (hholds : ∀ x host, Holds C t.loads t.calls x host →
      (x = z ∧ free = host) ∨ Holds C s.loads s.calls x host)
    (hlocked : t.locked = Function.update s.locked free true) : Locks C t := by
  have hnone : ∀ x, ¬ Holds C s.loads s.calls x free := by
    intro x hx
    have htrue := h.locked x free hx
    rw [hfree] at htrue
    cases htrue
  constructor
  · intro x host hx
    rw [hlocked]
    by_cases hhost : host = free
    · subst hhost
      exact Function.update_self _ _ _
    · rw [Function.update_of_ne hhost]
      rcases hholds x host hx with ⟨-, heq⟩ | hx
      · exact absurd heq.symm hhost
      · exact h.locked x host hx
  · intro x y host hx hy
    rcases hholds x host hx with ⟨rfl, rfl⟩ | hx
    · rcases hholds y free hy with ⟨rfl, -⟩ | hy
      · rfl
      · exact absurd hy (hnone y)
    · rcases hholds y host hy with ⟨-, rfl⟩ | hy
      · exact absurd hx (hnone x)
      · exact h.unique x y host hx hy

/-- The holder of a lock releases it. -/
theorem Locks.release (h : Locks C s) {z : Holder} {held : η}
    (hz : Holds C s.loads s.calls z held)
    (hholds : ∀ x host, Holds C t.loads t.calls x host → x ≠ z ∧ Holds C s.loads s.calls x host)
    (hlocked : t.locked = Function.update s.locked held false) : Locks C t := by
  constructor
  · intro x host hx
    obtain ⟨hne, hx⟩ := hholds x host hx
    have hhost : host ≠ held := by
      rintro rfl
      exact hne (h.unique x z host hx hz)
    rw [hlocked, Function.update_of_ne hhost]
    exact h.locked x host hx
  · intro x y host hx hy
    exact h.unique x y host (hholds x host hx).2 (hholds y host hy).2

theorem Locks.next (h : Locks C s) {e : Event κ η} (hnext : s.next C e = some t) : Locks C t := by
  cases e with
  | tick d =>
    obtain ⟨-, heq⟩ := Option.ite_none_right_eq_some.1 hnext
    cases heq
    exact h.mono (fun _ _ hx => hx) rfl
  | get key ttl force =>
    cases hnext
    unfold State.get
    dsimp only
    split
    · exact h.mono (fun _ _ hx => hx) rfl
    · split
      · exact h.mono (fun _ _ hx => by simpa using hx) (State.join_locked ..)
      · refine h.mono (fun _ _ hx => ?_) (State.join_locked ..)
        rw [State.join_loads, State.join_calls] at hx
        exact holds_start hx
  | acquire l =>
    simp only [State.next] at hnext
    split at hnext
    · next key ttl hl =>
      obtain ⟨hfree, heq⟩ := Option.ite_none_left_eq_some.1 hnext
      cases heq
      refine h.take (z := .load l) (by simpa using hfree) (fun x host hx => ?_) rfl
      rcases holds_set hx with ⟨hx, hhost, -⟩ | ⟨-, hx⟩
      · exact .inl ⟨hx, hhost⟩
      · exact .inr hx
    · cases hnext
  | ends l fetchedEpoch =>
    simp only [State.next] at hnext
    split at hnext
    · next key ttl started hl =>
      cases hnext
      refine h.release (z := .load l) ⟨_, started, hl, rfl, rfl⟩ (fun x host hx => ?_) rfl
      rcases holds_set hx with ⟨-, -, n, hphase⟩ | hx
      · cases hphase
      · exact hx
    · cases hnext
  | fails l error =>
    simp only [State.next] at hnext
    split at hnext
    · next key ttl started hl =>
      cases hnext
      refine h.release (z := .load l) ⟨_, started, hl, rfl, rfl⟩ (fun x host hx => ?_) rfl
      rcases holds_set hx with ⟨-, -, n, hphase⟩ | hx
      · cases hphase
      · exact hx
    · cases hnext
  | save l =>
    simp only [State.next] at hnext
    split at hnext
    · cases hnext
      refine h.mono (fun x host hx => ?_) rfl
      rcases holds_set hx with ⟨-, -, n, hphase⟩ | ⟨-, hx⟩
      · cases hphase
      · exact hx
    · cases hnext
      refine h.mono (fun x host hx => ?_) rfl
      rcases holds_set hx with ⟨-, -, n, hphase⟩ | ⟨-, hx⟩
      · cases hphase
      · exact hx
    · cases hnext
  | finish l =>
    simp only [State.next] at hnext
    split at hnext
    · cases hnext
      refine h.mono (fun x host hx => ?_) rfl
      rcases holds_set hx with ⟨-, -, n, hphase⟩ | ⟨-, hx⟩
      · cases hphase
      · exact hx
    · cases hnext
  | wake c =>
    simp only [State.next] at hnext
    split at hnext
    · obtain ⟨-, heq⟩ := Option.ite_none_right_eq_some.1 hnext
      cases heq
      exact h.mono (fun _ _ hx => hx) rfl
    · cases hnext
  | timeout c =>
    simp only [State.next] at hnext
    split at hnext
    · cases hnext
      exact h.mono (fun _ _ hx => hx) rfl
    · cases hnext
  | hostCall host skip =>
    simp only [State.next] at hnext
    split at hnext
    · cases hnext
      exact h
    · cases hnext
      exact h.mono (fun _ _ hx => holds_call hx) rfl
  | enter i =>
    simp only [State.next] at hnext
    split at hnext
    · next host hi =>
      split at hnext
      · cases hnext
        refine h.mono (fun x other hx => ?_) rfl
        rcases holds_setCall hx with ⟨-, heq⟩ | ⟨-, hx⟩
        · cases heq
        · exact hx
      · next hfree =>
        cases hnext
        refine h.take (z := .call i) (by simpa using hfree) (fun x other hx => ?_) rfl
        rcases holds_setCall hx with ⟨hcall, heq⟩ | ⟨-, hx⟩
        · cases heq
          exact .inl ⟨hcall, rfl⟩
        · exact .inr hx
    · cases hnext
  | leave i =>
    simp only [State.next] at hnext
    split at hnext
    · next host hi =>
      cases hnext
      have hi' : Holds C s.loads s.calls (.call i) host := hi
      refine h.release hi' (fun x other hx => ?_) rfl
      rcases holds_setCall hx with ⟨-, heq⟩ | hx
      · cases heq
      · exact hx
    · cases hnext
  | invalidate =>
    cases hnext
    exact h.mono (fun _ _ hx => hx) rfl

/-! ### Values -/

theorem value_put (s : State κ η) (key : κ) (entry : Entry) (k : κ) :
    (({ s with entries := Dict.put s.entries key entry } : State κ η).entry k) =
      if k = key then entry else s.entry k := by
  unfold State.entry
  by_cases hk : k = key
  · subst hk
    simp
  · rw [if_neg hk, Dict.lookup_put_of_ne _ _ hk]

/-- `get` changes no entry but its `ttl`. -/
theorem entry_get (s : State κ η) (key : κ) (ttl : ℚ) (force : Bool) (k : κ) :
    (s.get key ttl force).entry k =
      if k = key then { s.entry key with ttl := ttl } else s.entry k := by
  rw [← value_put]
  unfold State.get State.entry
  dsimp only
  split
  · rfl
  · split
    · rw [State.join_entries]
    · rw [State.join_entries]

/-- The events that touch an entry, and those that touch a waiting caller. -/
def Event.writes : Event κ η → Bool
  | .get .. | .save _ | .finish _ | .invalidate => true
  | _ => false

def Event.waits : Event κ η → Bool
  | .get .. | .wake _ | .timeout _ => true
  | _ => false

theorem frame_next {e : Event κ η} (h : s.next C e = some t) :
    (e.writes = false → t.entries = s.entries) ∧ (e.waits = false → t.waiters = s.waiters) ∧
      (e ≠ .invalidate → t.invalidated = s.invalidated) := by
  cases e with
  | get key ttl force =>
    cases h
    refine ⟨fun hfalse => (by cases hfalse), fun hfalse => (by cases hfalse), fun _ => ?_⟩
    unfold State.get
    dsimp only
    split
    · rfl
    · split
      · exact State.join_invalidated ..
      · exact State.join_invalidated ..
  | invalidate =>
    cases h
    exact ⟨fun hfalse => (by cases hfalse), fun _ => rfl, fun hne => absurd rfl hne⟩
  | tick d =>
    obtain ⟨-, heq⟩ := Option.ite_none_right_eq_some.1 h
    cases heq
    exact ⟨fun _ => rfl, fun _ => rfl, fun _ => rfl⟩
  | acquire l =>
    simp only [State.next] at h
    split at h
    · obtain ⟨-, heq⟩ := Option.ite_none_left_eq_some.1 h
      cases heq
      exact ⟨fun _ => rfl, fun _ => rfl, fun _ => rfl⟩
    · cases h
  | ends | fails | leave =>
    simp only [State.next] at h
    split at h
    · cases h
      exact ⟨fun _ => rfl, fun _ => rfl, fun _ => rfl⟩
    · cases h
  | save l =>
    simp only [State.next] at h
    split at h
    · cases h
      exact ⟨fun hfalse => (by cases hfalse), fun _ => rfl, fun _ => rfl⟩
    · cases h
      exact ⟨fun hfalse => (by cases hfalse), fun _ => rfl, fun _ => rfl⟩
    · cases h
  | finish l =>
    simp only [State.next] at h
    split at h
    · cases h
      exact ⟨fun hfalse => (by cases hfalse), fun _ => rfl, fun _ => rfl⟩
    · cases h
  | wake c =>
    simp only [State.next] at h
    split at h
    · obtain ⟨-, heq⟩ := Option.ite_none_right_eq_some.1 h
      cases heq
      exact ⟨fun _ => rfl, fun hfalse => (by cases hfalse), fun _ => rfl⟩
    · cases h
  | timeout c =>
    simp only [State.next] at h
    split at h
    · cases h
      exact ⟨fun _ => rfl, fun hfalse => (by cases hfalse), fun _ => rfl⟩
    · cases h
  | hostCall host skip =>
    simp only [State.next] at h
    split at h
    · cases h
      exact ⟨fun _ => rfl, fun _ => rfl, fun _ => rfl⟩
    · cases h
      exact ⟨fun _ => rfl, fun _ => rfl, fun _ => rfl⟩
  | enter i =>
    simp only [State.next] at h
    split at h
    · split at h
      · cases h
        exact ⟨fun _ => rfl, fun _ => rfl, fun _ => rfl⟩
      · cases h
        exact ⟨fun _ => rfl, fun _ => rfl, fun _ => rfl⟩
    · cases h

/-- The entry under a key is what it was, but for its `ttl`; it is what a thread writes; it is evicted;
or it is invalidated. -/
inductive Entered (C : Config κ η) (s : State κ η) (e : Event κ η) (k : κ) (after : Entry) : Prop
  | same (ttl : ℚ) (h : after = { s.entry k with ttl := ttl })
  | saved (l : ℕ) (ttl : ℚ) (v : Value) (he : e = .save l)
      (hl : s.loads[l]? = some ⟨k, ttl, .returned v⟩) (h : after = ⟨some v, some s.now, 0, [], ttl⟩)
  | failed (error : Text)
      (h : after = { s.entry k with error := error, retry := s.now + C.backoff })
  | gone (h : after = .new)
  | stale (he : e = .invalidate) (h : after.value = (s.entry k).value) (htime : after.time = none)

theorem entered_next {e : Event κ η} (h : s.next C e = some t) (k : κ) :
    Entered C s e k (t.entry k) := by
  have hframe : e.writes = false → Entered C s e k (t.entry k) := by
    intro hwrites
    refine .same (s.entry k).ttl ?_
    unfold State.entry
    rw [(frame_next h).1 hwrites]
  cases e with
  | get key ttl force =>
    cases h
    rw [entry_get]
    split
    · next hk => exact .same ttl (by rw [hk])
    · exact .same (s.entry k).ttl rfl
  | save l =>
    simp only [State.next] at h
    split at h
    · next key ttl v hl =>
      cases h
      have hentry := value_put s key ⟨some v, some s.now, 0, [], ttl⟩ k
      by_cases hk : k = key
      · subst hk
        rw [if_pos rfl] at hentry
        exact .saved l ttl v rfl hl hentry
      · rw [if_neg hk] at hentry
        exact .same (s.entry k).ttl hentry
    · next key ttl error hl =>
      cases h
      have hentry := value_put s key { s.entry key with error := error, retry := s.now + C.backoff } k
      by_cases hk : k = key
      · subst hk
        rw [if_pos rfl] at hentry
        exact .failed error hentry
      · rw [if_neg hk] at hentry
        exact .same (s.entry k).ttl hentry
    · cases h
  | finish l =>
    simp only [State.next] at h
    split at h
    · next key ttl hl =>
      cases h
      rcases lookup_evict C.limit key (Function.update s.pending key none) s.entries.length s.entries
        k with heq | ⟨hgone, -⟩
      · refine .same (s.entry k).ttl ?_
        show (List.lookup k _).getD Entry.new = _
        rw [heq]
        rfl
      · refine .gone ?_
        show (List.lookup k _).getD Entry.new = _
        rw [hgone]
        rfl
    · cases h
  | invalidate =>
    cases h
    refine .stale rfl ?_ ?_
    · unfold State.entry
      rw [Dict.lookup_mapValues]
      cases s.entries.lookup k <;> rfl
    · unfold State.entry
      rw [Dict.lookup_mapValues]
      cases s.entries.lookup k <;> rfl
  | tick | acquire | ends | fails | wake | timeout | hostCall | enter | leave => exact hframe rfl

/-- A value that an entry has was there, or the thread that returned it writes it. -/
theorem value_next {e : Event κ η} (h : s.next C e = some t) {k : κ} {v : Value}
    (hv : (t.entry k).value = some v) :
    (s.entry k).value = some v ∨
      ∃ l ttl, e = .save l ∧ s.loads[l]? = some ⟨k, ttl, .returned v⟩ := by
  cases entered_next h k with
  | same ttl heq =>
    rw [heq] at hv
    exact .inl hv
  | saved l ttl w he hl heq =>
    rw [heq] at hv
    cases hv
    exact .inr ⟨l, ttl, he, hl⟩
  | failed error heq =>
    rw [heq] at hv
    exact .inl hv
  | gone heq =>
    rw [heq] at hv
    cases hv
  | stale he hvalue _ =>
    rw [hvalue] at hv
    exact .inl hv

/-- A thread that has returned was there already, or it returns now. -/
theorem returned_next {e : Event κ η} (h : s.next C e = some t) {l : ℕ} {ld : Load κ} {v : Value}
    (hl : t.loads[l]? = some ld) (hv : ld.phase = .returned v) :
    s.loads[l]? = some ld ∨ (v.ended = s.steps ∧
      ∃ old, s.loads[l]? = some old ∧ old.key = ld.key ∧ old.phase = .running v.started) := by
  cases moves_next h with
  | same hloads _ => exact .inl (hloads ▸ hl)
  | start key ttl hkey hloads _ =>
    rw [hloads] at hl
    rcases Slots.concat_cases hl with ⟨-, rfl⟩ | hl
    · cases hv
    · exact .inl hl
  | next m old phase hm _ _ _ hreturned hloads _ =>
    rw [hloads] at hl
    rcases Slots.set_cases hl with ⟨rfl, rfl⟩ | ⟨-, hl⟩
    · obtain ⟨hrunning, hended⟩ := hreturned v hv
      exact .inr ⟨hended, old, hm, rfl, hrunning⟩
    · exact .inl hl
  | finish m old hm _ hloads _ =>
    rw [hloads] at hl
    rcases Slots.set_cases hl with ⟨rfl, rfl⟩ | ⟨-, hl⟩
    · cases hv
    · exact .inl hl

/-- What a later `get` for the key may return has come from a load that ended at `m` or later. -/
structure State.Past (s : State κ η) (k : κ) (m : ℕ) : Prop where
  entry : ∀ v, (s.entry k).value = some v → m ≤ v.ended
  load : ∀ (l : ℕ) (ld : Load κ) (v : Value), s.loads[l]? = some ld → ld.key = k →
    ld.phase = .returned v → m ≤ v.ended
  steps : m ≤ s.steps

theorem State.Past.step {k : κ} {m : ℕ} (h : s.Past k m) {e : Event κ η}
    (hstep : s.step C e = some t) : t.Past k m := by
  obtain ⟨u, hnext, rfl⟩ := Option.map_eq_some_iff.1 hstep
  constructor
  · intro v hv
    rcases value_next hnext hv with hv | ⟨l, ttl, -, hl⟩
    · exact h.entry v hv
    · exact h.load l _ v hl rfl rfl
  · intro l ld v hl hkey hv
    rcases returned_next hnext hl hv with hl | ⟨hended, -⟩
    · exact h.load l ld v hl hkey hv
    · rw [hended]
      exact h.steps
  · exact h.steps.trans (Nat.le_succ _)

/-- A waiting caller was there already, or it has read the entry now. -/
theorem waiter_next {e : Event κ η} (h : s.next C e = some t) {c : ℕ} {w : Waiter κ}
    (hw : t.waiters[c]? = some w) :
    (∃ old, s.waiters[c]? = some old ∧ old.key = w.key ∧ old.saved = w.saved) ∨
      (c = s.waiters.length ∧ w.saved = (s.entry w.key).value) := by
  have hframe : e.waits = false →
      ∃ old, s.waiters[c]? = some old ∧ old.key = w.key ∧ old.saved = w.saved :=
    fun hwaits => ⟨w, (frame_next h).2.1 hwaits ▸ hw, rfl, rfl⟩
  cases e with
  | get key ttl force =>
    cases h
    have hcases : (s.get key ttl force).waiters = s.waiters ∨ ∃ l,
        (s.get key ttl force).waiters = s.waiters ++ [⟨key, (s.entry key).value, l, false⟩] := by
      unfold State.get
      dsimp only
      split
      · exact .inl rfl
      · split
        · exact (State.join_waiters ..).imp id fun heq => ⟨_, heq⟩
        · exact (State.join_waiters ..).imp id fun heq => ⟨_, heq⟩
    rcases hcases with heq | ⟨l, heq⟩
    · exact .inl ⟨w, heq ▸ hw, rfl, rfl⟩
    · rw [heq] at hw
      rcases Slots.concat_cases hw with ⟨rfl, rfl⟩ | hw
      · exact .inr ⟨rfl, rfl⟩
      · exact .inl ⟨w, hw, rfl, rfl⟩
  | wake d =>
    simp only [State.next] at h
    split at h
    · next key saved l hd =>
      obtain ⟨-, heq⟩ := Option.ite_none_right_eq_some.1 h
      cases heq
      rcases Slots.set_cases hw with ⟨rfl, rfl⟩ | ⟨-, hw⟩
      · exact .inl ⟨_, hd, rfl, rfl⟩
      · exact .inl ⟨w, hw, rfl, rfl⟩
    · cases h
  | timeout d =>
    simp only [State.next] at h
    split at h
    · next key saved l hd =>
      cases h
      rcases Slots.set_cases hw with ⟨rfl, rfl⟩ | ⟨-, hw⟩
      · exact .inl ⟨_, hd, rfl, rfl⟩
      · exact .inl ⟨w, hw, rfl, rfl⟩
    · cases h
  | tick | acquire | ends | fails | save | finish | hostCall | enter | leave | invalidate =>
    exact .inl (hframe rfl)

/-! ### Runs -/

structure Inv (C : Config κ η) (s : State κ η) : Prop where
  flights : Flights s.loads s.pending
  locks : Locks C s
  entry : ∀ k v, (s.entry k).value = some v → s.Past k v.ended
  waiter : ∀ (c : ℕ) (w : Waiter κ) (v : Value), s.waiters[c]? = some w → w.saved = some v →
    s.Past w.key v.ended
  ended : ∀ (l : ℕ) (ld : Load κ) (v : Value), s.loads[l]? = some ld → ld.phase = .returned v →
    v.ended ≤ s.steps

theorem Inv.initial : Inv C (.initial : State κ η) := by
  constructor
  · exact ⟨fun _ _ h => (by cases h), fun _ _ h => (by cases h)⟩
  · constructor
    · rintro (l | i) host h
      · obtain ⟨_, _, h, -⟩ := h
        cases h
      · cases h
    · rintro (l | i) y host h
      · obtain ⟨_, _, h, -⟩ := h
        cases h
      · cases h
  · exact fun _ _ h => by cases h
  · exact fun _ _ _ h => by cases h
  · exact fun _ _ _ h => by cases h

theorem Inv.step (h : Inv C s) {e : Event κ η} (hstep : s.step C e = some t) : Inv C t := by
  have hpast : ∀ {k m}, s.Past k m → t.Past k m := fun hpast => hpast.step hstep
  obtain ⟨u, hnext, rfl⟩ := Option.map_eq_some_iff.1 hstep
  have hflights := h.flights.next hnext
  constructor
  · exact hflights
  · exact (h.locks.next hnext).mono (fun _ _ hx => hx) rfl
  · intro k v hv
    rcases value_next hnext hv with hv | ⟨l, ttl, rfl, hl⟩
    · exact hpast (h.entry k v hv)
    · -- the thread that writes the entry is the only one for its key
      have hend : v.ended ≤ s.steps := h.ended l _ v hl rfl
      have hpending : s.pending k = some l := h.flights.pending l _ hl (by simp)
      refine ⟨fun w hw => ?_, fun m lm w hm hkey hw => ?_, hend.trans (Nat.le_succ _)⟩
      · have hboth : some v = some w := hv.symm.trans hw
        cases hboth
        exact le_rfl
      · exfalso
        rcases returned_next hnext hm hw with hm' | ⟨-, old, hm', hold, hrunning⟩
        · have hother := h.flights.pending m lm hm' (by simp [hw])
          rw [hkey, hpending] at hother
          cases hother
          simp only [State.next, hl] at hnext
          cases hnext
          have hset : (s.loads.set l ⟨k, ttl, .saved⟩)[l]? = some lm := hm
          rw [Slots.get_set_self hl] at hset
          cases hset
          cases hw
        · have hother := h.flights.pending m old hm' (by simp [hrunning])
          rw [hold, hkey, hpending] at hother
          cases hother
          rw [hl] at hm'
          cases hm'
          cases hrunning
  · intro c w v hw hv
    rcases waiter_next hnext hw with ⟨old, hold, hkey, hsaved⟩ | ⟨-, hsaved⟩
    · rw [← hkey]
      exact hpast (h.waiter c old v hold (hsaved.trans hv))
    · exact hpast (h.entry w.key v (hsaved.symm.trans hv))
  · intro l ld v hl hv
    rcases returned_next hnext hl hv with hl | ⟨hended, -⟩
    · exact (h.ended l ld v hl hv).trans (Nat.le_succ _)
    · rw [hended]
      exact Nat.le_succ _

theorem Inv.run {es : List (Event κ η)} (hrun : Machine.run (State.step C) .initial es = some s) :
    Inv C s :=
  Machine.invariant (fun _ _ _ h hstep => h.step hstep) Inv.initial hrun

/-- A returned value is the entry's, or it is the one that a caller has read before it waited. -/
theorem returned_cases {e : Event κ η} {k : κ} {v : Value} (h : s.returned e = some (k, v)) :
    (s.entry k).value = some v ∨
      ∃ c w, e = .timeout c ∧ s.waiters[c]? = some w ∧ w.key = k ∧ w.saved = some v := by
  cases e with
  | get key ttl force =>
    left
    simp only [State.returned] at h
    split at h
    · cases h
    · next value fresh hvalue hfresh =>
      cases h
      unfold State.fresh at hfresh
      exact (Option.ite_none_right_eq_some.1 hfresh).2
    · next value hvalue hfresh =>
      obtain ⟨-, heq⟩ := Option.ite_none_right_eq_some.1 h
      cases heq
      exact hvalue
  | wake c =>
    left
    obtain ⟨w, -, heq⟩ := Option.bind_eq_some_iff.1 h
    obtain ⟨value, hvalue, heq⟩ := Option.map_eq_some_iff.1 heq
    cases heq
    exact hvalue
  | timeout c =>
    obtain ⟨w, hw, heq⟩ := Option.bind_eq_some_iff.1 h
    obtain ⟨value, hvalue, heq⟩ := Option.map_eq_some_iff.1 heq
    cases heq
    exact .inr ⟨c, w, rfl, hw, rfl, hvalue⟩
  | tick | acquire | ends | fails | save | finish | hostCall | enter | leave | invalidate => cases h

/-- The call of `get` that the event belongs to begins when `n` callers have waited before. -/
def Event.later (n : ℕ) : Event κ η → Bool
  | .wake c | .timeout c => n ≤ c
  | _ => true

/-- Whatever a call that begins when `n` callers have waited returns for the key is not older. -/
structure Newer (s : State κ η) (n : ℕ) (k : κ) (m : ℕ) : Prop where
  past : s.Past k m
  waiter : ∀ (c : ℕ) (w : Waiter κ) (v : Value), n ≤ c → s.waiters[c]? = some w → w.key = k →
    w.saved = some v → m ≤ v.ended

theorem Newer.step {n m : ℕ} {k : κ} (h : Newer s n k m) {e : Event κ η}
    (hstep : s.step C e = some t) : Newer t n k m := by
  refine ⟨h.past.step hstep, fun c w v hc hw hkey hv => ?_⟩
  obtain ⟨u, hnext, rfl⟩ := Option.map_eq_some_iff.1 hstep
  rcases waiter_next hnext hw with ⟨old, hold, holdkey, hsaved⟩ | ⟨-, hsaved⟩
  · exact h.waiter c old v hc hold (holdkey.trans hkey) (hsaved.trans hv)
  · rw [hv, hkey] at hsaved
    exact h.past.entry v hsaved.symm

/-- The unfinished loads of a key are one. -/
def SingleFlight (s : State κ η) : Prop :=
  ∀ (l m : ℕ) (ld lm : Load κ), s.loads[l]? = some ld → s.loads[m]? = some lm →
    ld.phase ≠ .ended → lm.phase ≠ .ended → ld.key = lm.key → l = m

/-- The loaders and the callbacks that run on a host are one. -/
def SerialPerHost (C : Config κ η) (s : State κ η) : Prop :=
  ∀ x y host, Holds C s.loads s.calls x host → Holds C s.loads s.calls y host → x = y

theorem Flights.single (h : Flights s.loads s.pending) : SingleFlight s := by
  intro l m ld lm hl hm hld hlm hkey
  have hpending := h.pending l ld hl hld
  rw [hkey, h.pending m lm hm hlm] at hpending
  exact (Option.some.inj hpending).symm

/-- In every reachable state a key has at most one load in flight, a host runs at most one loader or
callback, and from then on a call of `get` that begins after another one has returned never returns
the value of a load that ended before the other's. -/
theorem single_serial_monotone {es : List (Event κ η)}
    (hrun : Machine.run (State.step C) .initial es = some s) :
    SingleFlight s ∧ SerialPerHost C s ∧
      ∀ (e : Event κ η) (k : κ) (v : Value), s.step C e = some t → s.returned e = some (k, v) →
        ∀ (fs : List (Event κ η)) (u : State κ η), Machine.run (State.step C) t fs = some u →
          ∀ (e' : Event κ η) (v' : Value), e'.later t.waiters.length = true →
            u.returned e' = some (k, v') → v.ended ≤ v'.ended := by
  have hinv := Inv.run hrun
  refine ⟨hinv.flights.single, hinv.locks.unique, ?_⟩
  intro e k v hstep hreturned fs u hrest e' v' hlater hreturned'
  have hpast : s.Past k v.ended := by
    rcases returned_cases hreturned with hv | ⟨c, w, -, hw, rfl, hv⟩
    · exact hinv.entry k v hv
    · exact hinv.waiter c w v hw hv
  have hfirst : Newer t t.waiters.length k v.ended := by
    refine ⟨hpast.step hstep, fun c w v hc hw => ?_⟩
    exact absurd (Slots.lt_length hw) (Nat.not_lt.2 hc)
  have hnewer : Newer u t.waiters.length k v.ended :=
    Machine.invariant (fun _ _ _ h hstep => Newer.step h hstep) hfirst hrest
  rcases returned_cases hreturned' with hv | ⟨c, w, rfl, hw, hkey, hv⟩
  · exact hnewer.past.entry v' hv
  · exact hnewer.waiter c w v' (by simpa [Event.later] using hlater) hw hkey hv

section Sample

def sampleConfig : Config ℕ ℕ := ⟨fun key => key, 60, 32⟩

/-- The thread `l` loads. -/
def sampleLoad (l : ℕ) : List (Event ℕ ℕ) :=
  [Event.acquire l, Event.ends l none, Event.save l, Event.finish l]

/-- A caller gets a first value; a forced refresh waits for another one. -/
theorem single_serial_monotone_sample :
    ∃ s t u v v', Machine.run (State.step sampleConfig) .initial
        (Event.get 0 30 false :: sampleLoad 0) = some s ∧
      s.step sampleConfig (.wake 0) = some t ∧ s.returned (.wake 0) = some (0, v) ∧
      Machine.run (State.step sampleConfig) t (Event.get 0 30 true :: sampleLoad 1) = some u ∧
      u.returned (.wake 1) = some (0, v') ∧ v ≠ v' ∧
      SingleFlight s ∧ SerialPerHost sampleConfig s ∧ v.ended ≤ v'.ended := by
  have hsome : ((Machine.run (State.step sampleConfig) .initial
      (Event.get 0 30 false :: sampleLoad 0)).bind fun s =>
        (s.step sampleConfig (.wake 0)).bind fun t =>
          (Machine.run (State.step sampleConfig) t (Event.get 0 30 true :: sampleLoad 1)).bind fun u =>
            (s.returned (.wake 0)).bind fun p => (u.returned (.wake 1)).map fun q =>
              (p.1, q.1, t.waiters.length, decide (p.2 = q.2))) = some (0, 0, 1, false) := by
    decide +kernel
  obtain ⟨s, hrun, heq⟩ := Option.bind_eq_some_iff.1 hsome
  obtain ⟨t, hstep, heq⟩ := Option.bind_eq_some_iff.1 heq
  obtain ⟨u, hrest, heq⟩ := Option.bind_eq_some_iff.1 heq
  obtain ⟨⟨k, v⟩, hv, heq⟩ := Option.bind_eq_some_iff.1 heq
  obtain ⟨⟨k', v'⟩, hv', heq⟩ := Option.map_eq_some_iff.1 heq
  obtain ⟨rfl, rfl, hwaiters, hne⟩ : k = 0 ∧ k' = 0 ∧ t.waiters.length = 1 ∧ ¬ v = v' := by
    simpa using heq
  obtain ⟨hsingle, hserial, hmonotone⟩ := single_serial_monotone hrun
  refine ⟨s, t, u, v, v', hrun, hstep, hv, hrest, hv', hne, hsingle, hserial, ?_⟩
  refine hmonotone _ 0 v hstep hv _ u hrest (.wake 1) v' ?_ hv'
  rw [hwaiters]
  rfl

end Sample

end SnapshotCache
end Slurmy
