import Mathlib.Algebra.Order.Ring.Rat
import Slurmy.Lib.Dict
import Slurmy.Lib.Machine
import Slurmy.Text

/-!
# The snapshot cache

`SnapshotCache` of `snapshot_cache.py`: monitoring data under keys, refreshed in threads of its own.

* `Entry`, `State`: the dictionaries under the cache's lock, the locks of the hosts, the loader threads,
  and the callers that wait;
* `Event`, `State.step`: the sections under the lock, the calls and the ends of loaders and callbacks,
  in any order;
* `State.status`, `State.fresh`, `State.returned`: what `status` and `get` answer.

Every loader returns an object of its own, so the number of its thread says which object it is.
-/

namespace Slurmy
namespace SnapshotCache

/-- An object that the loader of thread `load` has returned.  `started` and `ended` count the events
before its call and before its end; the program does not know them. -/
structure Value where
  load : ℕ
  started : ℕ
  ended : ℕ
  fetchedEpoch : Option ℚ
  deriving DecidableEq

/-- `time` is `none` for `-inf`, and an absent error is empty. -/
structure Entry where
  value : Option Value
  time : Option ℚ
  retry : ℚ
  error : Text
  ttl : ℚ
  deriving DecidableEq

def Entry.new : Entry := ⟨none, none, 0, [], 0⟩

/-- `now - entry['time'] < ttl`. -/
def Entry.recent (e : Entry) (now ttl : ℚ) : Bool := e.time.any fun t => now - t < ttl

inductive Phase
  /-- `with host_lock` -/
  | waiting
  /-- the loader has been called -/
  | running (started : ℕ)
  | returned (value : Value)
  | raised (error : Text)
  /-- the entry is written -/
  | saved
  /-- `pending.set()` -/
  | ended
  deriving DecidableEq

/-- A thread that runs `load`. -/
structure Load (κ : Type*) where
  key : κ
  ttl : ℚ
  phase : Phase
  deriving DecidableEq

/-- A caller of `get` that waits for the thread `load`. -/
structure Waiter (κ : Type*) where
  key : κ
  saved : Option Value
  load : ℕ
  done : Bool
  deriving DecidableEq

inductive CallPhase
  /-- `lock.acquire(blocking=False)` -/
  | ready
  /-- the callback has been called -/
  | running
  | ended
  deriving DecidableEq

/-- A caller of `try_host_call`. -/
structure HostCall (η : Type*) where
  host : η
  phase : CallPhase
  deriving DecidableEq

/-- `steps` counts the events, and `invalidated` says when `invalidate` was called; the program knows
neither. -/
structure State (κ η : Type*) where
  entries : List (κ × Entry)
  pending : κ → Option ℕ
  locked : η → Bool
  loads : List (Load κ)
  waiters : List (Waiter κ)
  calls : List (HostCall η)
  now : ℚ
  steps : ℕ
  invalidated : List ℕ

/-- `key[0]`, and the arguments of `__init__`. -/
structure Config (κ η : Type*) where
  host : κ → η
  backoff : ℚ
  limit : ℕ

inductive Event (κ η : Type*)
  | tick (d : ℚ)
  /-- the first section of `get` -/
  | get (key : κ) (ttl : ℚ) (force : Bool)
  /-- the thread gets the host's lock and calls the loader -/
  | acquire (l : ℕ)
  | ends (l : ℕ) (fetchedEpoch : Option ℚ)
  | fails (l : ℕ) (error : Text)
  /-- the thread writes the entry -/
  | save (l : ℕ)
  /-- the section in `finally` -/
  | finish (l : ℕ)
  /-- a waiting caller finds the event set -/
  | wake (c : ℕ)
  | timeout (c : ℕ)
  /-- the section of `try_host_call` -/
  | hostCall (host : η) (skipIfRecent : Option ℚ)
  | enter (i : ℕ)
  | leave (i : ℕ)
  | invalidate

variable {κ η : Type*} [DecidableEq κ] [DecidableEq η]

/-! ### The dictionary -/

/-- At most `n` victims of the loop that keeps the number of entries below the limit. -/
def evict (limit : ℕ) (key : κ) (pending : κ → Option ℕ) : ℕ → List (κ × Entry) → List (κ × Entry)
  | 0, entries => entries
  | n + 1, entries =>
      if limit < entries.length then
        match entries.find? fun p => p.1 ≠ key ∧ pending p.1 = none with
        | none => entries
        | some victim => evict limit key pending n (Dict.erase entries victim.1)
      else entries

/-- Only entries without a load are evicted, and only others than the one that is written. -/
theorem lookup_evict (limit : ℕ) (key : κ) (pending : κ → Option ℕ) (n : ℕ)
    (entries : List (κ × Entry)) (k : κ) :
    (evict limit key pending n entries).lookup k = entries.lookup k ∨
      ((evict limit key pending n entries).lookup k = none ∧ k ≠ key ∧ pending k = none) := by
  induction n generalizing entries with
  | zero => exact .inl rfl
  | succ n ih =>
    unfold evict
    split
    · split
      · exact .inl rfl
      · next victim hvictim =>
        obtain ⟨hne, hpending⟩ : victim.1 ≠ key ∧ pending victim.1 = none := by
          simpa using List.find?_some hvictim
        rcases ih (Dict.erase entries victim.1) with heq | hgone
        · rw [Dict.lookup_erase] at heq
          by_cases hk : k = victim.1
          · rw [if_pos hk] at heq
            exact .inr ⟨heq, hk ▸ hne, hk ▸ hpending⟩
          · rw [if_neg hk] at heq
            exact .inl heq
        · exact .inr hgone
    · exact .inl rfl

namespace State

variable (s : State κ η)

def initial : State κ η := ⟨[], fun _ => none, fun _ => false, [], [], [], 0, 0, []⟩

def entry (key : κ) : Entry := (s.entries.lookup key).getD .new

/-! ### Answers -/

structure Status where
  refreshing : Bool
  error : Text
  updated : Option ℚ
  stale : Bool
  ageSeconds : Option ℤ

/-- `status`; `time` is `time.time()`. -/
def status (key : κ) (value : Option Value) (time : ℚ) : Status :=
  let entry := s.entry key
  let value := value.or entry.value
  let updated := value.bind Value.fetchedEpoch
  let age := updated.map fun u => max 0 (time - u)
  { refreshing := (s.pending key).isSome
    error := entry.error
    updated := updated
    stale := value != entry.value || (s.pending key).isSome || entry.error != [] ||
      age.any (entry.ttl ≤ ·) || !entry.recent s.now entry.ttl
    ageSeconds := age.map Int.floor }

/-- The value that `get` returns as fresh. -/
def fresh (key : κ) (ttl : ℚ) (force : Bool) : Option Value :=
  if !force && (s.entry key).recent s.now ttl then (s.entry key).value else none

/-- What an event returns from `get`, and under which key. -/
def returned : Event κ η → Option (κ × Value)
  | .get key ttl force =>
      match (s.entry key).value, s.fresh key ttl force with
      | none, _ => none
      | some _, some value => some (key, value)
      | some value, none =>
          if s.now < (s.entry key).retry || !force then some (key, value) else none
  | .wake c => s.waiters[c]?.bind fun w => (s.entry w.key).value.map (w.key, ·)
  | .timeout c => s.waiters[c]?.bind fun w => w.saved.map (w.key, ·)
  | _ => none

/-! ### Steps -/

/-- `get` waits, unless it has something to return. -/
def join (key : κ) (saved : Option Value) (force : Bool) (l : ℕ) : State κ η :=
  if saved.isSome && !force then s else { s with waiters := s.waiters ++ [⟨key, saved, l, false⟩] }

section Join

variable (key : κ) (saved : Option Value) (force : Bool) (l : ℕ)

@[simp] theorem join_entries : (s.join key saved force l).entries = s.entries := by
  unfold join
  split <;> rfl

@[simp] theorem join_pending : (s.join key saved force l).pending = s.pending := by
  unfold join
  split <;> rfl

@[simp] theorem join_locked : (s.join key saved force l).locked = s.locked := by
  unfold join
  split <;> rfl

@[simp] theorem join_loads : (s.join key saved force l).loads = s.loads := by
  unfold join
  split <;> rfl

@[simp] theorem join_calls : (s.join key saved force l).calls = s.calls := by
  unfold join
  split <;> rfl

@[simp] theorem join_invalidated : (s.join key saved force l).invalidated = s.invalidated := by
  unfold join
  split <;> rfl

theorem join_waiters : (s.join key saved force l).waiters = s.waiters ∨
    (s.join key saved force l).waiters = s.waiters ++ [⟨key, saved, l, false⟩] := by
  unfold join
  split
  · exact .inl rfl
  · exact .inr rfl

end Join

/-- The first section of `get`. -/
def get (key : κ) (ttl : ℚ) (force : Bool) : State κ η :=
  let entry := { s.entry key with ttl := ttl }
  let t := { s with entries := Dict.put s.entries key entry }
  if (s.fresh key ttl force).isSome || s.now < entry.retry then t
  else
    match s.pending key with
    | some l => t.join key entry.value force l
    | none =>
        { t with
          loads := s.loads ++ [⟨key, ttl, .waiting⟩]
          pending := Function.update s.pending key (some s.loads.length)
        : State κ η }.join key entry.value force s.loads.length

/-- Some key of the host has been refreshed. -/
def refreshed (C : Config κ η) (host : η) (age : ℚ) : Bool :=
  s.entries.any fun p =>
    C.host p.1 = host && p.2.value.isSome && p.2.error = [] && p.2.recent s.now age

/-- The thread `l`, which is at `ld`, goes to a phase. -/
def goes (l : ℕ) (ld : Load κ) (phase : Phase) : State κ η :=
  { s with loads := s.loads.set l { ld with phase := phase } }

def next (C : Config κ η) : Event κ η → Option (State κ η)
  | .tick d => if 0 ≤ d then some { s with now := s.now + d } else none
  | .get key ttl force => some (s.get key ttl force)
  | .acquire l =>
      match s.loads[l]? with
      | some ⟨key, ttl, .waiting⟩ =>
          if s.locked (C.host key) then none
          else some { s.goes l ⟨key, ttl, .waiting⟩ (.running s.steps) with
            locked := Function.update s.locked (C.host key) true }
      | _ => none
  | .ends l fetchedEpoch =>
      match s.loads[l]? with
      | some ⟨key, ttl, .running started⟩ =>
          some { s.goes l ⟨key, ttl, .running started⟩ (.returned ⟨l, started, s.steps, fetchedEpoch⟩)
            with locked := Function.update s.locked (C.host key) false }
      | _ => none
  | .fails l error =>
      match s.loads[l]? with
      | some ⟨key, ttl, .running started⟩ =>
          some { s.goes l ⟨key, ttl, .running started⟩ (.raised error) with
            locked := Function.update s.locked (C.host key) false }
      | _ => none
  | .save l =>
      match s.loads[l]? with
      | some ⟨key, ttl, .returned value⟩ =>
          some { s.goes l ⟨key, ttl, .returned value⟩ .saved with
            entries := Dict.put s.entries key ⟨some value, some s.now, 0, [], ttl⟩ }
      | some ⟨key, ttl, .raised error⟩ =>
          some { s.goes l ⟨key, ttl, .raised error⟩ .saved with
            entries := Dict.put s.entries key
              { s.entry key with error := error, retry := s.now + C.backoff } }
      | _ => none
  | .finish l =>
      match s.loads[l]? with
      | some ⟨key, ttl, .saved⟩ =>
          let pending := Function.update s.pending key none
          some { s.goes l ⟨key, ttl, .saved⟩ .ended with
            pending := pending
            entries := evict C.limit key pending s.entries.length s.entries }
      | _ => none
  | .wake c =>
      match s.waiters[c]? with
      | some ⟨key, saved, l, false⟩ =>
          if (s.loads[l]?.map Load.phase) = some .ended then
            some { s with waiters := s.waiters.set c ⟨key, saved, l, true⟩ }
          else none
      | _ => none
  | .timeout c =>
      match s.waiters[c]? with
      | some ⟨key, saved, l, false⟩ => some { s with waiters := s.waiters.set c ⟨key, saved, l, true⟩ }
      | _ => none
  | .hostCall host skipIfRecent =>
      if skipIfRecent.any (s.refreshed C host) then some s
      else some { s with calls := s.calls ++ [⟨host, .ready⟩] }
  | .enter i =>
      match s.calls[i]? with
      | some ⟨host, .ready⟩ =>
          if s.locked host then some { s with calls := s.calls.set i ⟨host, .ended⟩ }
          else some { s with
            calls := s.calls.set i ⟨host, .running⟩
            locked := Function.update s.locked host true }
      | _ => none
  | .leave i =>
      match s.calls[i]? with
      | some ⟨host, .running⟩ =>
          some { s with
            calls := s.calls.set i ⟨host, .ended⟩
            locked := Function.update s.locked host false }
      | _ => none
  | .invalidate =>
      some { s with
        entries := Dict.mapValues (fun entry => { entry with time := none, retry := 0 }) s.entries
        invalidated := s.invalidated ++ [s.steps] }

def step (C : Config κ η) (s : State κ η) (e : Event κ η) : Option (State κ η) :=
  (s.next C e).map fun t => { t with steps := s.steps + 1 }

end State
end SnapshotCache
end Slurmy
