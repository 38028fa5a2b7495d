import Mathlib.Algebra.Order.Group.Defs
import Mathlib.Tactic
import Slurmy.Monitor.RecoveryWatch

/-!
# Automatic recovery is bounded and spaced

* `watch_cases`, `record_cases`: what `observe` does with the record of a job;
* `IdleFrom`, `confirm_step`: the record's `idle` is the time of an observation since which all show
  the job idle;
* `keepsBudget`: no record that had attempts is dropped and started again;
* `charged_step`, `charged_run`: the record of a returned job, in one step and to the end of a run;
* `retries_bounded`: what the watch promises under that condition;
* `budget_restarted`: a stop marker that is seen during a recovery restarts the budget.
-/

namespace Slurmy
namespace Monitor

section

variable {τ : Type*} [AddCommGroup τ] [LinearOrder τ]

/-! ### One observation -/

/-- The record of a returned job. -/
def Entry.charge (c : Limits τ) (e : Entry τ) (now : τ) : Entry τ :=
  { e with attempts := e.attempts + 1, retry := now + c.retrySeconds, idle := some now }

omit [LinearOrder τ] in
/-- The record that `observe` goes on with is the old one, the old one with its attempts back, or a
new one. -/
theorem record_cases {job : JobSnapshot} {entry : Option (Entry τ)} {e : Entry τ}
    (h : job.record entry = some e) : job.completed ≤ e.completed ∧
    ((∃ old, entry = some old ∧ (e = old ∨
        old.completed < job.completed ∧ e = { old with completed := job.completed, attempts := 0 })) ∨
      (entry = none ∧ (job.active || job.submitting) = true ∧ e = ⟨job.completed, 0, none, 0⟩)) := by
  obtain ⟨old, hold, rfl⟩ := Option.map_eq_some_iff.1 h
  cases entry with
  | none =>
    obtain ⟨hstart, hnew⟩ := Option.ite_none_right_eq_some.1 hold
    cases hnew
    simp [hstart]
  | some first =>
    have hfirst : first = old := by
      split_ifs at hold <;> simpa using hold
    subst hfirst
    by_cases hmore : first.completed < job.completed
    · rw [if_pos hmore]
      exact ⟨le_rfl, .inl ⟨first, rfl, .inr ⟨hmore, rfl⟩⟩⟩
    · rw [if_neg hmore]
      exact ⟨not_lt.1 hmore, .inl ⟨first, rfl, .inl rfl⟩⟩

/-- What `observe` does with one job. -/
theorem watch_cases (c : Limits τ) (job : JobSnapshot) (busy : Bool) (now : τ)
    (entry : Option (Entry τ)) :
    ((job.over = true ∨ job.record entry = none) ∧ job.watch c busy now entry = (none, false)) ∨
    ∃ e, job.over = false ∧ job.record entry = some e ∧
      ((job.idle busy = false ∧ job.watch c busy now entry = (some { e with idle := none }, false)) ∨
        (job.idle busy = true ∧ job.watch c busy now entry =
          (some { e with idle := some (e.idle.getD now) }, false)) ∨
        (job.idle busy = true ∧ e.due c (e.idle.getD now) now = true ∧
          job.watch c busy now entry = (some (e.charge c now), true))) := by
  unfold JobSnapshot.watch
  cases hover : job.over with
  | true => exact .inl ⟨.inl rfl, by simp⟩
  | false =>
    cases hrecord : job.record entry with
    | none => exact .inl ⟨.inr rfl, by simp⟩
    | some e =>
      refine .inr ⟨e, rfl, rfl, ?_⟩
      cases hidle : job.idle busy with
      | false => exact .inl ⟨rfl, by simp⟩
      | true =>
        cases hdue : e.due c (e.idle.getD now) now with
        | false => exact .inr (.inl ⟨rfl, by simp [hdue]⟩)
        | true => exact .inr (.inr ⟨rfl, rfl, by simp [hdue, Entry.charge]⟩)

/-- What `idle_candidates` does with one job that has a record and is not blocked. -/
theorem idleCandidate_cases (c : Limits τ) {s : Slot τ} {e : Entry τ} (hentry : s.entry = some e)
    (hblocked : s.blocked = false) (row : ActivityRow) (queueAvailable busy : Bool) (now : τ) :
    (row.idle queueAvailable busy = false ∧
      ((s.idleCandidate c row queueAvailable busy now).1 =
          { s with entry := some { e with idle := none } } ∨
        (queueAvailable && !busy && (row.stopped || row.missing)) = true ∧
          (s.idleCandidate c row queueAvailable busy now).1 = { s with entry := none })) ∨
    (row.idle queueAvailable busy = true ∧ (s.idleCandidate c row queueAvailable busy now).1 =
      { s with entry := some { e with idle := some (e.idle.getD now) } }) := by
  unfold Slot.idleCandidate ActivityRow.idle
  simp only [hentry, hblocked]
  cases queueAvailable <;> cases busy <;> simp
  cases row.stopped <;> simp
  cases row.missing <;> simp
  cases row.active <;> simp
  cases row.controllerState <;> simp

theorem idleCandidate_of_none (c : Limits τ) {s : Slot τ} (hentry : s.entry = none)
    (row : ActivityRow) (queueAvailable busy : Bool) (now : τ) :
    (s.idleCandidate c row queueAvailable busy now).1 = s := by
  simp [Slot.idleCandidate, hentry]

/-! ### Idle since -/

/-- The observations end with one at time `t` since which all show the job idle. -/
def IdleFrom (log : List (Seen τ)) (t : τ) : Prop :=
  ∃ before first after, log = before ++ first :: after ∧ first.time = t ∧
    ∀ y ∈ first :: after, y.idle = true

omit [AddCommGroup τ] [LinearOrder τ] in
theorem IdleFrom.snoc {log : List (Seen τ)} {t : τ} (h : IdleFrom log t) {y : Seen τ}
    (hy : y.idle = true) : IdleFrom (log ++ [y]) t := by
  obtain ⟨before, first, after, rfl, htime, hidle⟩ := h
  refine ⟨before, first, after ++ [y], by simp, htime, ?_⟩
  intro z hz
  rw [← List.cons_append, List.mem_append, List.mem_singleton] at hz
  rcases hz with hz | rfl
  · exact hidle z hz
  · exact hy

omit [AddCommGroup τ] [LinearOrder τ] in
theorem idleFrom_self (log : List (Seen τ)) {y : Seen τ} (hy : y.idle = true) :
    IdleFrom (log ++ [y]) y.time :=
  ⟨log, y, [], rfl, rfl, by simpa using hy⟩

/-- The times since which the record may call the job idle after the observation `y`. -/
def SinceOf (s : Slot τ) (y : Seen τ) (t : τ) : Prop :=
  t = y.time ∨ ∃ e, s.entry = some e ∧ e.idle = some t

omit [AddCommGroup τ] [LinearOrder τ] in
theorem sinceOf_getD {s : Slot τ} {e : Entry τ} {y : Seen τ}
    (hentry : ∀ t, e.idle = some t → ∃ old, s.entry = some old ∧ old.idle = some t) :
    SinceOf s y (e.idle.getD y.time) := by
  cases hidle : e.idle with
  | none => exact .inl rfl
  | some t => exact .inr (hentry t hidle)

/-- What one observation does to the `idle` of a record, and what it needs to return the job. -/
structure Confirms (c : Limits τ) (s s' : Slot τ) (y : Seen τ) : Prop where
  since : ∀ e, s'.entry = some e → ∀ t, e.idle = some t → y.idle = true ∧ SinceOf s y t
  confirmed : y.returned = true → y.blocked = false ∧ y.idle = true ∧
    ∃ t, SinceOf s y t ∧ c.idleSeconds ≤ y.time - t
  blocked : s'.blocked = true → s'.entry = none

theorem confirms_snapshot (c : Limits τ) {s : Slot τ} (hs : s.blocked = true → s.entry = none)
    (job : JobSnapshot) (busy : Bool) (now : τ) :
    Confirms c s (s.observe c job busy now).1
      ⟨now, !job.over && job.idle busy, (s.observe c job busy now).2, s.blocked⟩ := by
  cases hblocked : s.blocked with
  | true =>
    have hentry := hs hblocked
    constructor <;> simp [Slot.observe, hblocked, hentry]
  | false =>
    have hobserve : s.observe c job busy now =
        ({ s with entry := (job.watch c busy now s.entry).1 },
          (job.watch c busy now s.entry).2) := by
      simp [Slot.observe, hblocked]
    rw [hobserve]
    rcases watch_cases c job busy now s.entry with
      ⟨-, hwatch⟩ | ⟨e, hover, hrecord, hcases⟩
    · rw [hwatch]
      constructor <;> simp
    have hold : ∀ t, e.idle = some t → ∃ old, s.entry = some old ∧ old.idle = some t := by
      intro t ht
      rcases (record_cases hrecord).2 with
        ⟨old, hentry, rfl | ⟨-, rfl⟩⟩ | ⟨-, -, rfl⟩
      · exact ⟨e, hentry, ht⟩
      · exact ⟨old, hentry, ht⟩
      · cases ht
    rcases hcases with ⟨-, hwatch⟩ | ⟨hidle, hwatch⟩ | ⟨hidle, hdue, hwatch⟩
    · rw [hwatch]
      constructor
      · rintro e' h t ht
        cases h
        cases ht
      · simp
      · simp [hblocked]
    · rw [hwatch]
      constructor
      · rintro e' h t ht
        cases h
        cases ht
        exact ⟨by simp [hover, hidle], sinceOf_getD (y := ⟨now, _, _, _⟩) hold⟩
      · simp
      · simp [hblocked]
    · rw [hwatch]
      constructor
      · rintro e' h t ht
        cases h
        cases ht
        exact ⟨by simp [hover, hidle], .inl rfl⟩
      · intro
        refine ⟨rfl, by simp [hover, hidle], _, sinceOf_getD (y := ⟨now, _, _, _⟩) hold, ?_⟩
        simp only [Entry.due, Bool.and_eq_true, decide_eq_true_eq] at hdue
        exact hdue.1.1
      · simp [hblocked]

theorem confirms_row (c : Limits τ) {s : Slot τ} (hs : s.blocked = true → s.entry = none)
    (row : ActivityRow) (queueAvailable busy : Bool) (now : τ) :
    Confirms c s (s.idleCandidate c row queueAvailable busy now).1
      ⟨now, row.idle queueAvailable busy, false, s.blocked⟩ := by
  cases hentry : s.entry with
  | none =>
    rw [idleCandidate_of_none c hentry]
    constructor <;> simp [hentry]
  | some e =>
    have hblocked : s.blocked = false := by
      by_contra hb
      rw [hs (by simpa using hb)] at hentry
      cases hentry
    rcases idleCandidate_cases c hentry hblocked row queueAvailable busy now with
      ⟨-, h | ⟨-, h⟩⟩ | ⟨hidle, h⟩
    · rw [h]
      constructor
      · rintro e' h' t ht
        cases h'
        cases ht
      · simp
      · simp [hblocked]
    · rw [h]
      constructor <;> simp
    · rw [h]
      constructor
      · rintro e' h' t ht
        cases h'
        cases ht
        refine ⟨hidle, sinceOf_getD (y := ⟨now, _, _, _⟩) fun t ht => ⟨e, hentry, ht⟩⟩
      · simp
      · simp [hblocked]

/-- Every return so far was preceded by observations that show the job idle for long enough. -/
def Confirmed (c : Limits τ) (log : List (Seen τ)) : Prop :=
  ∀ before y after, log = before ++ y :: after → y.returned = true →
    y.blocked = false ∧ ∃ t, IdleFrom (before ++ [y]) t ∧ c.idleSeconds ≤ y.time - t

/-- What holds of the observations and the record at any time. -/
structure Tracked (c : Limits τ) (log : List (Seen τ)) (s : Slot τ) : Prop where
  confirmed : Confirmed c log
  since : ∀ e, s.entry = some e → ∀ t, e.idle = some t → IdleFrom log t
  blocked : s.blocked = true → s.entry = none

omit [AddCommGroup τ] [LinearOrder τ] in
theorem SinceOf.idleFrom {s : Slot τ} {y : Seen τ} {t : τ} (h : SinceOf s y t)
    {log : List (Seen τ)} (hs : ∀ e, s.entry = some e → ∀ t, e.idle = some t → IdleFrom log t)
    (hy : y.idle = true) : IdleFrom (log ++ [y]) t := by
  rcases h with rfl | ⟨e, hentry, hidle⟩
  · exact idleFrom_self log hy
  · exact (hs e hentry t hidle).snoc hy

theorem Tracked.snoc {c : Limits τ} {log : List (Seen τ)} {s s' : Slot τ} {y : Seen τ}
    (h : Tracked c log s) (hy : Confirms c s s' y) : Tracked c (log ++ [y]) s' := by
  refine ⟨?_, ?_, hy.blocked⟩
  · intro before z after hsplit hret
    rcases List.eq_nil_or_concat after with rfl | ⟨rest, last, hafter⟩
    · obtain ⟨rfl, hz⟩ := List.append_inj' hsplit rfl
      obtain rfl : y = z := by simpa using hz
      obtain ⟨hblocked, hidle, t, hsince, hlong⟩ := hy.confirmed hret
      exact ⟨hblocked, t, hsince.idleFrom h.since hidle, hlong⟩
    · rw [hafter, List.concat_eq_append, ← List.cons_append, ← List.append_assoc] at hsplit
      obtain ⟨hlog, -⟩ := List.append_inj' hsplit rfl
      exact h.confirmed before z rest hlog hret
  · intro e he t ht
    obtain ⟨hidle, hsince⟩ := hy.since e he t ht
    exact hsince.idleFrom h.since hidle

theorem Tracked.step {c : Limits τ} {log : List (Seen τ)} {s s' : Slot τ} {x : Sight τ}
    (h : Tracked c log s) (hstep : s.step c x = some s') : Tracked c (log ++ s.seen c x) s' := by
  cases hstep
  cases x with
  | snapshot job busy now => exact h.snoc (confirms_snapshot c h.blocked job busy now)
  | row row queueAvailable busy now =>
    exact h.snoc (confirms_row c h.blocked row queueAvailable busy now)
  | stop =>
    simp only [Slot.seen, List.append_nil]
    exact ⟨h.confirmed, by simp [Slot.next, Slot.stop], by simp [Slot.next, Slot.stop]⟩
  | resume =>
    simp only [Slot.seen, List.append_nil]
    refine ⟨h.confirmed, ?_, by simp [Slot.next, Slot.resume]⟩
    rintro e he t ht
    cases he
    cases ht

/-- All that is observed of a job from the first call on. -/
theorem tracked_seenOf (c : Limits τ) (key : Key) (calls : List (Call τ)) :
    Tracked c (seenOf c key Watch.new calls) (Watch.new.calls c calls key) := by
  have hstart : Tracked c [] ((Watch.new : Watch τ) key) := by
    constructor
    · intro before y after hsplit
      simp at hsplit
    · simp [Watch.new]
    · simp [Watch.new]
  have hstep : ∀ log s x s', Tracked c log s → True → Slot.step c s x = some s' →
      Tracked c (log ++ s.seen c x) s' := fun log s x s' h _ hstep => h.step hstep
  exact Machine.trace_invariant_along (C := fun _ _ => True) hstep hstart
    (Machine.along_true _ _) (run_sightsOf key Watch.new calls)

/-! ### The budget -/

/-- The observation drops the record. -/
def Sight.drops : Sight τ → Bool
  | .snapshot job _ _ => job.over
  | .row r queueAvailable busy _ => queueAvailable && !busy && (r.stopped || r.missing)
  | .stop | .resume => false

/-- The observation starts a record where there is none. -/
def Sight.starts : Sight τ → Bool
  | .snapshot job _ _ => !job.over && (job.active || job.submitting)
  | _ => false

/-- The record has attempts. -/
def Slot.attempted (s : Slot τ) : Bool := s.entry.any fun e => 0 < e.attempts

/-- Once a record with attempts has been dropped, no observation starts a new one. -/
def keepsBudget (c : Limits τ) : Slot τ → Bool → List (Sight τ) → Bool
  | _, _, [] => true
  | s, dropped, x :: xs =>
      !(dropped && x.starts) && keepsBudget c (s.next c x) (dropped || x.drops && s.attempted) xs

/-- A user's Stop or Resume of the job. -/
def Sight.user : Sight τ → Bool
  | .stop | .resume => true
  | _ => false

def Sight.time : Sight τ → Option τ
  | .snapshot _ _ now | .row _ _ _ now => some now
  | .stop | .resume => none

/-- The completed count that the observation shows. -/
def Sight.completed : Sight τ → Option ℕ
  | .snapshot job _ _ => some job.completed
  | _ => none

variable {c : Limits τ} {s : Slot τ} {e : Entry τ} {x : Sight τ} {xs : List (Sight τ)}

omit [AddCommGroup τ] [LinearOrder τ] in
theorem time_of_seen {y : Seen τ} [AddCommGroup τ] [LinearOrder τ] (h : y ∈ s.seen c x) :
    x.time = some y.time := by
  cases x with
  | snapshot | row => simp only [Slot.seen, List.mem_singleton] at h; rw [h]; rfl
  | stop | resume => simp [Slot.seen] at h

/-- Returns are at the times of observations. -/
theorem mem_times_of_returned {t : τ}
    (h : t ∈ returned (Machine.trace (Slot.step c) (Slot.seen c) s xs)) :
    t ∈ xs.filterMap Sight.time := by
  induction xs generalizing s with
  | nil => simp [Machine.trace, returned] at h
  | cons x xs ih =>
    have htrace : Machine.trace (Slot.step c) (Slot.seen c) s (x :: xs) =
        s.seen c x ++ Machine.trace (Slot.step c) (Slot.seen c) (s.next c x) xs := rfl
    rw [htrace, returned_append, List.mem_append] at h
    rcases h with h | h
    · obtain ⟨y, hy, rfl⟩ := List.mem_map.1 h
      have htime := time_of_seen (List.mem_filter.1 hy).1
      exact List.mem_filterMap.2 ⟨x, List.mem_cons_self, htime⟩
    · obtain ⟨z, hz, htime⟩ := List.mem_filterMap.1 (ih h)
      exact List.mem_filterMap.2 ⟨z, List.mem_cons_of_mem x hz, htime⟩

/-- One observation of a job that has been returned: its record is dropped, or keeps what it counts,
or is charged with one more attempt. -/
theorem charged_step (hentry : s.entry = some e) (hblocked : s.blocked = false)
    (huser : x.user = false) (hcompleted : ∀ n, x.completed = some n → n ≤ e.completed) :
    (x.drops = true ∧ (s.next c x).entry = none ∧ returned (s.seen c x) = []) ∨
    (∃ idle, s.next c x = ⟨some { e with idle := idle }, false⟩ ∧ returned (s.seen c x) = []) ∨
    ∃ now, x.time = some now ∧ e.retry ≤ now ∧ e.attempts < c.maxAttempts ∧
      s.next c x = ⟨some (e.charge c now), false⟩ ∧ returned (s.seen c x) = [now] := by
  obtain ⟨entry, blocked⟩ := s
  obtain rfl : entry = some e := hentry
  obtain rfl : blocked = false := hblocked
  cases x with
  | stop | resume => cases huser
  | row row queueAvailable busy now =>
    rcases idleCandidate_cases c (s := ⟨some e, false⟩) rfl rfl row queueAvailable busy now with
      ⟨-, h | ⟨hdrop, h⟩⟩ | ⟨-, h⟩
    · exact .inr (.inl ⟨none, h, by simp [Slot.seen, returned]⟩)
    · refine .inl ⟨hdrop, ?_, by simp [Slot.seen, returned]⟩
      rw [Slot.next, h]
    · exact .inr (.inl ⟨_, h, by simp [Slot.seen, returned]⟩)
  | snapshot job busy now =>
    have hless : job.completed ≤ e.completed := hcompleted _ rfl
    have hrecord : job.record (some e) = some e := by
      simp [JobSnapshot.record, not_lt.2 hless]
    have hobserve : (⟨some e, false⟩ : Slot τ).observe c job busy now =
        (⟨(job.watch c busy now (some e)).1, false⟩, (job.watch c busy now (some e)).2) := by
      simp [Slot.observe]
    have hnext : (⟨some e, false⟩ : Slot τ).next c (.snapshot job busy now) =
        ⟨(job.watch c busy now (some e)).1, false⟩ := by
      rw [Slot.next, hobserve]
    have hseen : returned ((⟨some e, false⟩ : Slot τ).seen c (.snapshot job busy now)) =
        if (job.watch c busy now (some e)).2 = true then [now] else [] := by
      rw [Slot.seen, hobserve]
      cases (job.watch c busy now (some e)).2 <;> rfl
    rw [hnext, hseen]
    rcases watch_cases c job busy now (some e) with
      ⟨hover | hnone, h⟩ | ⟨e', -, he', ⟨-, h⟩ | ⟨-, h⟩ | ⟨-, hdue, h⟩⟩
    · rw [h]
      exact .inl ⟨hover, rfl, by simp⟩
    · rw [hrecord] at hnone
      cases hnone
    · rw [hrecord] at he'
      cases he'
      rw [h]
      exact .inr (.inl ⟨none, rfl, by simp⟩)
    · rw [hrecord] at he'
      cases he'
      rw [h]
      exact .inr (.inl ⟨_, rfl, by simp⟩)
    · rw [hrecord] at he'
      cases he'
      rw [h]
      simp only [Entry.due, Bool.and_eq_true, decide_eq_true_eq] at hdue
      exact .inr (.inr ⟨now, rfl, hdue.1.2, hdue.2, rfl, by simp⟩)

/-- A dropped record that is not started again returns nothing. -/
theorem silent_of_dropped (hentry : s.entry = none) (huser : ∀ x ∈ xs, x.user = false)
    (hkeep : keepsBudget c s true xs = true) :
    returned (Machine.trace (Slot.step c) (Slot.seen c) s xs) = [] := by
  induction xs generalizing s with
  | nil => rfl
  | cons x xs ih =>
    simp only [keepsBudget, Bool.true_and, Bool.true_or, Bool.and_eq_true, Bool.not_eq_true'] at hkeep
    have hstep : (s.next c x).entry = none ∧ returned (s.seen c x) = [] := by
      obtain ⟨entry, blocked⟩ := s
      obtain rfl : entry = none := hentry
      cases x with
      | stop | resume => exact absurd (huser _ List.mem_cons_self) (by simp [Sight.user])
      | row row queueAvailable busy now =>
        rw [Slot.next, idleCandidate_of_none c rfl]
        exact ⟨rfl, by simp [Slot.seen, returned]⟩
      | snapshot job busy now =>
        have hwatch : job.watch c busy now none = (none, false) := by
          rcases watch_cases c job busy now none with ⟨-, h⟩ | ⟨e, hover, hrecord, -⟩
          · exact h
          · rcases (record_cases hrecord).2 with ⟨old, hold, -⟩ | ⟨-, hstart, -⟩
            · cases hold
            · simp [Sight.starts, hover, hstart] at hkeep
        cases blocked <;> simp [Slot.next, Slot.seen, Slot.observe, hwatch, returned]
    have htrace : Machine.trace (Slot.step c) (Slot.seen c) s (x :: xs) =
        s.seen c x ++ Machine.trace (Slot.step c) (Slot.seen c) (s.next c x) xs := rfl
    rw [htrace, returned_append, hstep.2, List.nil_append]
    exact ih hstep.1 (fun z hz => huser z (List.mem_cons_of_mem x hz)) hkeep.2

theorem trace_slot_cons (c : Limits τ) (s : Slot τ) (x : Sight τ) (xs : List (Sight τ)) :
    returned (Machine.trace (Slot.step c) (Slot.seen c) s (x :: xs)) = returned (s.seen c x) ++
      returned (Machine.trace (Slot.step c) (Slot.seen c) (s.next c x) xs) :=
  returned_append _ _

/-- The rest of the list has no user action, and its times come in order. -/
structure Quiet (xs : List (Sight τ)) : Prop where
  user : ∀ x ∈ xs, x.user = false
  times : (xs.filterMap Sight.time).Pairwise (· ≤ ·)

omit [AddCommGroup τ] in
theorem Quiet.tail (h : Quiet (x :: xs)) : Quiet xs := by
  refine ⟨fun z hz => h.user z (List.mem_cons_of_mem x hz), ?_⟩
  exact h.times.sublist ((List.sublist_cons_self x xs).filterMap Sight.time)

omit [AddCommGroup τ] in
theorem Quiet.le_time (h : Quiet (x :: xs)) {now t : τ} (hx : x.time = some now)
    (ht : t ∈ xs.filterMap Sight.time) : now ≤ t := by
  have htimes := h.times
  rw [List.filterMap_cons, hx] at htimes
  exact (List.pairwise_cons.1 htimes).1 t ht

/-- From a record with `n` attempts on, at most `maxAttempts - n` returns follow, each no earlier than
the record allows. -/
theorem charged_run {n : ℕ} {dropped : Bool} (hentry : s.entry = some e)
    (hblocked : s.blocked = false) (hn : 0 < n) (hattempts : n ≤ e.attempts) (hquiet : Quiet xs)
    (hcompleted : ∀ x ∈ xs, ∀ m, x.completed = some m → m ≤ e.completed)
    (hkeep : keepsBudget c s dropped xs = true) :
    let rets := returned (Machine.trace (Slot.step c) (Slot.seen c) s xs)
    (rets = [] ∨ n + rets.length ≤ c.maxAttempts) ∧ (∀ t ∈ rets, e.retry ≤ t) ∧
      rets.Pairwise fun t u => t + c.retrySeconds ≤ u := by
  induction xs generalizing s e n dropped with
  | nil => exact ⟨.inl rfl, by simp [Machine.trace, returned], by simp [Machine.trace, returned]⟩
  | cons x xs ih =>
    intro rets
    have hrets : rets = _ := trace_slot_cons c s x xs
    have htail := fun z hz => hcompleted z (List.mem_cons_of_mem x hz)
    simp only [keepsBudget, Bool.and_eq_true] at hkeep
    rcases charged_step (c := c) hentry hblocked (hquiet.user x List.mem_cons_self)
        (hcompleted x List.mem_cons_self) with
      ⟨hdrop, hnone, hret⟩ | ⟨idle, hnext, hret⟩ | ⟨now, htime, hdue, hmax, hnext, hret⟩
    · have hspent : (dropped || x.drops && s.attempted) = true := by
        have hpos : 0 < e.attempts := by omega
        simp [hdrop, Slot.attempted, hentry, hpos]
      rw [hspent] at hkeep
      have hsilent := silent_of_dropped hnone hquiet.tail.user hkeep.2
      rw [hrets, hret, hsilent]
      exact ⟨.inl rfl, by simp, by simp⟩
    · rw [hrets, hret, List.nil_append, hnext]
      rw [hnext] at hkeep
      exact ih (e := { e with idle := idle }) rfl rfl hn hattempts hquiet.tail htail hkeep.2
    · rw [hnext] at hkeep
      have hlater := ih (e := e.charge c now) (n := n + 1) rfl rfl (by omega)
        (by simpa [Entry.charge] using hattempts) hquiet.tail htail hkeep.2
      dsimp only at hlater
      rw [← hnext] at hlater
      obtain ⟨hcount, hretry, hspaced⟩ := hlater
      rw [hrets, hret]
      refine ⟨.inr ?_, ?_, ?_⟩
      · rcases hcount with hnil | hcount
        · rw [hnil]
          simp
          omega
        · rw [List.length_append, List.length_singleton]
          omega
      · intro t ht
        rcases List.mem_append.1 ht with ht | ht
        · rw [List.mem_singleton.1 ht]
          exact hdue
        · exact hdue.trans (hquiet.le_time htime (mem_times_of_returned ht))
      · rw [List.singleton_append, List.pairwise_cons]
        exact ⟨hretry, hspaced⟩

/-- An observation that returns a job charges its record, which then shows no fewer completed pairs
than the observation. -/
theorem returned_step (hret : returned (s.seen c x) ≠ []) :
    ∃ now e', x.time = some now ∧ returned (s.seen c x) = [now] ∧
      s.next c x = ⟨some e', false⟩ ∧ 0 < e'.attempts ∧ e'.attempts ≤ c.maxAttempts ∧
      e'.retry = now + c.retrySeconds ∧ ∀ n, x.completed = some n → n ≤ e'.completed := by
  cases x with
  | row | stop | resume => simp [Slot.seen, returned] at hret
  | snapshot job busy now =>
    obtain ⟨entry, blocked⟩ := s
    cases blocked with
    | true => simp [Slot.seen, Slot.observe, returned] at hret
    | false =>
      have hobserve : (⟨entry, false⟩ : Slot τ).observe c job busy now =
          (⟨(job.watch c busy now entry).1, false⟩, (job.watch c busy now entry).2) := by
        simp [Slot.observe]
      have hwatch : (job.watch c busy now entry).2 = true := by
        by_contra hfalse
        apply hret
        simp [Slot.seen, hobserve, hfalse, returned]
      rcases watch_cases c job busy now entry with
        ⟨-, h⟩ | ⟨e', -, hrecord, ⟨-, h⟩ | ⟨-, h⟩ | ⟨-, hdue, h⟩⟩
      · rw [h] at hwatch; cases hwatch
      · rw [h] at hwatch; cases hwatch
      · rw [h] at hwatch; cases hwatch
      · simp only [Entry.due, Bool.and_eq_true, decide_eq_true_eq] at hdue
        refine ⟨now, e'.charge c now, rfl, ?_, ?_, ?_, ?_, rfl, ?_⟩
        · simp [Slot.seen, hobserve, h, returned]
        · rw [Slot.next, hobserve, h]
        · simp [Entry.charge]
        · have hlt := hdue.2
          simp only [Entry.charge]
          omega
        · rintro n hn
          cases hn
          exact (record_cases hrecord).1

/-- The returns of a whole run. -/
theorem bounded_run {dropped : Bool} (hquiet : Quiet xs)
    (hcompleted : (xs.filterMap Sight.completed).Pairwise (· ≥ ·))
    (hkeep : keepsBudget c s dropped xs = true) :
    let rets := returned (Machine.trace (Slot.step c) (Slot.seen c) s xs)
    rets.length ≤ c.maxAttempts ∧ rets.Pairwise fun t u => t + c.retrySeconds ≤ u := by
  induction xs generalizing s dropped with
  | nil => exact ⟨Nat.zero_le _, by simp [Machine.trace, returned]⟩
  | cons x xs ih =>
    intro rets
    have hrets : rets = _ := trace_slot_cons c s x xs
    simp only [keepsBudget, Bool.and_eq_true] at hkeep
    have htail : (xs.filterMap Sight.completed).Pairwise (· ≥ ·) :=
      hcompleted.sublist ((List.sublist_cons_self x xs).filterMap Sight.completed)
    by_cases hret : returned (s.seen c x) = []
    · rw [hrets, hret, List.nil_append]
      exact ih hquiet.tail htail hkeep.2
    · obtain ⟨now, e', -, hnow, hnext, hpos, hmax, hretry, hcount⟩ := returned_step hret
      have hless : ∀ z ∈ xs, ∀ m, z.completed = some m → m ≤ e'.completed := by
        intro z hz m hm
        cases hx : x.completed with
        | none =>
          -- only a snapshot returns a job
          cases x <;> simp [Sight.completed, Slot.seen, returned] at hx hret
        | some n =>
          rw [List.filterMap_cons, hx] at hcompleted
          have hmem : m ∈ xs.filterMap Sight.completed := List.mem_filterMap.2 ⟨z, hz, hm⟩
          exact ((List.pairwise_cons.1 hcompleted).1 m hmem).trans (hcount n hx)
      rw [hnext] at hkeep
      have hlater := charged_run (c := c) (s := ⟨some e', false⟩) rfl rfl Nat.one_pos hpos
        hquiet.tail hless hkeep.2
      dsimp only at hlater
      rw [← hnext] at hlater
      obtain ⟨hlength, hafter, hspaced⟩ := hlater
      rw [hrets, hnow]
      constructor
      · rcases hlength with hnil | hlength
        · rw [hnil]
          simp
          omega
        · rw [List.length_append, List.length_singleton]
          exact hlength
      · rw [List.singleton_append, List.pairwise_cons, ← hretry]
        exact ⟨hafter, hspaced⟩

/-! ### Calls -/

/-- What the watch promises about a job in the calls `after`, which come after the calls `before`. -/
structure BoundedRetries (c : Limits τ) (key : Key) (before after : List (Call τ)) : Prop where
  count : ((Watch.new.calls c before).returnTimes c key after).length ≤ c.maxAttempts
  spaced : ((Watch.new.calls c before).returnTimes c key after).Pairwise
    fun t u => t + c.retrySeconds ≤ u
  confirmed : ∀ earlier y later, seenOf c key Watch.new (before ++ after) = earlier ++ y :: later →
    y.returned = true → ∃ t, IdleFrom (earlier ++ [y]) t ∧ t + c.idleSeconds ≤ y.time
  blocked : ∀ y ∈ seenOf c key Watch.new (before ++ after), y.returned = true → y.blocked = false

omit [AddCommGroup τ] [LinearOrder τ] in
/-- What a call says is said at its time. -/
theorem time_of_mem_sights {key : Key} {call : Call τ} {t : τ}
    (h : t ∈ (sightsOf key [call]).filterMap Sight.time) : call.time = some t := by
  obtain ⟨x, hx, htime⟩ := List.mem_filterMap.1 h
  rw [sightsOf, Machine.mem_eventsOf, List.flatMap_cons, List.flatMap_nil, List.append_nil] at hx
  cases call with
  | observe | idleCandidates =>
    obtain ⟨row, -, heq⟩ := List.mem_map.1 hx
    cases heq
    exact htime
  | stop | resume =>
    simp only [Call.sights, List.mem_singleton] at hx
    cases hx
    cases htime

omit [AddCommGroup τ] in
/-- Calls at times in order give observations at times in order. -/
theorem times_sightsOf {key : Key} {calls : List (Call τ)}
    (h : (calls.filterMap Call.time).Pairwise (· ≤ ·)) :
    ((sightsOf key calls).filterMap Sight.time).Pairwise (· ≤ ·) := by
  induction calls with
  | nil => exact List.Pairwise.nil
  | cons call calls ih =>
    have htail : (calls.filterMap Call.time).Pairwise (· ≤ ·) :=
      h.sublist ((List.sublist_cons_self call calls).filterMap Call.time)
    have hmem : ∀ u ∈ (sightsOf key calls).filterMap Sight.time,
        u ∈ calls.filterMap Call.time := by
      intro u hu
      obtain ⟨x, hx, htime⟩ := List.mem_filterMap.1 hu
      obtain ⟨other, hother, hsight⟩ := List.mem_flatMap.1 (Machine.mem_eventsOf.1 hx)
      have hother' : u ∈ (sightsOf key [other]).filterMap Sight.time := by
        refine List.mem_filterMap.2 ⟨x, Machine.mem_eventsOf.2 ?_, htime⟩
        simpa using hsight
      exact List.mem_filterMap.2 ⟨other, hother, time_of_mem_sights hother'⟩
    rw [← List.singleton_append, sightsOf_append, List.filterMap_append, List.pairwise_append]
    refine ⟨?_, ih htail, ?_⟩
    · apply List.pairwise_of_forall_mem_list
      intro t ht u hu
      have heq := (time_of_mem_sights ht).symm.trans (time_of_mem_sights hu)
      exact le_of_eq (Option.some.inj heq)
    · intro t ht u hu
      have hcall := time_of_mem_sights ht
      rw [List.filterMap_cons, hcall] at h
      exact (List.pairwise_cons.1 h).1 u (hmem u hu)

/-- **Retries.** As long as the job's completed count does not increase, the user neither stops nor
resumes it, and no record of it that had attempts is dropped and started again, it is returned at
most `maxAttempts` times, the returns are `retrySeconds` apart, each follows `idleSeconds` of idle
observations, and none is of a blocked job. -/
theorem retries_bounded [IsOrderedAddMonoid τ] {c : Limits τ} {key : Key}
    {before after : List (Call τ)}
    (htimes : ((before ++ after).filterMap Call.time).Pairwise (· ≤ ·))
    (hcompleted : ((sightsOf key after).filterMap Sight.completed).Pairwise (· ≥ ·))
    (huser : ∀ x ∈ sightsOf key after, x.user = false)
    (hkeep : keepsBudget c (Watch.new.calls c before key) false (sightsOf key after) = true) :
    BoundedRetries c key before after := by
  have hafter : (after.filterMap Call.time).Pairwise (· ≤ ·) :=
    htimes.sublist ((List.sublist_append_right before after).filterMap Call.time)
  have hbounded := bounded_run ⟨huser, times_sightsOf hafter⟩ hcompleted hkeep
  have hreturned : returned (seenOf c key (Watch.new.calls c before) after) =
      (Watch.new.calls c before).returnTimes c key after := returned_seenOf _ _
  dsimp only at hbounded
  rw [seenOf] at hreturned
  rw [hreturned] at hbounded
  have htracked := (tracked_seenOf c key (before ++ after)).confirmed
  refine ⟨hbounded.1, hbounded.2, ?_, ?_⟩
  · intro earlier y later hsplit hret
    obtain ⟨-, t, hidle, hlong⟩ := htracked earlier y later hsplit hret
    exact ⟨t, hidle, by rwa [le_sub_iff_add_le, add_comm] at hlong⟩
  · intro y hy hret
    obtain ⟨earlier, later, hsplit⟩ := List.append_of_mem hy
    exact (htracked earlier y later hsplit hret).1

end

/-! ### Runs -/

/-- The parameters of `RecoveryWatch()`. -/
def defaults : Limits ℤ := ⟨15, 60, 3⟩

/-- A job of ten pairs that nobody works on. -/
def idleJob : JobSnapshot := ⟨"job".toList, .incomplete, 0, 10, .inactive, true, false, true⟩

/-- The job while recovery has its stop marker set. -/
def markedJob : JobSnapshot := { idleJob with state := .stopped, submitting := false }

/-- The job with a controller. -/
def activeJob : JobSnapshot := { idleJob with state := .other, controllerState := .active }

/-- The job is seen at these times. -/
def looks (jobs : List (JobSnapshot × ℤ)) : List (Call ℤ) :=
  jobs.map fun j => .observe "host".toList [j.1] [] j.2

/-- The test of `test_idle_controller_loss_is_retried_after_confirmation`. -/
theorem retries_bounded_test :
    Watch.new.returnTimes defaults ("host".toList, "job".toList) (looks [(idleJob, 0),
        (idleJob, 14), (idleJob, 15), (idleJob, 30), (idleJob, 75), (idleJob, 135),
        (idleJob, 300)]) = [15, 75, 135] ∧
      BoundedRetries defaults ("host".toList, "job".toList) [] (looks [(idleJob, 0),
        (idleJob, 14), (idleJob, 15), (idleJob, 30), (idleJob, 75), (idleJob, 135),
        (idleJob, 300)]) := by
  refine ⟨by decide +kernel, retries_bounded ?_ ?_ ?_ ?_⟩ <;> decide +kernel

/-- Four recoveries of one job in seventy-six seconds. -/
def fourRecoveries : List (Call ℤ) :=
  looks [(activeJob, 0), (idleJob, 1), (idleJob, 16), (markedJob, 17), (activeJob, 20),
    (idleJob, 21), (idleJob, 36), (markedJob, 37), (activeJob, 40), (idleJob, 41), (idleJob, 56),
    (markedJob, 57), (activeJob, 60), (idleJob, 61), (idleJob, 76)]

/-- A snapshot that shows the marker of the job's own recovery restarts the budget. -/
theorem budget_restarted :
    (fourRecoveries.filterMap Call.time).Pairwise (· ≤ ·) ∧
      ((sightsOf ("host".toList, "job".toList) fourRecoveries).filterMap
        Sight.completed).Pairwise (· ≥ ·) ∧
      (∀ x ∈ sightsOf ("host".toList, "job".toList) fourRecoveries, x.user = false) ∧
      Watch.new.returnTimes defaults ("host".toList, "job".toList) fourRecoveries =
        [16, 36, 56, 76] ∧
      ¬ BoundedRetries defaults ("host".toList, "job".toList) [] fourRecoveries := by
  have hreturns : Watch.new.returnTimes defaults ("host".toList, "job".toList) fourRecoveries =
      [16, 36, 56, 76] := by decide +kernel
  refine ⟨by decide +kernel, by decide +kernel, by decide +kernel, hreturns, fun hbounded => ?_⟩
  have hcount := hbounded.count
  rw [Watch.calls, hreturns] at hcount
  exact absurd hcount (by decide)

end Monitor
end Slurmy
