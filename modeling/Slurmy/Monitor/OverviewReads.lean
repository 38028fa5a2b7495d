import Slurmy.Lib.Slots
import Slurmy.Monitor.Overview

/-!
# Reads of the overview cache

A record is signed before it is collected, so a change during the collection makes it invalid.

* `State.sound`: a record that is written has the `created` of the job that was signed, and a read that
  may print it has signed what was collected;
* `hit_fresh`: then a read that uses the record prints what `emit_job` prints for the job it has signed;
* `hit_outdated`: `created` is read before the job is signed.
-/

namespace Slurmy
namespace Overview

/-- The record of the thread `i` holds the `created` of the job that was signed, and every read that has
signed the job and may still print the record has signed what the record was collected from. -/
def State.sound (s : State) : Event → Bool
  | .store i =>
      match s.readers[i]? with
      | some r =>
          r.created == r.signedJob.created &&
          s.readers.all fun q =>
            !(q.phase == .hit || (q.phase == .signed && decide (q.signature = r.signature))) ||
              (r.created == q.signedJob.created &&
                r.snapshots.all fun j => decide (j.signature = q.signature))
      | none => true
  | _ => true

variable {P : Programs} {name : Text} {s t : State}

/-- The states of the job that the reads have seen, and the present one. -/
def State.seen (s : State) : Set Job :=
  {j | j = s.job ∨
    ∃ (i : ℕ) (r : Reader), s.readers[i]? = some r ∧ (j = r.signedJob ∨ j ∈ r.snapshots)}

structure Inv (P : Programs) (name : Text) (s : State) : Prop where
  faithful : Stamps.Faithful Node.ctime Node.stat s.clock s.seen
  empty : ∀ (i : ℕ) (r : Reader), s.readers[i]? = some r →
    r.phase = .started ∨ r.phase = .signed → r.snapshots = []
  settled : ∀ (i : ℕ) (r : Reader), s.readers[i]? = some r → r.phase ≠ .started →
    s.job.signature = r.signature → ∀ j ∈ r.snapshots, j = r.signedJob
  record : ∀ rec, s.record = some rec → ∃ (i : ℕ) (r : Reader), s.readers[i]? = some r ∧
    r.phase = .done ∧ rec.signature = r.signature ∧ r.payload P name = some rec.payload ∧
    r.created = r.signedJob.created
  signed : ∀ (i : ℕ) (q : Reader), s.readers[i]? = some q → q.phase = .signed →
    ∀ rec, s.record = some rec → rec.signature = q.signature →
      rec.payload = fresh P name q.signedJob
  hit : ∀ (i : ℕ) (q : Reader), s.readers[i]? = some q → q.phase = .hit →
    ∃ rec, s.record = some rec ∧ rec.payload = fresh P name q.signedJob

theorem mem_seen_job : s.job ∈ s.seen := .inl rfl

theorem mem_seen_signed {i : ℕ} {r : Reader} (h : s.readers[i]? = some r) : r.signedJob ∈ s.seen :=
  .inr ⟨i, r, h, .inl rfl⟩

theorem mem_seen_snapshot {i : ℕ} {r : Reader} (h : s.readers[i]? = some r) {j : Job}
    (hj : j ∈ r.snapshots) : j ∈ s.seen :=
  .inr ⟨i, r, h, .inr hj⟩

/-- Two states that have been seen and have one signature are one. -/
theorem Inv.eq_of_signature (h : Inv P name s) {a b : Job} (ha : a ∈ s.seen) (hb : b ∈ s.seen)
    (hsame : a.signature = b.signature) : a = b :=
  h.faithful.injective a ha b hb hsame

/-- What is collected from one state of the job is what `emit_job` prints for it. -/
theorem payload_fresh {r : Reader} {payload : Text} {j : Job} (h : r.payload P name = some payload)
    (hcreated : r.created = j.created) (hall : ∀ x ∈ r.snapshots, x = j) :
    payload = fresh P name j := by
  unfold Reader.payload at h
  split at h
  · next m g a s t o hsnapshots =>
    rw [hsnapshots] at hall
    simp only [List.mem_cons, List.not_mem_nil, or_false, forall_eq_or_imp, forall_eq] at hall
    obtain ⟨rfl, rfl, rfl, rfl, rfl, rfl⟩ := hall
    cases h
    rw [hcreated]
    rfl
  · cases h

/-- A read moves on; what it knows was known, or it is the job. -/
theorem seen_set {i : ℕ} {r r' : Reader} (hi : s.readers[i]? = some r)
    (hsigned : r'.signedJob = r.signedJob ∨ r'.signedJob = s.job)
    (hsnapshots : ∀ j ∈ r'.snapshots, j ∈ r.snapshots ∨ j = s.job) : (s.set i r').seen ⊆ s.seen := by
  rintro j (rfl | ⟨k, q, hk, hj⟩)
  · exact mem_seen_job
  · rcases Slots.set_cases hk with ⟨rfl, rfl⟩ | ⟨-, hk⟩
    · rcases hj with rfl | hj
      · rcases hsigned with heq | heq
        · exact heq ▸ mem_seen_signed hi
        · exact heq ▸ mem_seen_job
      · rcases hsnapshots j hj with hj | rfl
        · exact mem_seen_snapshot hi hj
        · exact mem_seen_job
    · exact .inr ⟨k, q, hk, hj⟩

/-- The reader of the record is done, so it is not the one that moves. -/
theorem Inv.record_set (h : Inv P name s) {i : ℕ} {r r' : Reader} (hi : s.readers[i]? = some r)
    (hphase : r.phase ≠ .done) {rec : Record} (hrec : s.record = some rec) :
    ∃ (k : ℕ) (q : Reader), (s.set i r').readers[k]? = some q ∧ q.phase = .done ∧
      rec.signature = q.signature ∧ q.payload P name = some rec.payload ∧
      q.created = q.signedJob.created := by
  obtain ⟨k, q, hk, hdone, hrest⟩ := h.record rec hrec
  have hne : k ≠ i := by
    rintro rfl
    rw [hi] at hk
    cases hk
    exact hphase hdone
  exact ⟨k, q, Slots.get_set_of_ne hne hk, hdone, hrest⟩

theorem Inv.publish (h : Inv P name s) {job : Job}
    (hpublished : Stamps.Published Node.ctime Source.parent s.clock s.job job) :
    Inv P name { s with job := job, clock := s.clock + 1 } := by
  have hsign : ∀ m n : Node, m.stat = n.stat → m.ctime = n.ctime := by
    intro m n heq
    unfold Node.ctime
    rw [heq]
  have hfaithful := h.faithful.publish hsign mem_seen_job hpublished
  have hseen : State.seen { s with job := job, clock := s.clock + 1 } ⊆ insert job s.seen := by
    rintro j (rfl | hj)
    · exact Set.mem_insert _ _
    · exact Set.mem_insert_of_mem _ (.inr hj)
  refine ⟨hfaithful.mono hseen, h.empty, ?_, h.record, h.signed, h.hit⟩
  intro i r hi hphase hsame
  have hjob : job = r.signedJob :=
    hfaithful.injective job (Set.mem_insert _ _) r.signedJob
      (Set.mem_insert_of_mem _ (mem_seen_signed hi)) hsame
  -- a change would have left a stamp that the read cannot have signed
  have hold : job = s.job := by
    by_contra hne
    obtain ⟨source, n, hn, hstamp⟩ := hpublished.fresh hne
    exact (h.faithful.bounded _ (mem_seen_signed hi)).signature_ne hsign (hjob ▸ hn) hstamp rfl
  refine h.settled i r hi hphase ?_
  show s.job.signature = r.signature
  rw [← hold]
  exact hsame

theorem Inv.start (h : Inv P name s) :
    Inv P name { s with readers := s.readers ++ [⟨s.job.created, s.now, s.job, [], .started⟩] } := by
  constructor
  · refine h.faithful.mono ?_
    rintro j (rfl | ⟨k, q, hk, hj⟩)
    · exact mem_seen_job
    · rcases Slots.concat_cases hk with ⟨-, rfl⟩ | hk
      · rcases hj with rfl | hj
        · exact mem_seen_job
        · cases hj
      · exact .inr ⟨k, q, hk, hj⟩
  · intro i r hi hphase
    rcases Slots.concat_cases hi with ⟨-, rfl⟩ | hi
    · rfl
    · exact h.empty i r hi hphase
  · intro i r hi hphase hsame
    rcases Slots.concat_cases hi with ⟨-, rfl⟩ | hi
    · exact absurd rfl hphase
    · exact h.settled i r hi hphase hsame
  · intro rec hrec
    obtain ⟨k, q, hk, hrest⟩ := h.record rec hrec
    exact ⟨k, q, Slots.get_concat_old hk, hrest⟩
  · intro i q hi hphase
    rcases Slots.concat_cases hi with ⟨-, rfl⟩ | hi
    · cases hphase
    · exact h.signed i q hi hphase
  · intro i q hi hphase
    rcases Slots.concat_cases hi with ⟨-, rfl⟩ | hi
    · cases hphase
    · exact h.hit i q hi hphase

/-- The record that is there when a job is signed holds the job's output, if it has the signature. -/
theorem Inv.fresh_of_record (h : Inv P name s) {rec : Record} (hrec : s.record = some rec)
    (hsame : rec.signature = s.job.signature) : rec.payload = fresh P name s.job := by
  obtain ⟨k, q, hk, hdone, hsignature, hpayload, hcreated⟩ := h.record rec hrec
  have hq : s.job.signature = q.signature := hsame.symm.trans hsignature
  have hjob : s.job = q.signedJob := h.eq_of_signature mem_seen_job (mem_seen_signed hk) hq
  rw [hjob]
  exact payload_fresh hpayload hcreated (h.settled k q hk (by simp [hdone]) hq)

theorem Inv.sign (h : Inv P name s) {i : ℕ} {r : Reader} (hi : s.readers[i]? = some r)
    (hphase : r.phase = .started) :
    Inv P name (s.set i { r with time := s.now, signedJob := s.job, phase := .signed }) := by
  have hempty : r.snapshots = [] := h.empty i r hi (.inl hphase)
  constructor
  · exact h.faithful.mono (seen_set hi (.inr rfl) fun j hj => .inl hj)
  · intro k q hk hq
    rcases Slots.set_cases hk with ⟨rfl, rfl⟩ | ⟨-, hk⟩
    · exact hempty
    · exact h.empty k q hk hq
  · intro k q hk hq hsame
    rcases Slots.set_cases hk with ⟨rfl, rfl⟩ | ⟨-, hk⟩
    · intro j hj
      rw [show Reader.snapshots _ = [] from hempty] at hj
      cases hj
    · exact h.settled k q hk hq hsame
  · exact fun rec hrec => h.record_set hi (by simp [hphase]) hrec
  · intro k q hk hq rec hrec hsame
    rcases Slots.set_cases hk with ⟨rfl, rfl⟩ | ⟨-, hk⟩
    · exact h.fresh_of_record hrec hsame
    · exact h.signed k q hk hq rec hrec hsame
  · intro k q hk hq
    rcases Slots.set_cases hk with ⟨rfl, rfl⟩ | ⟨-, hk⟩
    · cases hq
    · exact h.hit k q hk hq

theorem Inv.header (h : Inv P name s) {i : ℕ} {r : Reader} (hi : s.readers[i]? = some r)
    (hphase : r.phase = .signed) :
    Inv P name (s.set i { r with
      phase := if s.record.any (·.valid r) then .hit else .collecting }) := by
  have hempty : r.snapshots = [] := h.empty i r hi (.inr hphase)
  constructor
  · exact h.faithful.mono (seen_set hi (.inl rfl) fun j hj => .inl hj)
  · intro k q hk hq
    rcases Slots.set_cases hk with ⟨rfl, rfl⟩ | ⟨-, hk⟩
    · exact hempty
    · exact h.empty k q hk hq
  · intro k q hk hq hsame
    rcases Slots.set_cases hk with ⟨rfl, rfl⟩ | ⟨-, hk⟩
    · exact h.settled k r hi (by simp [hphase]) hsame
    · exact h.settled k q hk hq hsame
  · exact fun rec hrec => h.record_set hi (by simp [hphase]) hrec
  · intro k q hk hq rec hrec hsame
    rcases Slots.set_cases hk with ⟨rfl, rfl⟩ | ⟨-, hk⟩
    · split at hq <;> cases hq
    · exact h.signed k q hk hq rec hrec hsame
  · intro k q hk hq
    rcases Slots.set_cases hk with ⟨rfl, rfl⟩ | ⟨-, hk⟩
    · split at hq
      · next hvalid =>
        cases hrec : s.record with
        | none => simp [hrec] at hvalid
        | some rec =>
          rw [hrec] at hvalid
          have hvalid : rec.valid r = true := hvalid
          simp only [Record.valid, Bool.and_eq_true, decide_eq_true_eq] at hvalid
          exact ⟨rec, hrec, h.signed k r hi hphase rec hrec hvalid.1.1⟩
      · cases hq
    · exact h.hit k q hk hq

theorem Inv.print (h : Inv P name s) {i : ℕ} {r : Reader} (hi : s.readers[i]? = some r)
    (hphase : r.phase = .hit) : Inv P name (s.set i { r with phase := .done }) := by
  constructor
  · exact h.faithful.mono (seen_set hi (.inl rfl) fun j hj => .inl hj)
  · intro k q hk hq
    rcases Slots.set_cases hk with ⟨rfl, rfl⟩ | ⟨-, hk⟩
    · rcases hq with hq | hq <;> cases hq
    · exact h.empty k q hk hq
  · intro k q hk hq hsame
    rcases Slots.set_cases hk with ⟨rfl, rfl⟩ | ⟨-, hk⟩
    · exact h.settled k r hi (by simp [hphase]) hsame
    · exact h.settled k q hk hq hsame
  · exact fun rec hrec => h.record_set hi (by simp [hphase]) hrec
  · intro k q hk hq rec hrec hsame
    rcases Slots.set_cases hk with ⟨rfl, rfl⟩ | ⟨-, hk⟩
    · cases hq
    · exact h.signed k q hk hq rec hrec hsame
  · intro k q hk hq
    rcases Slots.set_cases hk with ⟨rfl, rfl⟩ | ⟨-, hk⟩
    · cases hq
    · exact h.hit k q hk hq

theorem Inv.look (h : Inv P name s) {i : ℕ} {r : Reader} (hi : s.readers[i]? = some r)
    (hphase : r.phase = .collecting) :
    Inv P name (s.set i { r with snapshots := r.snapshots ++ [s.job] }) := by
  constructor
  · refine h.faithful.mono (seen_set hi (.inl rfl) fun j hj => ?_)
    exact (List.mem_append.1 hj).imp id List.mem_singleton.1
  · intro k q hk hq
    rcases Slots.set_cases hk with ⟨rfl, rfl⟩ | ⟨-, hk⟩
    · simp [hphase] at hq
    · exact h.empty k q hk hq
  · intro k q hk hq hsame
    rcases Slots.set_cases hk with ⟨rfl, rfl⟩ | ⟨-, hk⟩
    · intro j hj
      rcases List.mem_append.1 hj with hj | hj
      · exact h.settled k r hi (by simp [hphase]) hsame j hj
      · rw [List.mem_singleton.1 hj]
        have hsigned : r.signedJob ∈ s.seen := mem_seen_signed hi
        exact h.eq_of_signature mem_seen_job hsigned hsame
    · exact h.settled k q hk hq hsame
  · exact fun rec hrec => h.record_set hi (by simp [hphase]) hrec
  · intro k q hk hq rec hrec hsame
    rcases Slots.set_cases hk with ⟨rfl, rfl⟩ | ⟨-, hk⟩
    · simp [hphase] at hq
    · exact h.signed k q hk hq rec hrec hsame
  · intro k q hk hq
    rcases Slots.set_cases hk with ⟨rfl, rfl⟩ | ⟨-, hk⟩
    · simp [hphase] at hq
    · exact h.hit k q hk hq

theorem Inv.store (h : Inv P name s) {i : ℕ} {r : Reader} (hi : s.readers[i]? = some r)
    (hphase : r.phase = .collecting) {payload : Text} (hpayload : r.payload P name = some payload)
    (hsound : s.sound (.store i) = true) :
    Inv P name { s.set i { r with phase := .done } with
      record := some ⟨r.time, r.signature, payload⟩ } := by
  simp only [State.sound, hi, Bool.and_eq_true, beq_iff_eq, List.all_eq_true] at hsound
  obtain ⟨hcreated, hreads⟩ := hsound
  -- what the reads that may print the record have signed
  have hfresh : ∀ (k : ℕ) (q : Reader), s.readers[k]? = some q →
      q.phase = .hit ∨ (q.phase = .signed ∧ q.signature = r.signature) →
      payload = fresh P name q.signedJob := by
    intro k q hk hq
    have hread := hreads q (List.mem_of_getElem? hk)
    have hboth : r.created = q.signedJob.created ∧ ∀ j ∈ r.snapshots, j.signature = q.signature := by
      rcases hq with hq | ⟨hq, hsame⟩
      · simpa [hq] using hread
      · simpa [hq, hsame] using hread
    refine payload_fresh hpayload hboth.1 fun j hj => ?_
    exact h.eq_of_signature (mem_seen_snapshot hi hj) (mem_seen_signed hk) (hboth.2 j hj)
  constructor
  · exact h.faithful.mono (seen_set hi (.inl rfl) fun j hj => .inl hj)
  · intro k q hk hq
    rcases Slots.set_cases hk with ⟨rfl, rfl⟩ | ⟨-, hk⟩
    · rcases hq with hq | hq <;> cases hq
    · exact h.empty k q hk hq
  · intro k q hk hq hsame
    rcases Slots.set_cases hk with ⟨rfl, rfl⟩ | ⟨-, hk⟩
    · exact h.settled k r hi (by simp [hphase]) hsame
    · exact h.settled k q hk hq hsame
  · intro rec hrec
    cases hrec
    exact ⟨i, _, Slots.get_set_self hi, rfl, rfl, hpayload, hcreated⟩
  · intro k q hk hq rec hrec hsame
    cases hrec
    rcases Slots.set_cases hk with ⟨rfl, rfl⟩ | ⟨-, hk⟩
    · cases hq
    · exact hfresh k q hk (.inr ⟨hq, hsame.symm⟩)
  · intro k q hk hq
    rcases Slots.set_cases hk with ⟨rfl, rfl⟩ | ⟨-, hk⟩
    · cases hq
    · exact ⟨_, rfl, hfresh k q hk (.inl hq)⟩

theorem Inv.step (h : Inv P name s) {e : Event} (hsound : s.sound e = true)
    (hstep : s.step P name e = some t) : Inv P name t := by
  cases e with
  | tick seconds =>
    cases hstep
    exact ⟨h.faithful, h.empty, h.settled, h.record, h.signed, h.hit⟩
  | publish job =>
    obtain ⟨hpublished, heq⟩ := Option.ite_none_right_eq_some.1 hstep
    cases heq
    exact h.publish hpublished
  | start =>
    cases hstep
    exact h.start
  | sign i =>
    simp only [State.step] at hstep
    split at hstep
    · next r hi =>
      obtain ⟨hphase, heq⟩ := Option.ite_none_right_eq_some.1 hstep
      cases heq
      exact h.sign hi hphase
    · cases hstep
  | header i =>
    simp only [State.step] at hstep
    split at hstep
    · next r hi =>
      obtain ⟨hphase, heq⟩ := Option.ite_none_right_eq_some.1 hstep
      cases heq
      exact h.header hi hphase
    · cases hstep
  | print i =>
    simp only [State.step] at hstep
    split at hstep
    · next r hi =>
      obtain ⟨hphase, heq⟩ := Option.ite_none_right_eq_some.1 hstep
      cases heq
      exact h.print hi hphase
    · cases hstep
  | look i =>
    simp only [State.step] at hstep
    split at hstep
    · next r hi =>
      obtain ⟨⟨hphase, -⟩, heq⟩ := Option.ite_none_right_eq_some.1 hstep
      cases heq
      exact h.look hi hphase
    · cases hstep
  | store i =>
    simp only [State.step] at hstep
    split at hstep
    · next r hi =>
      split at hstep
      · next payload hphase hpayload =>
        cases hstep
        exact h.store hi hphase hpayload hsound
      · cases hstep
    · cases hstep

theorem Inv.initial {job : Job} {clock : ℕ} (hclock : Stamps.Bounded Node.ctime clock job)
    (now : ℕ) : Inv P name (.initial job clock now) := by
  have hseen : (State.initial job clock now).seen ⊆ {job} := by
    rintro j (rfl | ⟨i, r, hi, -⟩)
    · rfl
    · cases hi
  refine ⟨?_, fun i r hi => (by cases hi), fun i r hi => (by cases hi), fun rec hrec => (by cases hrec),
    fun i q hi => (by cases hi), fun i q hi => (by cases hi)⟩
  constructor
  · intro a ha
    rw [hseen ha]
    exact hclock
  · intro a ha b hb _
    rw [hseen ha, hseen hb]

/-- In every run whose records are sound, a read that has found the header of the record valid prints
what `emit_job` prints for the job that the read has signed. -/
theorem hit_fresh {job : Job} {clock now : ℕ} {es : List Event}
    (hclock : Stamps.Bounded Node.ctime clock job)
    (hrun : Machine.run (State.step P name) (.initial job clock now) es = some s)
    (hsound : Machine.Along (State.step P name) (fun s e => s.sound e = true)
      (.initial job clock now) es) :
    ∀ (i : ℕ) (q : Reader), s.readers[i]? = some q → q.phase = .hit →
      s.printed (.print i) = some (fresh P name q.signedJob) := by
  have h : Inv P name s :=
    Machine.invariant_along (fun _ _ _ h hsound hstep => Inv.step h hsound hstep)
      (Inv.initial hclock now) hsound hrun
  intro i q hi hphase
  obtain ⟨rec, hrec, hpayload⟩ := h.hit i q hi hphase
  simp only [State.printed, hrec, Option.map_some, hpayload]

section Sample

def samplePrograms : Programs := ⟨List.flatten, List.flatten, fun _ => false⟩

/-- A job whose directory was last changed at the time `seconds`, with metadata. -/
def sampleJob (seconds stamp : ℕ) (metadata : Text) : Job
  | .directory => some ⟨⟨seconds * 1000000000, stamp, 1⟩, []⟩
  | .metadata => some ⟨⟨seconds * 1000000000, stamp, 1⟩, [([], metadata)]⟩
  | _ => none

/-- A read that writes the record; the job is `job` when `created` is known, and `later` from then on. -/
def sampleReads (later : Job) : List Event :=
  [Event.start, Event.publish later, Event.sign 0, Event.header 0] ++
    (List.replicate 6 (Event.look 0) ++
      [Event.store 0, Event.start, Event.sign 1, Event.header 1])

theorem bounded_sampleJob (metadata : Text) :
    Stamps.Bounded Node.ctime 5 (sampleJob 1 4 metadata) := by
  intro source n hn
  cases source with
  | directory | metadata =>
    cases hn
    exact Nat.lt_succ_self 4
  | results | index | indexLegacy | submissionCsv | submissionTsv | submissionState => cases hn

/-- A change within the second that is seen before it is signed. -/
theorem hit_fresh_sample :
    ∃ s q, Machine.run (State.step samplePrograms ['j']) (.initial (sampleJob 1 4 ['a']) 5 0)
        (sampleReads (sampleJob 1 5 ['b'])) = some s ∧
      s.readers[1]? = some q ∧ q.phase = .hit ∧
      s.printed (.print 1) = some (fresh samplePrograms ['j'] q.signedJob) := by
  have hsome : ((Machine.run (State.step samplePrograms ['j'])
      (.initial (sampleJob 1 4 ['a']) 5 0) (sampleReads (sampleJob 1 5 ['b']))).bind fun s =>
        s.readers[1]?.map fun q => q.phase) = some Phase.hit := by decide +kernel
  obtain ⟨s, hrun, heq⟩ := Option.bind_eq_some_iff.1 hsome
  obtain ⟨q, hq, hphase⟩ := Option.map_eq_some_iff.1 heq
  exact ⟨s, q, hrun, hq, hphase,
    hit_fresh (bounded_sampleJob ['a']) hrun (by decide +kernel) 1 q hq hphase⟩

/-- The metadata are replaced after `created` is read and before the job is signed: the record is valid,
and it keeps the old `created`. -/
theorem hit_outdated :
    ∃ s q, Machine.run (State.step samplePrograms ['j']) (.initial (sampleJob 1 4 ['a']) 5 0)
        (sampleReads (sampleJob 2 5 ['b'])) = some s ∧
      s.readers[1]? = some q ∧ q.phase = .hit ∧ q.signedJob = s.job ∧
      s.printed (.print 1) ≠ some (fresh samplePrograms ['j'] s.job) := by
  have hsome : ((Machine.run (State.step samplePrograms ['j'])
      (.initial (sampleJob 1 4 ['a']) 5 0) (sampleReads (sampleJob 2 5 ['b']))).bind fun s =>
        s.readers[1]?.map fun q => (q.phase, decide (q.signedJob = s.job),
          decide (s.printed (.print 1) = some (fresh samplePrograms ['j'] s.job)))) =
      some (Phase.hit, true, false) := by decide +kernel
  obtain ⟨s, hrun, heq⟩ := Option.bind_eq_some_iff.1 hsome
  obtain ⟨q, hq, heq⟩ := Option.map_eq_some_iff.1 heq
  obtain ⟨hphase, hjob, hne⟩ : q.phase = .hit ∧ q.signedJob = s.job ∧
      ¬ s.printed (.print 1) = some (fresh samplePrograms ['j'] s.job) := by simpa using heq
  exact ⟨s, q, hrun, hq, hphase, hjob, hne⟩

end Sample

end Overview
end Slurmy
