import Slurmy.Submission.Prefix

/-!
# What each controller run sends

The answers that the coordinator gives a run, from its selection of batches on.

* `SentOk`: what has been sent at each place of the loop, with its step lemma;
* `SendsSelected`: a batch is sent if and only if it is selected, and then until one acceptance;
* `submission_runs`: this, the contiguous record and the completeness of completed runs hold over
  all runs in which no controller is cut off while it writes the header;
* `header_cut_off`: a controller killed there leaves a file that a later check refuses.
-/

namespace Slurmy
namespace Submission

/-- The answers for one batch. -/
def repliesOf (b : ℕ) (T : List (ℕ × Reply)) : List Reply :=
  T.filterMap fun r => if r.1 = b then some r.2 else none

/-- Sent until exactly one acceptance. -/
def Accepted (R : List Reply) : Prop := ∃ n id, R = List.replicate n .wait ++ [.accepted id]

/-- Sent again only after the coordinator has asked to wait. -/
def Tried (R : List Reply) : Prop :=
  ∃ n last, R = List.replicate n .wait ++ last ∧ last.length ≤ 1

/-! ### What a run sends -/

theorem repliesOf_append (b : ℕ) (T U : List (ℕ × Reply)) :
    repliesOf b (T ++ U) = repliesOf b T ++ repliesOf b U := List.filterMap_append

theorem repliesOf_self (b : ℕ) (r : Reply) : repliesOf b [(b, r)] = [r] := by
  simp [repliesOf]

theorem repliesOf_of_ne {b c : ℕ} (h : b ≠ c) (r : Reply) : repliesOf c [(b, r)] = [] := by
  simp [repliesOf, h]

theorem Accepted.tried {R : List Reply} (h : Accepted R) : Tried R := by
  obtain ⟨n, id, rfl⟩ := h
  exact ⟨n, [.accepted id], rfl, le_rfl⟩

theorem tried_replicate (n : ℕ) : Tried (List.replicate n .wait) := ⟨n, [], by simp, by simp⟩

/-- The batch is dealt with: sent until accepted if it is selected, not sent otherwise. -/
def Settled (sel : ℕ → Prop) (T : List (ℕ × Reply)) (b : ℕ) : Prop :=
  (sel b → Accepted (repliesOf b T)) ∧ (¬ sel b → repliesOf b T = [])

/-- Whatever has been sent of the batch is as it should be. -/
def Proper (sel : ℕ → Prop) (T : List (ℕ × Reply)) (b : ℕ) : Prop :=
  Tried (repliesOf b T) ∧ (¬ sel b → repliesOf b T = [])

/-- In the loop, at batch `b`: those before it are dealt with, those after it have not been sent. -/
structure LoopAt (job : Job) (sel : ℕ → Prop) (k : ℕ) (T : List (ℕ × Reply)) (l : Loop) (b : ℕ) :
    Prop where
  rest : l.rest = restFrom job (b + 1)
  lt : b < job.batches
  wanted : ∀ c, sel c ↔ k ≤ c ∨ c ∈ l.wanted
  submitted : l.submitted = max k b
  selected : sel b
  before : ∀ c, c < b → Settled sel T c
  later : ∀ c, b < c → repliesOf c T = []

/-- What has been sent at each place of the script, in a run that started with `k` batches. -/
def SentOk (job : Job) (sel : ℕ → Prop) (k : ℕ) (T : List (ℕ × Reply)) : Pc → Prop
  | .batch l => ∃ m, l.rest = restFrom job m ∧ (∀ c, sel c ↔ k ≤ c ∨ c ∈ l.wanted) ∧
      l.submitted = max k m ∧ (∀ c, c < m → Settled sel T c) ∧ ∀ c, m ≤ c → repliesOf c T = []
  | .attempt l b | .calling l b =>
      LoopAt job sel k T l b ∧ ∃ n, repliesOf b T = List.replicate n .wait
  | .record l b _ => LoopAt job sel k T l b ∧ Accepted (repliesOf b T)
  | .exiting rc | .exited rc =>
      (∀ b, Proper sel T b) ∧ (rc = 0 → ∀ b, b < job.batches → Settled sel T b)
  | _ => False

section Sent

variable {job : Job} {sel : ℕ → Prop} {k : ℕ} {T : List (ℕ × Reply)}

theorem Settled.proper {b : ℕ} (h : Settled sel T b) : Proper sel T b := by
  refine ⟨?_, h.2⟩
  by_cases hb : sel b
  · exact (h.1 hb).tried
  · rw [h.2 hb]
    exact tried_replicate 0

theorem proper_of_nil {b : ℕ} (h : repliesOf b T = []) : Proper sel T b := by
  refine ⟨?_, fun _ => h⟩
  rw [h]
  exact tried_replicate 0

/-- At batch `b` of the loop everything is proper if the answers for `b` are. -/
theorem LoopAt.proper {l : Loop} {b : ℕ} (h : LoopAt job sel k T l b)
    (hb : Tried (repliesOf b T)) (c : ℕ) : Proper sel T c := by
  rcases lt_trichotomy c b with hlt | rfl | hgt
  · exact (h.before c hlt).proper
  · exact ⟨hb, fun hsel => absurd h.selected hsel⟩
  · exact proper_of_nil (h.later c hgt)

/-- Wherever the run is cut off, what it has sent is proper. -/
theorem SentOk.proper {pc : Pc} (h : SentOk job sel k T pc) (b : ℕ) : Proper sel T b := by
  cases pc with
  | batch l =>
    obtain ⟨m, -, -, -, hbefore, hlater⟩ := h
    by_cases hb : b < m
    · exact (hbefore b hb).proper
    · exact proper_of_nil (hlater b (by omega))
  | attempt | calling =>
    obtain ⟨hloop, n, hn⟩ := h
    exact hloop.proper (hn ▸ tried_replicate n) b
  | record => exact h.1.proper h.2.tried b
  | exiting | exited => exact h.1 b
  | _ => exact h.elim

theorem sentOk_failed (h : ∀ b, Proper sel T b) : SentOk job sel k T (.exiting 1) :=
  ⟨h, fun h1 => by cases h1⟩

theorem settled_append {b c : ℕ} (hbc : c ≠ b) (r : Reply) (h : Settled sel T c) :
    Settled sel (T ++ [(b, r)]) c := by
  unfold Settled
  rw [repliesOf_append, repliesOf_of_ne hbc.symm, List.append_nil]
  exact h

/-- An answer about batch `b` changes nothing for the other batches. -/
theorem LoopAt.append {l : Loop} {b : ℕ} (h : LoopAt job sel k T l b) (r : Reply) :
    LoopAt job sel k (T ++ [(b, r)]) l b where
  rest := h.rest
  lt := h.lt
  wanted := h.wanted
  submitted := h.submitted
  selected := h.selected
  before c hc := settled_append hc.ne r (h.before c hc)
  later c hc := by
    rw [repliesOf_append, repliesOf_of_ne hc.ne, List.append_nil]
    exact h.later c hc

/-- The answers that a move brings. -/
def heard (pc : Pc) (m : Move) : List (ℕ × Reply) :=
  match pc, m with
  | .calling _ b, .reply rc out => [(b, parseReply rc out)]
  | _, _ => []

theorem repliesOf_waits {b n : ℕ} (h : repliesOf b T = List.replicate n .wait) (r : Reply) :
    repliesOf b (T ++ [(b, r)]) = List.replicate n .wait ++ [r] := by
  rw [repliesOf_append, repliesOf_self, h]

/-- One move of a run that has selected its batches. -/
theorem SentOk.step {incomplete : Bool} {f f' : JobFiles} {pc pc' : Pc} {m : Move}
    (h : SentOk job sel k T pc) (hstep : Moves job incomplete f pc m f' pc') :
    SentOk job sel k (T ++ heard pc m) pc' := by
  cases hstep with
  | locked | contextKept | contextCreated | contextWritten | notStopped | planned | stopped
  | inconsistent | unlocked | counted | created | headerWrite | headerDone | selected
  | unreadable => exact h.elim
  | completed l hrest =>
    rw [show heard (.batch l) .next = [] from rfl, List.append_nil]
    refine ⟨h.proper, fun _ b hb => ?_⟩
    obtain ⟨m, hm, -, -, hbefore, -⟩ := h
    exact hbefore b (hb.trans_le (le_of_restFrom_eq_nil (hrest.symm.trans hm)))
  | stoppedBefore l =>
    rw [show heard (.batch l) .next = [] from rfl, List.append_nil]
    exact sentOk_failed h.proper
  | skipped l b rest hrest hlt hwanted =>
    rw [show heard (.batch l) .next = [] from rfl, List.append_nil]
    obtain ⟨m, hm, hsel, hsub, hbefore, hlater⟩ := h
    obtain ⟨rfl, hb, hrest'⟩ := restFrom_eq_cons (hrest.symm.trans hm)
    have hnot : ¬ sel b := fun hs => by
      rcases (hsel b).1 hs with hk | hw
      · omega
      · exact hwanted hw
    refine ⟨b + 1, hrest', hsel, ?_, fun c hc => ?_, fun c hc => hlater c (by omega)⟩
    · show l.submitted = max k (b + 1)
      omega
    · rcases Nat.lt_succ_iff_lt_or_eq.1 hc with hc | rfl
      · exact hbefore c hc
      · exact ⟨fun hs => absurd hs hnot, fun _ => hlater c le_rfl⟩
  | chosen l b rest hrest hchosen =>
    rw [show heard (.batch l) .next = [] from rfl, List.append_nil]
    obtain ⟨m, hm, hsel, hsub, hbefore, hlater⟩ := h
    obtain ⟨rfl, hb, hrest'⟩ := restFrom_eq_cons (hrest.symm.trans hm)
    refine ⟨⟨hrest', hb, hsel, hsub, (hsel b).2 ?_, hbefore, fun c hc => hlater c hc.le⟩, 0,
      hlater b le_rfl⟩
    rcases hchosen with hle | hw
    · exact .inl (by omega)
    · exact .inr hw
  | called l b =>
    rw [show heard (.attempt l b) .next = [] from rfl, List.append_nil]
    exact h
  | stoppedWaiting l b =>
    rw [show heard (.attempt l b) .next = [] from rfl, List.append_nil]
    exact sentOk_failed h.proper
  | accepted l b rc out id hreply =>
    obtain ⟨hloop, n, hn⟩ := h
    show SentOk job sel k (T ++ [(b, parseReply rc out)]) _
    rw [hreply]
    exact ⟨hloop.append _, n, id, repliesOf_waits hn _⟩
  | waits l b rc out hreply =>
    obtain ⟨hloop, n, hn⟩ := h
    show SentOk job sel k (T ++ [(b, parseReply rc out)]) _
    rw [hreply]
    refine ⟨hloop.append _, n + 1, ?_⟩
    rw [repliesOf_waits hn, List.replicate_succ']
  | failed l b rc out hreply =>
    obtain ⟨hloop, n, hn⟩ := h
    show SentOk job sel k (T ++ [(b, parseReply rc out)]) _
    rw [hreply]
    refine sentOk_failed ((hloop.append _).proper ?_)
    exact ⟨n, [.failed], repliesOf_waits hn _, le_rfl⟩
  | recorded l b epoch id =>
    rw [show heard (.record l b id) (.append epoch) = [] from rfl, List.append_nil]
    obtain ⟨hloop, hacc⟩ := h
    have hsub := hloop.submitted
    refine ⟨b + 1, hloop.rest, hloop.wanted, ?_, fun c hc => ?_, fun c hc => hloop.later c hc⟩
    · show (if l.submitted ≤ b then l.submitted + 1 else l.submitted) = max k (b + 1)
      split_ifs <;> omega
    · rcases Nat.lt_succ_iff_lt_or_eq.1 hc with hc | rfl
      · exact hloop.before c hc
      · exact ⟨fun _ => hacc, fun hs => absurd hloop.selected hs⟩
  | exited rc =>
    rw [show heard (.exiting rc) .next = [] from rfl, List.append_nil]
    exact h
  | trapped pc habort =>
    have hheard : heard pc .abort = [] := by cases pc <;> rfl
    rw [hheard, List.append_nil]
    exact sentOk_failed h.proper

end Sent

/-! ### Runs -/

/-- The state of one controller run and what it has sent, `RESUME_INCOMPLETE` and so on fixed. -/
def WorldSent (job : Job) (sel : ℕ → Prop) (k : ℕ) (T : List (ℕ × Reply)) (w : World) : Prop :=
  match w.running with
  | none => ∀ b, Proper sel T b
  | some (_, pc) => SentOk job sel k T pc

theorem replies_move {f : JobFiles} {incomplete : Bool} {pc : Pc} {m : Move} :
    World.replies ⟨f, some (incomplete, pc)⟩ (.move m) = heard pc m := by
  cases m <;> cases pc <;> rfl

theorem WorldSent.step {job : Job} {sel : ℕ → Prop} {k : ℕ} {T : List (ℕ × Reply)} {w w' : World}
    {e : Event} (h : WorldSent job sel k T w) (hstart : ∀ incomplete, e ≠ .start incomplete)
    (hstep : w.step job e = some w') : WorldSent job sel k (T ++ w.replies e) w' := by
  obtain ⟨f, running⟩ := w
  cases e with
  | start incomplete => exact absurd rfl (hstart incomplete)
  | move m =>
    cases running with
    | none => cases hstep
    | some c =>
      obtain ⟨incomplete, pc⟩ := c
      obtain ⟨⟨f', pc'⟩, hpc, rfl⟩ := Option.map_eq_some_iff.1 hstep
      rw [replies_move]
      exact SentOk.step h (Pc.moves_of_step hpc)
  | kill =>
    cases hstep
    rw [show World.replies ⟨f, running⟩ .kill = [] from rfl, List.append_nil]
    cases running with
    | none => exact h
    | some c => exact SentOk.proper h
  | results r =>
    cases hstep
    rw [show World.replies ⟨f, running⟩ (.results r) = [] from rfl, List.append_nil]
    exact h
  | marker stopped =>
    cases hstep
    rw [show World.replies ⟨f, running⟩ (.marker stopped) = [] from rfl, List.append_nil]
    exact h

/-- In a run of one controller from its selection of batches on, started with `k` submitted batches:
what is not selected is not sent; what is sent again has been asked to wait; and if the run is
completed, every selected batch has been sent until exactly one acceptance. -/
def SendsSelected (job : Job) (w₀ : World) (es : List Event) : Prop :=
  ∀ es₁ es₂ s t w incomplete k, es = es₁ ++ .move .next :: es₂ →
    Machine.run (World.step job) w₀ es₁ = some s → s.running = some (incomplete, .select k) →
    s.step job (.move .next) = some t → (∀ e ∈ es₂, ∀ i, e ≠ .start i) →
    Machine.run (World.step job) t es₂ = some w →
    (∃ text, s.files.submission = some text ∧ countSubmitted text = some k) ∧
      ∀ b, let R := repliesOf b (Machine.trace (World.step job) World.replies t es₂)
        Tried R ∧ (¬ Selected job incomplete k s.files.results b → R = []) ∧
          (w.Completed → b < job.batches → Selected job incomplete k s.files.results b → Accepted R)

/-- After the selection nothing has been sent. -/
theorem worldSent_select {job : Job} {s t : World} {incomplete : Bool} {k : ℕ}
    (hs : s.running = some (incomplete, .select k)) (hstep : s.step job (.move .next) = some t) :
    WorldSent job (Selected job incomplete k s.files.results) k [] t := by
  obtain ⟨f, running⟩ := s
  obtain rfl : running = some (incomplete, .select k) := hs
  obtain ⟨⟨f', pc'⟩, hpc, rfl⟩ := Option.map_eq_some_iff.1 hstep
  cases Pc.moves_of_step hpc with
  | selected _ wanted hwanted =>
    refine ⟨0, batchOrder_eq_restFrom job, fun c => ?_, (Nat.max_zero k).symm, ?_, fun c _ => rfl⟩
    · rw [hwanted]
      rfl
    · intro c hc
      omega
  | unreadable =>
    have hnil : ∀ b, Proper (Selected job incomplete k f.results) [] b := fun b => proper_of_nil rfl
    exact @sentOk_failed job _ k [] hnil

theorem WorldSent.sends {job : Job} {incomplete : Bool} {k b : ℕ} {r : ResultFiles}
    {T : List (ℕ × Reply)} {w : World} (h : WorldSent job (Selected job incomplete k r) k T w) :
    Tried (repliesOf b T) ∧ (¬ Selected job incomplete k r b → repliesOf b T = []) ∧
      (w.Completed → b < job.batches → Selected job incomplete k r b → Accepted (repliesOf b T)) := by
  obtain ⟨f, running⟩ := w
  have hproper : Proper (Selected job incomplete k r) T b := by
    cases running with
    | none => exact h b
    | some c => exact SentOk.proper h b
  refine ⟨hproper.1, hproper.2, ?_⟩
  rintro ⟨i, hpc⟩ hb hsel
  have hall : ∀ c, c < job.batches → Settled (Selected job incomplete k r) T c := by
    rcases hpc with rfl | rfl
    · exact h.2 rfl
    · exact h.2 rfl
  exact (hall b hb).1 hsel

/-- **Submission runs.**  From an empty job directory, in every run in which no controller is cut
off between the creation of `submission.csv` and the end of its header, the record is a contiguous
batch prefix on which the next check passes, each controller run sends exactly what it selects and
stops sending it at its acceptance, and a completed run has recorded every batch. -/
theorem submission_runs (job : Job) (f : JobFiles) (hf : f.submission = none) (es : List Event)
    (w : World) (hcut : Machine.Along (World.step job) World.HeaderUncut ⟨f, none⟩ es)
    (hrun : Machine.run (World.step job) ⟨f, none⟩ es = some w) :
    ContiguousRecord w ∧ SendsSelected job ⟨f, none⟩ es ∧ CompleteRecord job w := by
  have hinit : RecordOk job ⟨f, none⟩ := .inl hf
  have hkeep : ∀ s e t, RecordOk job s → s.HeaderUncut e → s.step job e = some t →
      RecordOk job t := fun s e t hs hc => hs.step hc
  have hend : RecordOk job w := Machine.invariant_along hkeep hinit hcut hrun
  refine ⟨hend.contiguous, ?_, hend.complete⟩
  intro es₁ es₂ s t v incomplete k hes hrun₁ hs hstep hstart hrun₂
  subst hes
  constructor
  · have hok : RecordOk job s := Machine.invariant_along hkeep hinit hcut.of_append hrun₁
    obtain ⟨files, running⟩ := s
    obtain rfl : running = some (incomplete, .select k) := hs
    obtain ⟨rows, ⟨hsub, -⟩, hk⟩ := hok
    exact ⟨table rows, hsub, by rw [countSubmitted_table, hk]; rfl⟩
  · intro b
    have hsent := Machine.trace_invariant_along (fun T s e t h hc => WorldSent.step h hc)
      (worldSent_select hs hstep) (Machine.along_of_forall hstart t) hrun₂
    rw [List.nil_append] at hsent
    exact hsent.sends

/-- The first controller of a job is killed when it has created `submission.csv`, before it writes
the header; the next one takes the empty file for a record without rows, and its own first row for
the header. -/
theorem header_cut_off :
    ¬ ∀ (job : Job) (f : JobFiles), f.submission = none → ∀ (es : List Event) (w : World),
      Machine.run (World.step job) ⟨f, none⟩ es = some w →
      ContiguousRecord w ∧ SendsSelected job ⟨f, none⟩ es ∧ CompleteRecord job w := by
  intro hall
  let job : Job := ⟨2, [[0], [1]], by decide⟩
  let f : JobFiles := ⟨false, .absent, none, ⟨true, [], [], []⟩⟩
  let first : List Event := .start false :: List.replicate 6 (.move .next) ++ [.kill]
  let second : List Event := .start false :: List.replicate 8 (.move .next) ++
    [.move (.reply 0 "ACCEPTED|17|1/32 fair share; 1 user jobs".toList), .move (.append 5),
      .move .next, .move .next,
      .move (.reply 0 "ACCEPTED|18|2/32 fair share; 2 user jobs".toList), .move (.append 6)]
  have hsub : ((Machine.run (World.step job) ⟨f, none⟩ (first ++ second)).map fun w =>
      (w.files.submission.map fun t => (checkPrior t).isSome)) = some (some false) := by
    decide +kernel
  obtain ⟨w, hrun, hw⟩ := Option.map_eq_some_iff.1 hsub
  obtain ⟨t, ht, hcheck⟩ := Option.map_eq_some_iff.1 hw
  obtain ⟨ids, -, -, hpass⟩ := (hall job f rfl (first ++ second) w hrun).1 t ht
  rw [hcheck] at hpass
  cases hpass

/-- A job of one batch: the controller is asked to wait once, and the batch is accepted. -/
theorem submission_runs_one_batch :
    let job : Job := ⟨1, [[0]], by decide⟩
    let f : JobFiles := ⟨false, .absent, none, ⟨true, [], [], []⟩⟩
    let es : List Event := .start false :: List.replicate 16 (.move .next) ++
      [.move (.reply 0 "WAIT|1 active for this job".toList), .move .next,
        .move (.reply 0 "ACCEPTED|17|1/32 fair share; 1 user jobs".toList), .move (.append 5),
        .move .next]
    ∃ w, Machine.run (World.step job) ⟨f, none⟩ es = some w ∧
      ContiguousRecord w ∧ SendsSelected job ⟨f, none⟩ es ∧ CompleteRecord job w := by
  intro job f es
  have hrun : (Machine.run (World.step job) ⟨f, none⟩ es).isSome = true := by decide +kernel
  have huncut : ∀ e ∈ es, e.cuts = false := by decide
  obtain ⟨w, hw⟩ := Option.isSome_iff_exists.1 hrun
  have hcut : Machine.Along (World.step job) World.HeaderUncut ⟨f, none⟩ es :=
    (Machine.along_of_forall huncut _).mono fun _ _ he _ _ _ => he
  exact ⟨w, hw, submission_runs job f rfl es w hcut hw⟩

end Submission
end Slurmy
