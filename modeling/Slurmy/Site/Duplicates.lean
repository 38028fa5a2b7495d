import Mathlib.Data.List.Nodup
import Slurmy.Site.Machine

/-!
# No batch twice in the queue

* `Proc.sends`: the batches that a process can still have accepted;
* `State.load`: the batches of the active allocations and of the requests nobody waits for;
* `SelectsFresh`: no controller selects a batch that is in the load;
* `NoDuplicate`: one process at most holds `.submit-controller.lock`, and the batches that a process
  can still send are not in the load; kept by every step that meets the condition;
* `active_batches_nodup`: no two active allocations carry the same batch;
* `accepted_row_lost`: a controller killed before it has recorded an accepted batch lets the next
  one submit that batch again.
-/

namespace Slurmy
namespace Site

open Submission

/-- The batches of the active allocations and of the requests nobody waits for. -/
def State.load (s : State) : List ℕ := s.queue.map Alloc.batch ++ s.pending

/-- What the loop has still to submit. -/
def chosen (l : Loop) : List ℕ := l.rest.filter fun b => l.submitted ≤ b || b ∈ l.wanted

/-- The batches that a process can still have accepted. -/
def Proc.sends : Proc → List ℕ
  | .controller _ (.batch l) _ => chosen l
  | .controller _ (.attempt l b) _ => b :: chosen l
  | .controller _ (.calling l _) (.accepted _) => chosen l
  | .controller _ (.calling l b) _ => b :: chosen l
  | .controller _ (.record l _ _) _ => chosen l
  | .orphan _ b call => if call.undecided then [b] else []
  | _ => []

/-- A controller that selects its batches selects none that is in the queue or may yet get there. -/
def SelectsFresh (job : Job) (s : State) (e : Event) : Prop :=
  ∀ i kind k call, e = .move i .next → s.procs[i]? = some (.controller kind (.select k) call) →
    ∀ b, b < job.batches → Selected job kind.incomplete k s.files.results b → b ∉ s.load

/-! ### Locks -/

theorem holdsSubmit_of_sends {p : Proc} (h : p.sends ≠ []) : p.holdsSubmit = true := by
  cases p with
  | controller kind pc call => cases pc <;> first | rfl | exact absurd rfl h
  | orphan => rfl
  | launcher | stop | gone => exact absurd rfl h

theorem sends_of_not_holdsSubmit {p : Proc} (h : p.holdsSubmit = false) : p.sends = [] := by
  by_contra hne
  rw [holdsSubmit_of_sends hne] at h
  cases h

/-- At most one process holds the lock, no batch is twice in the load, and what a process can still
send is new. -/
structure NoDuplicate (s : State) : Prop where
  sole : ∀ (i j : ℕ) (p q : Proc), s.procs[i]? = some p → s.procs[j]? = some q → p.holdsSubmit = true →
    q.holdsSubmit = true → i = j
  load : s.load.Nodup
  fresh : ∀ p ∈ s.procs, (p.sends ++ s.load).Nodup

theorem nodup_of_subperm {l m : List ℕ} (h : l.Subperm m) (hm : m.Nodup) : l.Nodup := by
  obtain ⟨u, hperm, hsub⟩ := h
  exact hperm.nodup_iff.1 (hm.sublist hsub)

/-! ### Processes that change -/

section Procs

variable {s t : State}

/-- The load shrinks. -/
theorem NoDuplicate.of_load_subperm (h : NoDuplicate s) (hprocs : t.procs = s.procs)
    (hload : t.load.Subperm s.load) : NoDuplicate t where
  sole i j p q hp hq := h.sole i j p q (hprocs ▸ hp) (hprocs ▸ hq)
  load := nodup_of_subperm hload h.load
  fresh p hp := by
    have hfresh := h.fresh p (hprocs ▸ hp)
    exact nodup_of_subperm ((List.subperm_append_left p.sends).2 hload) hfresh

/-- Process `i` changes: it gets the lock only if it had it or it was free, and the load changes only
if it has it. -/
theorem NoDuplicate.set (h : NoDuplicate s) {i : ℕ} {p p' : Proc} (hp : s.procs[i]? = some p)
    (hprocs : t.procs = s.procs.set i p')
    (hlock : p'.holdsSubmit = true → p.holdsSubmit = true ∨ s.view.submitFree = true)
    (hrest : p.holdsSubmit = true ∨ t.load = s.load) (hfresh : (p'.sends ++ t.load).Nodup) :
    NoDuplicate t := by
  have hload : t.load.Nodup := hfresh.of_append_right
  -- whoever holds the lock besides `i` contradicts that `i` had it or that it was free
  have hother : ∀ j q, j ≠ i → s.procs[j]? = some q → q.holdsSubmit = true →
      ¬ p'.holdsSubmit = true := fun j q hj hq hqlock hlock' => by
    rcases hlock hlock' with hpl | hfree
    · exact hj (h.sole j i q p hq hp hqlock hpl)
    · have := submitFree_iff.1 hfree q (List.mem_of_getElem? hq)
      rw [hqlock] at this
      cases this
  have hget : ∀ j q, t.procs[j]? = some q → j = i ∧ q = p' ∨ j ≠ i ∧ s.procs[j]? = some q :=
    fun j q hq => by
      rw [hprocs] at hq
      by_cases hj : i = j
      · subst hj
        have hlt : i < s.procs.length := (List.getElem?_eq_some_iff.1 hp).1
        rw [List.getElem?_set_self hlt] at hq
        exact .inl ⟨rfl, (Option.some.inj hq).symm⟩
      · rw [List.getElem?_set_ne hj] at hq
        exact .inr ⟨Ne.symm hj, hq⟩
  refine ⟨fun j k q r hq hr hql hrl => ?_, hload, fun q hq => ?_⟩
  · rcases hget j q hq with ⟨rfl, rfl⟩ | ⟨hj, hq⟩ <;> rcases hget k r hr with ⟨rfl, rfl⟩ | ⟨hk, hr⟩
    · rfl
    · exact absurd hql (hother k r hk hr hrl)
    · exact absurd hrl (hother j q hj hq hql)
    · exact h.sole j k q r hq hr hql hrl
  · obtain ⟨j, hq⟩ := List.mem_iff_getElem?.1 hq
    rcases hget j q hq with ⟨rfl, rfl⟩ | ⟨hj, hq⟩
    · exact hfresh
    · rcases hrest with hpl | heq
      · have hql : q.holdsSubmit = false := by
          by_contra hql
          rw [Bool.not_eq_false] at hql
          exact hj (h.sole j i q p hq hp hql hpl)
        rw [sends_of_not_holdsSubmit hql]
        exact hload
      · rw [heq]
        exact h.fresh q (List.mem_of_getElem? hq)

/-- A process that sends nothing new and takes no lock. -/
theorem NoDuplicate.set_quiet (h : NoDuplicate s) {i : ℕ} {p p' : Proc} (hp : s.procs[i]? = some p)
    (hprocs : t.procs = s.procs.set i p') (hload : t.load = s.load)
    (hlock : p'.holdsSubmit = true → p.holdsSubmit = true) (hsends : p'.sends.Sublist p.sends) :
    NoDuplicate t := by
  refine h.set hp hprocs (fun hl => .inl (hlock hl)) (.inr hload) ?_
  rw [hload]
  exact (h.fresh p (List.mem_of_getElem? hp)).sublist (hsends.append_right _)

/-- New processes without lock. -/
theorem NoDuplicate.spawn (h : NoDuplicate s) {ps : List Proc} (hprocs : t.procs = s.procs ++ ps)
    (hload : t.load = s.load) (hps : ∀ p ∈ ps, p.holdsSubmit = false) : NoDuplicate t := by
  have hget : ∀ (j : ℕ) (q : Proc), t.procs[j]? = some q → q.holdsSubmit = true →
      s.procs[j]? = some q := fun j q hq hql => by
      rw [hprocs] at hq
      rw [List.getElem?_append] at hq
      split at hq
      · exact hq
      · rw [hps q (List.mem_of_getElem? hq)] at hql
        cases hql
  refine ⟨fun i j p q hp hq hpl hql => ?_, hload ▸ h.load, fun p hp => ?_⟩
  · exact h.sole i j p q (hget i p hp hpl) (hget j q hq hql) hpl hql
  · rw [hload]
    rw [hprocs] at hp
    rcases List.mem_append.1 hp with hp | hp
    · exact h.fresh p hp
    · rw [sends_of_not_holdsSubmit (hps p hp)]
      exact h.load

end Procs

/-! ### Steps -/

theorem chosen_cons {l : Loop} {b : ℕ} {rest : List ℕ} (hrest : l.rest = b :: rest) :
    chosen l = if l.submitted ≤ b ∨ b ∈ l.wanted then b :: chosen { l with rest := rest }
      else chosen { l with rest := rest } := by
  unfold chosen
  rw [hrest, List.filter_cons]
  simp

theorem chosen_recorded (l : Loop) (b : ℕ) :
    (chosen { l with submitted := if l.submitted ≤ b then l.submitted + 1 else l.submitted }).Sublist
      (chosen l) := by
  apply List.monotone_filter_right
  intro c hc
  simp only [Bool.or_eq_true, decide_eq_true_eq] at hc ⊢
  rcases hc with hc | hc
  · refine .inl (le_trans ?_ hc)
    split_ifs <;> omega
  · exact .inr hc

theorem batchOrder_perm (n : ℕ) : (batchOrder n).Perm (List.range n) := List.perm_insertionSort _ _

/-- A controller's move brings nothing new to send, unless it selects its batches. -/
theorem sends_move {job : Job} {kind : Kind} {s : State} {f : JobFiles} {pc pc' : Pc} {call : Call}
    {m : Move} (hallow : s.allows pc call m = true)
    (hmove : Moves job kind.incomplete s.files pc m f pc') (hsel : ∀ k, pc ≠ .select k) :
    (Proc.controller kind pc' .asked).sends.Sublist (Proc.controller kind pc call).sends := by
  cases hmove with
  | selected k => exact absurd rfl (hsel k)
  | skipped l b rest hrest hlt hw =>
    show (chosen { l with rest := rest }).Sublist (chosen l)
    rw [chosen_cons hrest, if_neg fun hor => hor.elim (by omega) hw]
  | chosen l b rest hrest hchosen =>
    show (b :: chosen { l with rest := rest }).Sublist (chosen l)
    rw [chosen_cons hrest, if_pos hchosen]
  | called l b => exact List.Sublist.refl _
  | accepted l b rc out id hreply =>
    cases call with
    | accepted => exact List.Sublist.refl _
    | asked | sent | refused => exact List.sublist_cons_self _ _
  | waits l b rc out hreply =>
    have hans : call.answers (parseReply rc out) = true := hallow
    rw [hreply] at hans
    cases call with
    | asked | refused => exact List.Sublist.refl _
    | sent | accepted => cases hans
  | recorded l b epoch id => exact chosen_recorded l b
  | _ => exact List.nil_sublist _

theorem holdsSubmit_move {job : Job} {kind : Kind} {s : State} {f : JobFiles} {pc pc' : Pc}
    {call : Call} {m : Move} (hallow : s.allows pc call m = true)
    (hmove : Moves job kind.incomplete s.files pc m f pc')
    (hlock : (Proc.controller kind pc' .asked).holdsSubmit = true) :
    (Proc.controller kind pc call).holdsSubmit = true ∨ s.view.submitFree = true := by
  cases hmove with
  | locked => exact .inr hallow
  | unlocked => cases hlock
  | trapped pc habort => cases pc <;> first | exact .inl rfl | cases habort
  | _ => exact .inl rfl

theorem load_accepted (s : State) (b : ℕ) : (s.accepted b).load.Perm (b :: s.load) := by
  show ((s.queue ++ [(⟨s.nextId, b⟩ : Alloc)]).map Alloc.batch ++ s.pending).Perm _
  rw [List.map_append, List.append_assoc]
  exact List.perm_middle

/-- The selection of batches that are not in the load. -/
theorem NoDuplicate.select {job : Job} {s : State} (h : NoDuplicate s) {i k : ℕ} {kind : Kind}
    {call : Call} {wanted : List ℕ}
    (hp : s.procs[i]? = some (.controller kind (.select k) call))
    (hwanted : ∀ b, b ∈ wanted ↔ kind.incomplete = true ∧ Unfinished job.planned s.files.results b)
    (hfresh : ∀ b, b < job.batches → Selected job kind.incomplete k s.files.results b →
      b ∉ s.load) :
    NoDuplicate (s.set i (.controller kind (.batch ⟨k, wanted, batchOrder job.batches⟩) .asked)) := by
  refine h.set hp rfl (fun _ => .inl rfl) (.inl rfl) ?_
  show (chosen ⟨k, wanted, batchOrder job.batches⟩ ++ s.load).Nodup
  have hnodup : (batchOrder job.batches).Nodup := (batchOrder_perm _).nodup_iff.2 List.nodup_range
  refine List.Nodup.append (hnodup.filter _) h.load fun b hb hc => ?_
  obtain ⟨hmem, hsel⟩ := List.mem_filter.1 hb
  have hlt : b < job.batches := List.mem_range.1 ((batchOrder_perm _).mem_iff.1 hmem)
  refine hfresh b hlt ?_ hc
  simpa [Selected, hwanted] using hsel

/-! ### Coordinators -/

section Coordinator

variable {p : Proc} {b : ℕ} {call : Call}

theorem holdsSubmit_of_call (h : p.call? = some (b, call)) : p.holdsSubmit = true := by
  rcases call?_eq_some h with ⟨kind, l, rfl⟩ | ⟨kind, rfl⟩ <;> rfl

theorem sends_sent (h : p.call? = some (b, .asked)) : (p.withCall .sent).sends = p.sends := by
  rcases call?_eq_some h with ⟨kind, l, rfl⟩ | ⟨kind, rfl⟩ <;> rfl

theorem sends_accepted (h : p.call? = some (b, .sent)) (id : ℕ) :
    p.sends = b :: (p.withCall (.accepted id)).sends := by
  rcases call?_eq_some h with ⟨kind, l, rfl⟩ | ⟨kind, rfl⟩ <;> rfl

theorem sends_refused (h : p.call? = some (b, .sent)) :
    (p.withCall .refused).sends.Sublist p.sends := by
  rcases call?_eq_some h with ⟨kind, l, rfl⟩ | ⟨kind, rfl⟩
  · exact List.Sublist.refl _
  · exact List.nil_sublist _

theorem sends_unanswered (h : p.call? = some (b, call)) :
    p.unanswered.sends = [] := by
  rcases call?_eq_some h with ⟨kind, l, rfl⟩ | ⟨kind, rfl⟩ <;> rfl

end Coordinator

/-- The batch that a process was about to send gets into the load. -/
theorem NoDuplicate.loaded {s t : State} (h : NoDuplicate s) {i b : ℕ} {p p' : Proc}
    (hp : s.procs[i]? = some p) (hpl : p.holdsSubmit = true) (hprocs : t.procs = s.procs.set i p')
    (hsends : (b :: p'.sends).Sublist p.sends) (hload : t.load.Perm (b :: s.load)) :
    NoDuplicate t := by
  refine h.set hp hprocs (fun _ => .inl hpl) (.inl hpl) ?_
  have hold : (b :: (p'.sends ++ s.load)).Nodup :=
    (h.fresh p (List.mem_of_getElem? hp)).sublist (hsends.append_right _)
  have hperm : (p'.sends ++ t.load).Perm (b :: (p'.sends ++ s.load)) :=
    (hload.append_left _).trans List.perm_middle
  exact hperm.nodup_iff.2 hold

theorem load_append_pending (s : State) (b : ℕ) :
    ({ s with pending := s.pending ++ [b] } : State).load.Perm (b :: s.load) := by
  show (s.queue.map Alloc.batch ++ (s.pending ++ [b])).Perm _
  rw [← List.append_assoc]
  exact List.perm_append_singleton b s.load

theorem load_erase_pending (s : State) {b : ℕ} (hb : b ∈ s.pending) :
    (b :: ({ s with pending := s.pending.erase b } : State).load).Perm s.load := by
  show (b :: (s.queue.map Alloc.batch ++ s.pending.erase b)).Perm (s.queue.map Alloc.batch ++ s.pending)
  exact List.perm_middle.symm.trans ((List.perm_cons_erase hb).symm.append_left _)

/-- **One step.**  A step that selects only fresh batches keeps the invariant. -/
theorem NoDuplicate.step {job : Job} {s t : State} {e : Event} (h : NoDuplicate s)
    (hcond : SelectsFresh job s e) (hstep : s.step job e = some t) : NoDuplicate t := by
  cases State.steps_of_step hstep with
  | spawnedLauncher kind => exact h.spawn rfl rfl (by simp [Proc.holdsSubmit])
  | spawnedStop => exact h.spawn rfl rfl (by simp [Proc.holdsSubmit])
  | launcher i ok kind pc pc' f hp hpc =>
    have hset : NoDuplicate (s.set i (.launcher kind pc')) :=
      h.set_quiet hp rfl rfl (fun hl => by cases hl) (List.nil_sublist _)
    refine hset.spawn rfl rfl fun p hp' => ?_
    unfold State.launched at hp'
    split at hp'
    · rw [List.mem_singleton.1 hp']
      rfl
    · cases hp'
  | stop i ok pc pc' f hp hpc =>
    exact h.set_quiet hp rfl rfl (fun hl => by cases hl) (List.nil_sublist _)
  | moved i m kind pc pc' call f hp hallow hmove =>
    by_cases hsel : ∃ k, pc = .select k
    · -- the selection is the one move that brings new batches to send
      obtain ⟨k, rfl⟩ := hsel
      cases hmove with
      | selected _ wanted hwanted => exact h.select hp hwanted (hcond i kind k call rfl hp)
      | unreadable => exact h.set_quiet hp rfl rfl (fun _ => rfl) (List.nil_sublist _)
      | trapped => exact h.set_quiet hp rfl rfl (fun _ => rfl) (List.nil_sublist _)
    · have hsends := sends_move hallow hmove fun k hk => hsel ⟨k, hk⟩
      refine h.set hp rfl (holdsSubmit_move hallow hmove) (.inr rfl) ?_
      exact (h.fresh _ (List.mem_of_getElem? hp)).sublist (hsends.append_right _)
  | sent i p b hp hcall =>
    refine h.set_quiet hp rfl rfl (fun _ => holdsSubmit_of_call hcall) ?_
    rw [sends_sent hcall]
  | accepted i p b hp hcall =>
    refine h.loaded hp (holdsSubmit_of_call hcall) rfl ?_ (load_accepted s b)
    rw [sends_accepted hcall s.nextId]
  | refused i p b hp hcall =>
    exact h.set_quiet hp rfl rfl (fun _ => holdsSubmit_of_call hcall) (sends_refused hcall)
  | lost i p b hp hcall =>
    refine h.loaded hp (holdsSubmit_of_call hcall) rfl ?_ (load_append_pending s b)
    rw [sends_unanswered hcall, sends_accepted hcall 0]
    exact (List.nil_sublist _).cons_cons b
  | orphaned i kind l b call hp =>
    refine h.set_quiet hp rfl rfl (fun _ => rfl) ?_
    cases call with
    | asked | sent => exact (List.nil_sublist _).cons_cons b
    | accepted | refused => exact List.nil_sublist _
  | orphanLost i kind b hp =>
    exact h.loaded hp rfl rfl (List.Sublist.refl _) (load_append_pending s b)
  | killed i p hp => exact h.set_quiet hp rfl rfl (fun hl => by cases hl) (List.nil_sublist _)
  | ended id =>
    refine h.of_load_subperm rfl (List.Sublist.subperm ?_)
    exact (List.filter_sublist.map _).append_right _
  | lateAccepted b hb =>
    refine h.of_load_subperm rfl ?_
    exact ((load_accepted _ b).trans (load_erase_pending s hb)).subperm
  | lateRefused b hb =>
    refine h.of_load_subperm rfl ?_
    exact (List.sublist_cons_self b _).subperm.trans (load_erase_pending s hb).subperm
  | published r => exact h.of_load_subperm rfl (List.Subperm.refl _)

/-- A job that nobody has dispatched yet. -/
def State.fresh (f : JobFiles) : State := ⟨f, [], [], 1, []⟩

theorem noDuplicate_fresh (f : JobFiles) : NoDuplicate (.fresh f) where
  sole i j p q hp := by cases hp
  load := List.nodup_nil
  fresh p hp := by cases hp

/-- **No duplicate allocations.**  In every run of dispatches, resumes, recoveries, stops,
controllers and kills of one job in which each controller selects only batches that are neither in
the queue nor in a request that nobody waits for, no two active allocations carry the same batch. -/
theorem active_batches_nodup (job : Job) (f : JobFiles) (es : List Event) (s : State)
    (hcond : Machine.Along (State.step job) (SelectsFresh job) (.fresh f) es)
    (hrun : Machine.run (State.step job) (.fresh f) es = some s) :
    (s.queue.map Alloc.batch).Nodup := by
  have hend : NoDuplicate s := Machine.invariant_along (fun _ _ _ hs hc => hs.step hc)
    (noDuplicate_fresh f) hcond hrun
  exact hend.load.of_append_left

/-- The load is empty whenever a controller selects its batches. -/
def selectsIdle (s : State) : Event → Bool
  | .move i .next =>
      match s.procs[i]? with
      | some (.controller _ (.select _) _) => s.load = []
      | _ => true
  | _ => true

theorem SelectsFresh.of_selectsIdle {job : Job} {s : State} {e : Event}
    (h : selectsIdle s e = true) : SelectsFresh job s e := by
  rintro i kind k call rfl hp b - -
  have hload : s.load = [] := by simpa [selectsIdle, hp] using h
  rw [hload]
  exact List.not_mem_nil

/-- A job of two batches, dispatched once. -/
theorem active_batches_nodup_dispatch :
    let job : Job := ⟨2, [[0], [1]], by decide⟩
    let f : JobFiles := ⟨false, .absent, none, ⟨true, [], [], []⟩⟩
    let es : List Event := .spawnLauncher .dispatch :: List.replicate 6 (.script 0 true) ++
      List.replicate 16 (.move 1 .next) ++
      [.send 1, .accept 1, .move 1 (.reply 0 "ACCEPTED|1|1/32 fair share; 1 user jobs".toList),
        .move 1 (.append 5), .move 1 .next, .move 1 .next, .send 1, .accept 1]
    ∃ s, Machine.run (State.step job) (.fresh f) es = some s ∧ s.queue = [⟨1, 0⟩, ⟨2, 1⟩] ∧
      (s.queue.map Alloc.batch).Nodup := by
  intro job f es
  have hqueue : (Machine.run (State.step job) (.fresh f) es).map State.queue =
      some [⟨1, 0⟩, ⟨2, 1⟩] := by decide +kernel
  have hidle : Machine.Along (State.step job) (fun s e => selectsIdle s e = true) (.fresh f) es := by
    decide +kernel
  obtain ⟨s, hrun, hs⟩ := Option.map_eq_some_iff.1 hqueue
  exact ⟨s, hrun, hs, active_batches_nodup job f es s
    (hidle.mono fun _ _ => SelectsFresh.of_selectsIdle) hrun⟩

/-- The first controller is killed when it has read the acceptance of batch 0 and not yet recorded it;
a second dispatch counts no batches and submits batch 0 again. -/
theorem accepted_row_lost :
    ¬ ∀ (job : Job) (f : JobFiles) (es : List Event) (s : State),
      Machine.run (State.step job) (.fresh f) es = some s → (s.queue.map Alloc.batch).Nodup := by
  intro hall
  let job : Job := ⟨1, [[0]], by decide⟩
  let f : JobFiles := ⟨false, .absent, none, ⟨true, [], [], []⟩⟩
  let dispatch (i : ℕ) : List Event := .spawnLauncher .dispatch :: List.replicate 6 (.script i true)
  let first : List Event := dispatch 0 ++ List.replicate 16 (.move 1 .next) ++
    [.send 1, .accept 1, .move 1 (.reply 0 "ACCEPTED|1|1/32 fair share; 1 user jobs".toList), .kill 1]
  let second : List Event := dispatch 2 ++ List.replicate 8 (.move 3 .next) ++ [.send 3, .accept 3]
  have hqueue : ((Machine.run (State.step job) (.fresh f) (first ++ second)).map fun s =>
      s.queue.map Alloc.batch) = some [0, 0] := by decide +kernel
  obtain ⟨s, hrun, hs⟩ := Option.map_eq_some_iff.1 hqueue
  have hnodup := hall job f (first ++ second) s hrun
  rw [hs] at hnodup
  exact absurd hnodup (by decide)

end Site
end Slurmy
