import Slurmy.App.Operations

/-!
# A delete is alone in its scope

* `Operation.left`: the operations that a thread has still to wait for, before its subprocess ends;
* `Moves`, `next_cases`: what a step can do;
* `Exclusive`: which operations of a scope run beside each other;
* `delete_exclusive`: over runs.
-/

namespace Slurmy
namespace Operations

/-! ### Steps -/

/-- The operations that the thread has still to wait for; none once its subprocess has ended. -/
def Operation.left (op : Operation) : Option (List ℕ) :=
  match op.pc with
  | .created | .opening => some op.dependencies
  | .waiting keys _ => some keys
  | .entering | .subprocess | .returned _ => some []
  | _ => none

/-- What a step of an operation can do. -/
structure Moves (busy : ℕ → Bool) (op op' : Operation) : Prop where
  label : op'.label = op.label
  scope : op'.scope = op.scope
  status : op'.status = .running → op.status = .running
  left : ∀ keys', op'.left = some keys' → op'.status = op.status ∧
    ∃ keys, op.left = some keys ∧ ∀ key ∈ keys, key ∈ keys' ∨ busy key = false

/-- A step that leaves the fields as they are, and forgets only operations that do not run. -/
theorem Moves.of_pc {busy : ℕ → Bool} {op : Operation} {pc : Pc}
    (h : ∀ keys', { op with pc := pc }.left = some keys' →
      ∃ keys, op.left = some keys ∧ ∀ key ∈ keys, key ∈ keys' ∨ busy key = false) :
    Moves busy op { op with pc := pc } :=
  ⟨rfl, rfl, id, fun keys' hkeys => ⟨rfl, h keys' hkeys⟩⟩

/-- A step after which the subprocess has ended. -/
theorem Moves.of_left {busy : ℕ → Bool} {op op' : Operation} (hlabel : op'.label = op.label)
    (hscope : op'.scope = op.scope) (hstatus : op'.status = .running → op.status = .running)
    (h : op'.left = none) : Moves busy op op' :=
  ⟨hlabel, hscope, hstatus, fun keys' hkeys => by rw [h] at hkeys; cases hkeys⟩

theorem advance_moves {now : ℕ} {busy : ℕ → Bool} {op op' : Operation} (h : op.advance now busy = some op') :
    Moves busy op op' := by
  obtain ⟨label, scope, status, code, started, dependencies, pc⟩ := op
  have hstay : ∀ {keys keys' : List ℕ}, some keys = some keys' → ∀ key ∈ keys, key ∈ keys' ∨ busy key = false := by
    intro keys keys' heq key hkey
    cases heq
    exact .inl hkey
  cases pc with
  | created =>
    cases h
    exact .of_pc fun keys' hkeys => ⟨dependencies, rfl, hstay hkeys⟩
  | opening =>
    cases h
    exact .of_pc fun keys' hkeys => ⟨dependencies, rfl, hstay hkeys⟩
  | waiting keys deadline =>
    cases keys with
    | nil =>
      cases h
      exact .of_pc fun keys' hkeys => ⟨[], rfl, hstay hkeys⟩
    | cons key keys =>
      cases deadline with
      | none =>
        cases h
        exact .of_pc fun keys' hkeys => ⟨key :: keys, rfl, hstay hkeys⟩
      | some deadline =>
        simp only [Operation.advance] at h
        split_ifs at h with hbusy hlate
        · cases h
          exact .of_left rfl rfl id rfl
        · cases h
          exact .of_pc fun keys' hkeys => ⟨key :: keys, rfl, hstay hkeys⟩
        · -- the previous operation has finished
          cases h
          refine .of_pc fun keys' hkeys => ⟨key :: keys, rfl, ?_⟩
          cases hkeys
          intro k hk
          rcases List.mem_cons.mp hk with rfl | hk
          · exact .inr (by simpa using hbusy)
          · exact .inl hk
  | entering =>
    cases h
    exact .of_pc fun keys' hkeys => ⟨[], rfl, hstay hkeys⟩
  | subprocess => cases h
  | returned code' =>
    cases h
    refine .of_left rfl rfl ?_ rfl
    dsimp only
    split_ifs <;> intro heq <;> cases heq
  | updated =>
    cases h
    exact .of_left rfl rfl id rfl
  | raised =>
    cases h
    exact .of_left rfl rfl (fun heq => by cases heq) rfl
  | invalidating =>
    cases h
    exact .of_left rfl rfl id rfl
  | ended => cases h

theorem raise_moves {busy : ℕ → Bool} {op op' : Operation} (h : op.raise = some op') : Moves busy op op' := by
  obtain ⟨label, scope, status, code, started, dependencies, pc⟩ := op
  cases pc <;> cases h <;> exact .of_left rfl rfl id rfl

theorem exit_moves {busy : ℕ → Bool} {code : ℤ} {op op' : Operation} (h : op.exit code = some op') :
    Moves busy op op' := by
  obtain ⟨label, scope, status, code', started, dependencies, pc⟩ := op
  cases pc with
  | subprocess =>
    cases h
    refine .of_pc fun keys' hkeys => ⟨[], rfl, ?_⟩
    intro key hkey
    cases hkey
  | _ => cases h

variable {s t : State} {e : Event}

/-- What a step can do: nothing to the table, an operation more, or a step of one of them. -/
theorem next_cases (h : s.next e = some t) :
    (t.operations = s.operations ∧
      (t.shuttingDown = s.shuttingDown ∨ s.operations.all (fun op => op.status ≠ .running) = true)) ∨
    (∃ label scope dependencies, e = .request label scope ∧ s.answer label scope = .accepted dependencies ∧
      t.shuttingDown = s.shuttingDown ∧
      t.operations = s.operations ++ [⟨label, scope, .running, none, s.now, dependencies, .created⟩]) ∨
    (∃ key op op', s.operations[key]? = some op ∧ Moves s.isRunning op op' ∧
      t.shuttingDown = s.shuttingDown ∧ t.operations = s.operations.set key op') := by
  have hmove : ∀ {key f}, (∀ op op', f op = some op' → Moves s.isRunning op op') → s.move key f = some t →
      ∃ key op op', s.operations[key]? = some op ∧ Moves s.isRunning op op' ∧
        t.shuttingDown = s.shuttingDown ∧ t.operations = s.operations.set key op' := by
    intro key f hf hs
    unfold State.move at hs
    split at hs
    · next op' hop =>
      obtain ⟨op, hop, hf'⟩ := Option.bind_eq_some_iff.mp hop
      cases hs
      exact ⟨key, op, op', hop, hf op op' hf', rfl, rfl⟩
    · cases hs
  cases e with
  | tick d =>
    cases h
    exact .inl ⟨rfl, .inl rfl⟩
  | request label scope =>
    simp only [State.next] at h
    split at h
    · next dependencies hanswer =>
      cases h
      exact .inr (.inl ⟨label, scope, dependencies, rfl, hanswer, rfl, rfl⟩)
    · cases h
      exact .inl ⟨rfl, .inl rfl⟩
  | shutdown =>
    simp only [State.next] at h
    split_ifs at h with hany
    · cases h
      exact .inl ⟨rfl, .inl rfl⟩
    · cases h
      exact .inl ⟨rfl, .inr (by simpa using hany)⟩
  | step key => exact .inr (.inr (hmove (fun _ _ => advance_moves) h))
  | exits key code => exact .inr (.inr (hmove (fun _ _ => exit_moves) h))
  | raises key => exact .inr (.inr (hmove (fun _ _ => raise_moves) h))

theorem Moves.refl (busy : ℕ → Bool) (op : Operation) : Moves busy op op :=
  .of_pc fun keys' hkeys => ⟨keys', hkeys, fun _ hkey => .inl hkey⟩

/-- The operations of `t` are those of `s`, up to a step of one of them. -/
def Kept (s t : State) : Prop :=
  t.operations.length = s.operations.length ∧
    ∀ (k : ℕ) (op' : Operation), t.operations[k]? = some op' →
      ∃ op, s.operations[k]? = some op ∧ Moves s.isRunning op op'

theorem kept_of_eq (h : t.operations = s.operations) : Kept s t := by
  refine ⟨by rw [h], ?_⟩
  intro k op' hop
  rw [h] at hop
  exact ⟨op', hop, .refl _ op'⟩

theorem kept_of_set {key : ℕ} {op op' : Operation} (hop : s.operations[key]? = some op)
    (hmoves : Moves s.isRunning op op') (h : t.operations = s.operations.set key op') : Kept s t := by
  refine ⟨by rw [h, List.length_set], ?_⟩
  intro k o hk
  rw [h, List.getElem?_set] at hk
  split_ifs at hk with heq hlt
  · cases hk
    exact ⟨op, heq ▸ hop, hmoves⟩
  · exact ⟨o, hk, .refl _ o⟩

/-! ### Requests -/

theorem mem_active {scope : Text} {key : ℕ} :
    key ∈ s.active scope ↔ ∃ op, s.operations[key]? = some op ∧ op.scope = scope ∧ op.status = .running := by
  unfold State.active State.isActive
  rw [List.mem_filter, List.mem_range, Option.any_eq_true]
  simp only [Bool.and_eq_true, decide_eq_true_eq]
  constructor
  · rintro ⟨-, h⟩
    exact h
  · rintro ⟨op, hop, h⟩
    exact ⟨(List.getElem?_eq_some_iff.mp hop).1, op, hop, h⟩

theorem hasLabel_of {label : Label} {key : ℕ} {op : Operation} (hop : s.operations[key]? = some op)
    (h : op.label = label) : s.hasLabel label key = true := by
  unfold State.hasLabel
  rw [hop]
  simpa using h

theorem wait_accepted {keys dependencies : List ℕ} (h : s.wait keys = .accepted dependencies) : keys = [] := by
  cases keys with
  | nil => rfl
  | cons key keys => cases h

/-- Which labels may run beside each other. -/
def Beside (earlier later : Label) : Prop :=
  (later = .stop ∧ earlier.yields = true) ∨ (later = .delete ∧ earlier ≠ .delete)

/-- What holds where a request is accepted. -/
theorem answer_accepted {label : Label} {scope : Text} {dependencies : List ℕ}
    (h : s.answer label scope = .accepted dependencies) :
    s.shuttingDown = false ∧ ∀ i ∈ s.active scope, ∀ op, s.operations[i]? = some op →
      Beside op.label label ∧ (label = .delete → i ∈ dependencies) := by
  unfold State.answer at h
  split_ifs at h with hshut
  refine ⟨by simpa using hshut, ?_⟩
  intro i hi op hop
  have hnone : s.wait (s.active scope) = .accepted dependencies →
      Beside op.label label ∧ (label = .delete → i ∈ dependencies) := by
    intro hwait
    rw [wait_accepted hwait] at hi
    cases hi
  cases label with
  | delete =>
    dsimp only at h
    split at h
    · cases h
    · next hfind =>
      cases h
      refine ⟨.inr ⟨rfl, ?_⟩, fun _ => hi⟩
      intro hdelete
      exact List.find?_eq_none.mp hfind i hi (hasLabel_of hop hdelete)
  | stop =>
    dsimp only at h
    split at h
    · cases h
    · refine ⟨.inl ⟨rfl, ?_⟩, fun heq => by cases heq⟩
      have hfilter := List.filter_eq_nil_iff.mp (wait_accepted h) i hi
      rw [hop] at hfilter
      simpa using hfilter
  | _ => exact hnone h

/-! ### The invariant -/

/-- Which operations of a scope run beside each other. -/
structure Exclusive (s : State) : Prop where
  /-- an operation runs until its subprocess has ended -/
  left : ∀ (k : ℕ) (op : Operation), s.operations[k]? = some op → op.left ≠ none → op.status = .running
  shutting : s.shuttingDown = true → ∀ op ∈ s.operations, op.status ≠ .running
  beside : ∀ (i j : ℕ) (op op' : Operation), i < j → s.operations[i]? = some op → s.operations[j]? = some op' →
    op'.scope = op.scope → op.status = .running → op'.status = .running → Beside op.label op'.label
  /-- a delete waits for the earlier operations that run -/
  waits : ∀ (i j : ℕ) (op op' : Operation), i < j → s.operations[i]? = some op → s.operations[j]? = some op' →
    op'.scope = op.scope → op.status = .running → op'.label = .delete → ∀ keys, op'.left = some keys → i ∈ keys

theorem initial_exclusive : Exclusive .initial where
  left k op hop := by cases hop
  shutting hshut := by cases hshut
  beside i j op op' hij hop := by cases hop
  waits i j op op' hij hop := by cases hop

theorem isRunning_of {k : ℕ} {op : Operation} (hop : s.operations[k]? = some op) (h : op.status = .running) :
    s.isRunning k = true := by
  unfold State.isRunning
  rw [hop]
  simpa using h

theorem Exclusive.of_kept (h : Exclusive s) (hkept : Kept s t)
    (hshut : t.shuttingDown = s.shuttingDown ∨ s.operations.all (fun op => op.status ≠ .running) = true) :
    Exclusive t where
  left k op' hop' hleft := by
    obtain ⟨op, hop, hmoves⟩ := hkept.2 k op' hop'
    obtain ⟨keys', hkeys⟩ := Option.ne_none_iff_exists'.mp hleft
    obtain ⟨hstatus, keys, hold, -⟩ := hmoves.left keys' hkeys
    rw [hstatus]
    exact h.left k op hop (by rw [hold]; exact Option.some_ne_none keys)
  shutting hdown op' hop' := by
    obtain ⟨k, hk⟩ := List.mem_iff_getElem?.mp hop'
    obtain ⟨op, hop, hmoves⟩ := hkept.2 k op' hk
    intro hrunning
    have hold := hmoves.status hrunning
    rcases hshut with heq | hall
    · exact h.shutting (heq ▸ hdown) op (List.mem_of_getElem? hop) hold
    · have := List.all_eq_true.mp hall op (List.mem_of_getElem? hop)
      simp [hold] at this
  beside i j opi' opj' hij hi hj hscope hri hrj := by
    obtain ⟨opi, hopi, hmi⟩ := hkept.2 i opi' hi
    obtain ⟨opj, hopj, hmj⟩ := hkept.2 j opj' hj
    rw [hmi.scope, hmj.scope] at hscope
    rw [hmi.label, hmj.label]
    exact h.beside i j opi opj hij hopi hopj hscope (hmi.status hri) (hmj.status hrj)
  waits i j opi' opj' hij hi hj hscope hri hlabel keys' hkeys := by
    obtain ⟨opi, hopi, hmi⟩ := hkept.2 i opi' hi
    obtain ⟨opj, hopj, hmj⟩ := hkept.2 j opj' hj
    rw [hmi.scope, hmj.scope] at hscope
    rw [hmj.label] at hlabel
    obtain ⟨-, keys, hold, hforget⟩ := hmj.left keys' hkeys
    have hrunning := hmi.status hri
    rcases hforget i (h.waits i j opi opj hij hopi hopj hscope hrunning hlabel keys hold) with hmem | hidle
    · exact hmem
    · -- an operation that still runs is not forgotten
      rw [isRunning_of hopi hrunning] at hidle
      cases hidle

theorem getElem?_concat {α : Type*} {l : List α} {a b : α} {k : ℕ} (h : (l ++ [a])[k]? = some b) :
    l[k]? = some b ∨ (k = l.length ∧ b = a) := by
  by_cases hk : k < l.length
  · rw [List.getElem?_append_left hk] at h
    exact .inl h
  · rw [List.getElem?_append_right (by omega), List.getElem?_singleton] at h
    split_ifs at h with hzero
    exact .inr ⟨by omega, (Option.some.inj h).symm⟩

theorem Exclusive.accept (h : Exclusive s) {label : Label} {scope : Text} {dependencies : List ℕ}
    (hanswer : s.answer label scope = .accepted dependencies) (hshut : t.shuttingDown = s.shuttingDown)
    (hops : t.operations = s.operations ++ [⟨label, scope, .running, none, s.now, dependencies, .created⟩]) :
    Exclusive t := by
  obtain ⟨hopen, hactive⟩ := answer_accepted hanswer
  -- an operation before the new one
  have hold : ∀ {i j : ℕ} {op : Operation}, i < j → t.operations[i]? = some op → j ≤ s.operations.length →
      s.operations[i]? = some op := by
    intro i j op hij hop hj
    rw [hops] at hop
    rcases getElem?_concat hop with hop | ⟨rfl, -⟩
    · exact hop
    · omega
  constructor
  · intro k op hop hleft
    rw [hops] at hop
    rcases getElem?_concat hop with hop | ⟨-, rfl⟩
    · exact h.left k op hop hleft
    · rfl
  · intro hdown
    rw [hshut, hopen] at hdown
    cases hdown
  · intro i j op op' hij hi hj hscope hri hrj
    have hj' := hj
    rw [hops] at hj'
    rcases getElem?_concat hj' with hj' | ⟨hlast, rfl⟩
    · have hlt := (List.getElem?_eq_some_iff.mp hj').1
      exact h.beside i j op op' hij (hold hij hi hlt.le) hj' hscope hri hrj
    · have hi' := hold hij hi hlast.le
      exact (hactive i (mem_active.mpr ⟨op, hi', hscope.symm, hri⟩) op hi').1
  · intro i j op op' hij hi hj hscope hri hlabel keys hkeys
    have hj' := hj
    rw [hops] at hj'
    rcases getElem?_concat hj' with hj' | ⟨hlast, rfl⟩
    · have hlt := (List.getElem?_eq_some_iff.mp hj').1
      exact h.waits i j op op' hij (hold hij hi hlt.le) hj' hscope hri hlabel keys hkeys
    · have hi' := hold hij hi hlast.le
      cases hkeys
      exact (hactive i (mem_active.mpr ⟨op, hi', hscope.symm, hri⟩) op hi').2 hlabel

theorem Exclusive.step (h : Exclusive s) (hnext : s.next e = some t) : Exclusive t := by
  rcases next_cases hnext with ⟨hops, hshut⟩ | ⟨label, scope, dependencies, -, hanswer, hshut, hops⟩ |
    ⟨key, op, op', hop, hmoves, hshut, hops⟩
  · exact h.of_kept (kept_of_eq hops) hshut
  · exact h.accept hanswer hshut hops
  · exact h.of_kept (kept_of_set hop hmoves hops) (.inl hshut)

theorem exclusive_of_run {es : List Event} (h : Machine.run State.next .initial es = some s) : Exclusive s :=
  Machine.invariant (fun _ _ _ hs hstep => hs.step hstep) initial_exclusive h

/-! ### Runs -/

/-- A stop or a delete that runs is joined. -/
theorem Exclusive.answer_joined (h : Exclusive s) {k : ℕ} {op : Operation} (hop : s.operations[k]? = some op)
    (hrunning : op.status = .running) (hlabel : op.label = .stop ∨ op.label = .delete) :
    s.answer op.label op.scope = .joined k := by
  have hopen : s.shuttingDown = false := by
    cases hshut : s.shuttingDown with
    | false => rfl
    | true => exact absurd hrunning (h.shutting hshut op (List.mem_of_getElem? hop))
  have hk : k ∈ s.active op.scope := mem_active.mpr ⟨op, hop, rfl, hrunning⟩
  have hlone : ¬ Beside op.label op.label := by
    rintro (⟨hstop, hyields⟩ | ⟨hdelete, hne⟩)
    · rw [hstop] at hyields
      cases hyields
    · exact hne hdelete
  have hfind : (s.active op.scope).find? (s.hasLabel op.label) = some k := by
    cases hfind : (s.active op.scope).find? (s.hasLabel op.label) with
    | none => exact absurd (hasLabel_of hop rfl) (List.find?_eq_none.mp hfind k hk)
    | some k' =>
      obtain ⟨o, ho, hscope, hrun⟩ := mem_active.mp (List.mem_of_find?_eq_some hfind)
      have hsame : o.label = op.label := by
        have hhas := List.find?_some hfind
        unfold State.hasLabel at hhas
        rw [ho] at hhas
        simpa using hhas
      rcases lt_trichotomy k' k with hlt | rfl | hlt
      · have hbeside := h.beside k' k o op hlt ho hop hscope.symm hrun hrunning
        rw [hsame] at hbeside
        exact absurd hbeside hlone
      · rfl
      · have hbeside := h.beside k k' op o hlt hop ho hscope hrunning hrun
        rw [hsame] at hbeside
        exact absurd hbeside hlone
  unfold State.answer
  rw [if_neg (by rw [hopen]; exact Bool.false_ne_true)]
  rcases hlabel with hlabel | hlabel
  · rw [hlabel] at hfind ⊢
    dsimp only
    rw [hfind]
  · rw [hlabel] at hfind ⊢
    dsimp only
    rw [hfind]

/-- While the delete `d` runs, its scope has no operation from the key `n` on. -/
structure Alone (d n : ℕ) (scope : Text) (s : State) : Prop where
  lt : d < s.operations.length
  alone : ∀ op, s.operations[d]? = some op → op.status = .running → op.label = .delete ∧ op.scope = scope ∧
    ∀ (k : ℕ) (o : Operation), n ≤ k → s.operations[k]? = some o → o.scope ≠ scope

theorem Alone.step {d n : ℕ} {scope : Text} (h : Alone d n scope s) (hnext : s.next e = some t) :
    Alone d n scope t := by
  have hkeep : Kept s t → Alone d n scope t := by
    intro hkept
    refine ⟨by rw [hkept.1]; exact h.lt, ?_⟩
    intro op' hop' hrunning
    obtain ⟨op, hop, hmoves⟩ := hkept.2 d op' hop'
    obtain ⟨hlabel, hscope, hnone⟩ := h.alone op hop (hmoves.status hrunning)
    refine ⟨hmoves.label.trans hlabel, hmoves.scope.trans hscope, ?_⟩
    intro k o' hk ho'
    obtain ⟨o, ho, hmo⟩ := hkept.2 k o' ho'
    rw [hmo.scope]
    exact hnone k o hk ho
  rcases next_cases hnext with ⟨hops, -⟩ | ⟨label, scope', dependencies, -, hanswer, -, hops⟩ |
    ⟨key, op, op', hop, hmoves, -, hops⟩
  · exact hkeep (kept_of_eq hops)
  · have hlt := h.lt
    refine ⟨by rw [hops, List.length_append]; omega, ?_⟩
    intro op hop hrunning
    rw [hops, List.getElem?_append_left hlt] at hop
    obtain ⟨hlabel, hscope, hnone⟩ := h.alone op hop hrunning
    refine ⟨hlabel, hscope, ?_⟩
    intro k o hk ho
    rw [hops] at ho
    rcases getElem?_concat ho with ho | ⟨-, rfl⟩
    · exact hnone k o hk ho
    · -- nothing is accepted beside a delete
      rintro rfl
      have hbeside := ((answer_accepted hanswer).2 d (mem_active.mpr ⟨op, hop, hscope, hrunning⟩) op hop).1
      rw [hlabel] at hbeside
      rcases hbeside with ⟨-, hyields⟩ | ⟨-, hne⟩
      · cases hyields
      · exact hne rfl
  · exact hkeep (kept_of_set hop hmoves hops)

/-- In a scope, nothing is accepted while a delete runs; its subprocess runs when the earlier operations have
ended; a stop or a delete is joined; and only a stop runs a subprocess beside another, that of an earlier
download or resume. -/
theorem delete_exclusive {es es' : List Event} (hs : Machine.run State.next .initial es = some s)
    (ht : Machine.run State.next s es' = some t) :
    (∀ (d : ℕ) (op op' : Operation), s.operations[d]? = some op → op.label = .delete →
      t.operations[d]? = some op' → op'.status = .running →
      ∀ (k : ℕ) (o : Operation), s.operations.length ≤ k → t.operations[k]? = some o → o.scope ≠ op.scope) ∧
    (∀ (d : ℕ) (op : Operation), t.operations[d]? = some op → op.label = .delete → op.pc = .subprocess →
      ∀ (i : ℕ) (o : Operation), i < d → t.operations[i]? = some o → o.scope = op.scope →
        o.status ≠ .running ∧ o.pc ≠ .subprocess) ∧
    (∀ (k : ℕ) (op : Operation), t.operations[k]? = some op → op.status = .running →
      (op.label = .stop ∨ op.label = .delete) →
      t.answer op.label op.scope = .joined k ∧ t.next (.request op.label op.scope) = some t) ∧
    (∀ (i j : ℕ) (o o' : Operation), i < j → t.operations[i]? = some o → t.operations[j]? = some o' →
      o'.scope = o.scope → o.pc = .subprocess → o'.pc = .subprocess →
      o'.label = .stop ∧ o.label.yields = true) := by
  have hexclusive : Exclusive t := exclusive_of_run (Machine.run_append_some.mpr ⟨s, hs, ht⟩)
  have hrunning : ∀ (k : ℕ) (op : Operation), t.operations[k]? = some op → op.pc = .subprocess →
      op.left = some [] ∧ op.status = .running := by
    intro k op hop hpc
    have hleft : op.left = some [] := by
      unfold Operation.left
      rw [hpc]
    exact ⟨hleft, hexclusive.left k op hop (by rw [hleft]; exact Option.some_ne_none _)⟩
  -- a delete in its subprocess has nothing to wait for
  have hdelete : ∀ (d : ℕ) (op : Operation), t.operations[d]? = some op → op.label = .delete →
      op.pc = .subprocess → ∀ (i : ℕ) (o : Operation), i < d → t.operations[i]? = some o → o.scope = op.scope →
      o.status ≠ .running := by
    intro d op hop hlabel hpc i o hid ho hscope hrun
    exact absurd (hexclusive.waits i d o op hid ho hop hscope.symm hrun hlabel [] (hrunning d op hop hpc).1)
      List.not_mem_nil
  refine ⟨?_, ?_, ?_, ?_⟩
  · intro d op op' hop hlabel hop' hrun k o hk ho
    have hstart : Alone d s.operations.length op.scope s := by
      refine ⟨(List.getElem?_eq_some_iff.mp hop).1, ?_⟩
      intro o ho _
      rw [hop] at ho
      cases ho
      refine ⟨hlabel, rfl, ?_⟩
      intro k o hk ho
      exact absurd (List.getElem?_eq_some_iff.mp ho).1 (by omega)
    have hend : Alone d s.operations.length op.scope t :=
      Machine.invariant (fun _ _ _ h hstep => h.step hstep) hstart ht
    exact (hend.alone op' hop' hrun).2.2 k o hk ho
  · intro d op hop hlabel hpc i o hid ho hscope
    have hidle := hdelete d op hop hlabel hpc i o hid ho hscope
    exact ⟨hidle, fun hsub => hidle (hrunning i o ho hsub).2⟩
  · intro k op hop hrun hlabel
    have hjoin := hexclusive.answer_joined hop hrun hlabel
    refine ⟨hjoin, ?_⟩
    simp only [State.next, hjoin]
  · intro i j o o' hij ho ho' hscope hpc hpc'
    rcases hexclusive.beside i j o o' hij ho ho' hscope (hrunning i o ho hpc).2 (hrunning j o' ho' hpc').2 with
      hstop | ⟨hlabel, -⟩
    · exact hstop
    · exact absurd (hrunning i o ho hpc).2 (hdelete j o' ho' hlabel hpc' i o hij ho hscope.symm)

/-- A delete that has waited for a download. -/
theorem delete_exclusive_download :
    ∃ t op, Machine.run State.next .initial
        ([Event.request .sync ['j'], Event.step 0, Event.step 0, Event.step 0, Event.step 0,
          Event.request .delete ['j']] ++
        [Event.exits 0 0, Event.step 0, Event.step 1, Event.step 1, Event.step 1, Event.step 1, Event.step 1,
          Event.step 1]) = some t ∧
      t.operations[1]? = some op ∧ op.label = .delete ∧ op.pc = .subprocess ∧
      (∀ (i : ℕ) (o : Operation), i < 1 → t.operations[i]? = some o → o.scope = op.scope →
        o.status ≠ .running ∧ o.pc ≠ .subprocess) ∧
      t.answer .delete ['j'] = .joined 1 := by
  let sync : Operation := ⟨.sync, ['j'], .running, none, 0, [], .subprocess⟩
  let delete : Operation := ⟨.delete, ['j'], .running, none, 0, [0], .created⟩
  let s : State := ⟨[sync, delete], 0, false⟩
  let t : State :=
    ⟨[{ sync with status := .done, code := some 0, pc := .updated }, { delete with pc := .subprocess }], 0, false⟩
  have hs : Machine.run State.next .initial
      [Event.request .sync ['j'], Event.step 0, Event.step 0, Event.step 0, Event.step 0,
        Event.request .delete ['j']] = some s := rfl
  have ht : Machine.run State.next s
      [Event.exits 0 0, Event.step 0, Event.step 1, Event.step 1, Event.step 1, Event.step 1, Event.step 1,
        Event.step 1] = some t := rfl
  obtain ⟨-, hdelete, hjoin, -⟩ := delete_exclusive hs ht
  exact ⟨t, _, Machine.run_append_some.mpr ⟨s, hs, ht⟩, rfl, rfl, rfl, hdelete 1 _ rfl rfl rfl,
    (hjoin 1 _ rfl rfl (.inr rfl)).1⟩

end Operations
end Slurmy
