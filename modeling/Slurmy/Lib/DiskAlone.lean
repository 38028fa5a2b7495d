import Slurmy.Lib.Disk

/-!
# A disk for one program

Programs that no other program interferes with: only their own operations may break off.

* `World.start`: a tree, and where operations break off;
* `perform_alone`, `observe_alone`: a step of the program;
* `Tree.applyAll`, `performed`, `forM_perform`: operations one after the other, until one fails;
* `Tree.bytesAt`, `Tree.held`: what a file holds, and what the operations on files do to it;
* `Op.touched`: the only paths that an operation on files changes;
* `triple_perform_alone`, `triple_observe_alone`: the steps as rules.
-/

namespace Disk

variable {α : Type} {β : Type} [DecidableEq α] {ε : Type}

/-- The world of a program that has the disk to itself; a fault is where an operation breaks off. -/
def World.start (t : Tree α β) (faults : List (Option ℕ)) : World α β :=
  ⟨t, t, [], [], [], faults.map fun fault => ⟨[], fault⟩⟩

/-- No other program changes the tree. -/
def World.Quiet (w : World α β) : Prop := ∀ step ∈ w.steps, step.changes = []

/-- What happens to the operations to come. -/
def World.faults (w : World α β) : List (Option ℕ) := w.steps.map Step.fault

theorem quiet_start (t : Tree α β) (faults : List (Option ℕ)) : (World.start t faults).Quiet := by
  intro step hstep
  obtain ⟨fault, -, rfl⟩ := List.mem_map.mp hstep
  rfl

theorem faults_start (t : Tree α β) (faults : List (Option ℕ)) : (World.start t faults).faults = faults := by
  unfold World.faults World.start
  rw [List.map_map]
  exact List.map_id faults

/-- The world after operations that have succeeded, with the tree `t`. -/
def World.after (w : World α β) (ops : List (Op α β)) (t : Tree α β) : World α β :=
  { w with tree := t, log := w.log ++ ops, steps := w.steps.drop ops.length }

/-- The world after an operation that has failed, with the tree `t`. -/
def World.failed (w : World α β) (op : Op α β) (t : Tree α β) : World α β :=
  { w with tree := t, log := w.log ++ [op], broken := w.broken ++ [op], steps := w.steps.drop 1 }

/-- The tree that an operation leaves when it fails, with the fault that it meets; `none` when it succeeds. -/
def Op.left (op : Op α β) (fault : Option ℕ) (t : Tree α β) : Option (Tree α β) :=
  match fault with
  | some n => some (op.torn n t)
  | none => if (op.apply t).isSome then none else some t

variable {w : World α β} {t : Tree α β} {op : Op α β} {ops : List (Op α β)}

theorem World.Quiet.drop (h : w.Quiet) {n : ℕ} : ∀ step ∈ w.steps.drop n, step.changes = [] :=
  fun step hstep => h step (List.mem_of_mem_drop hstep)

theorem World.Quiet.after (h : w.Quiet) : (w.after ops t).Quiet := h.drop

theorem World.Quiet.failed (h : w.Quiet) : (w.failed op t).Quiet := h.drop

theorem next_quiet (h : w.Quiet) : w.next = (w.faults.head?.join, { w with steps := w.steps.drop 1 }) := by
  unfold World.next World.faults
  cases hsteps : w.steps with
  | nil =>
    obtain ⟨tree, alone, own, log, broken, steps⟩ := w
    cases hsteps
    rfl
  | cons step steps =>
    have hchanges : step.changes = [] := h step (hsteps ▸ List.mem_cons_self)
    simp only [hchanges, World.changed, List.filter_nil, List.foldl_nil]
    rfl

/-- An operation succeeds, or fails and leaves something. -/
theorem perform_alone (e : ε) (op : Op α β) (h : w.Quiet) :
    (∃ t, w.faults.head?.join = none ∧ op.apply w.tree = some t ∧ perform e op w = .ok () (w.after [op] t)) ∨
      ∃ t, op.left w.faults.head?.join w.tree = some t ∧ perform e op w = .error e (w.failed op t) := by
  unfold perform
  rw [next_quiet h]
  cases hfault : w.faults.head?.join with
  | some n => exact .inr ⟨op.torn n w.tree, rfl, rfl⟩
  | none =>
    cases happly : op.apply w.tree with
    | some t =>
      refine .inl ⟨t, rfl, rfl, ?_⟩
      simp only [happly]
      rfl
    | none =>
      refine .inr ⟨w.tree, ?_, ?_⟩
      · unfold Op.left
        rw [happly]
        rfl
      · simp only [happly]
        rfl

theorem observe_alone (e : ε) (h : w.Quiet) :
    (∃ n, w.faults.head?.join = some n ∧ (observe e : EStateM ε (World α β) (Tree α β)) w =
        .error e { w with steps := w.steps.drop 1 }) ∨
      (w.faults.head?.join = none ∧ (observe e : EStateM ε (World α β) (Tree α β)) w =
        .ok w.tree { w with steps := w.steps.drop 1 }) := by
  unfold observe
  rw [next_quiet h]
  cases w.faults.head?.join with
  | some n => exact .inl ⟨n, rfl, rfl⟩
  | none => exact .inr ⟨rfl, rfl⟩

/-! ### Operations one after the other -/

/-- All the operations, `none` when one of them fails. -/
def Tree.applyAll (t : Tree α β) (ops : List (Op α β)) : Option (Tree α β) := ops.foldlM (fun t op => op.apply t) t

/-- The operations that succeed, before the first that does not. -/
def performed : List (Option ℕ) → Tree α β → List (Op α β) → List (Op α β)
  | _, _, [] => []
  | faults, t, op :: ops =>
      match faults.head?.join, op.apply t with
      | none, some u => op :: performed faults.tail u ops
      | _, _ => []

@[simp] theorem applyAll_nil (t : Tree α β) : t.applyAll [] = some t := rfl

theorem applyAll_cons (t : Tree α β) (op : Op α β) (ops : List (Op α β)) :
    t.applyAll (op :: ops) = (op.apply t).bind fun u => u.applyAll ops := rfl

theorem applyAll_append (t : Tree α β) (ops ops' : List (Op α β)) :
    t.applyAll (ops ++ ops') = (t.applyAll ops).bind fun u => u.applyAll ops' := by
  unfold Tree.applyAll
  rw [List.foldlM_append]
  rfl

theorem after_after (w : World α β) (ops ops' : List (Op α β)) (t u : Tree α β) :
    (w.after ops t).after ops' u = w.after (ops ++ ops') u := by
  unfold World.after
  simp only [List.append_assoc, List.drop_drop, List.length_append]

/-- Operations one after the other succeed, or one of them fails. -/
theorem forM_perform (e : ε) (ops : List (Op α β)) (h : w.Quiet) :
    (performed w.faults w.tree ops = ops ∧ ∃ t, w.tree.applyAll ops = some t ∧
        ops.forM (perform e) w = .ok ⟨⟩ (w.after ops t)) ∨
      ∃ op rest t u, ops = performed w.faults w.tree ops ++ op :: rest ∧
        w.tree.applyAll (performed w.faults w.tree ops) = some t ∧
        op.left (w.faults[(performed w.faults w.tree ops).length]?).join t = some u ∧
        ops.forM (perform e) w = .error e ((w.after (performed w.faults w.tree ops) t).failed op u) := by
  induction ops generalizing w with
  | nil =>
    refine .inl ⟨rfl, w.tree, rfl, ?_⟩
    unfold World.after
    rw [List.append_nil]
    rfl
  | cons op ops ih =>
    have hforM : ∀ w' : World α β, perform e op w = .ok () w' →
        (op :: ops).forM (perform e) w = ops.forM (perform e) w' := by
      intro w' hw'
      show (perform e op >>= fun _ => ops.forM (perform e)) w = _
      show EStateM.bind _ _ w = _
      unfold EStateM.bind
      rw [hw']
    rcases perform_alone e op h with ⟨t, hfault, happly, heq⟩ | ⟨t, hleft, heq⟩
    · have hdone : performed w.faults w.tree (op :: ops) = op :: performed (w.after [op] t).faults t ops := by
        rw [performed, hfault, happly]
        unfold World.after World.faults
        rw [List.length_singleton, List.drop_one, List.map_tail]
      have hget : ∀ k, (w.faults[k + 1]?).join = ((w.after [op] t).faults[k]?).join := by
        intro k
        unfold World.after World.faults
        rw [List.map_drop, List.getElem?_drop, List.length_singleton, Nat.add_comm]
      have hquiet : (w.after [op] t).Quiet := h.after
      rw [hdone, hforM _ heq, applyAll_cons, applyAll_cons, happly]
      rcases ih hquiet with ⟨hall, u, hu, hok⟩ | ⟨op', rest, u, v, hops, hu, hv, herror⟩
      · refine .inl ⟨congrArg (op :: ·) hall, u, hu, ?_⟩
        rw [hok, after_after]
        rfl
      · refine .inr ⟨op', rest, u, v, congrArg (op :: ·) hops, hu, ?_, ?_⟩
        · rw [List.length_cons, hget]
          exact hv
        · rw [herror, after_after]
          rfl
    · have hdone : performed w.faults w.tree (op :: ops) = [] := by
        rw [performed]
        unfold Op.left at hleft
        cases hfault : w.faults.head?.join with
        | some n => rfl
        | none =>
          rw [hfault] at hleft
          cases happly : op.apply w.tree with
          | none => rfl
          | some u =>
            rw [happly] at hleft
            cases hleft
      refine .inr ⟨op, ops, w.tree, t, by rw [hdone]; rfl, by rw [hdone]; rfl, ?_, ?_⟩
      · rw [hdone, List.length_nil, ← List.head?_eq_getElem?]
        exact hleft
      · rw [hdone]
        show (perform e op >>= fun _ => ops.forM (perform e)) w = _
        show EStateM.bind _ _ w = _
        unfold EStateM.bind
        rw [heq]
        unfold World.after
        rw [List.append_nil]
        rfl

/-! ### Files -/

/-- What the file at `p` holds. -/
def Tree.bytesAt (t : Tree α β) (p : List α) : Option (List β) :=
  match Dict.get t p with
  | some (.file _ content) => some content
  | _ => none

variable {p q : List α} {content : List β} {u : Tree α β}

theorem bytesAt_congr (h : Dict.get t p = Dict.get u q) : t.bytesAt p = u.bytesAt q := by
  unfold Tree.bytesAt
  rw [h]

theorem bytesAt_of_get {mode : ℕ} (h : Dict.get t p = some (.file mode content)) : t.bytesAt p = some content := by
  unfold Tree.bytesAt
  rw [h]

theorem get_of_bytesAt (h : t.bytesAt p = some content) : ∃ mode, Dict.get t p = some (.file mode content) := by
  unfold Tree.bytesAt at h
  split at h
  · next mode content' hget =>
    cases h
    exact ⟨mode, hget⟩
  · cases h

theorem write_apply (h : (Op.write p content).apply t = some u) :
    (∃ mode, Dict.get u p = some (.file mode content)) ∧ (∀ r, r ≠ p → Dict.get u r = Dict.get t r) ∧
      Dict.get t p ≠ some .dir := by
  rw [Op.apply] at h
  split at h
  · next hwritable =>
    cases h
    refine ⟨⟨t.modeAt p, Dict.get_put_self _ _ _⟩, fun r hr => Dict.get_put_of_ne _ _ hr, ?_⟩
    intro hdir
    unfold Tree.isWritable at hwritable
    rw [hdir] at hwritable
    simp [Node.isDir] at hwritable
  · cases h

theorem replace_apply (h : (Op.replace p q).apply t = some u) (hne : p ≠ q) :
    (∃ mode content, Dict.get t p = some (.file mode content) ∧ Dict.get u q = some (.file mode content)) ∧
      Dict.get u p = none ∧ (∀ r, r ≠ p → r ≠ q → Dict.get u r = Dict.get t r) ∧ Dict.get t q ≠ some .dir := by
  rw [Op.apply] at h
  split at h
  · next mode content hfile =>
    split at h
    · next hwritable =>
      cases h
      refine ⟨⟨mode, content, hfile, Dict.get_put_self _ _ _⟩, ?_, ?_, ?_⟩
      · rw [Dict.get_put_of_ne _ _ hne, Dict.get_erase, if_pos rfl]
      · intro r hrp hrq
        rw [Dict.get_put_of_ne _ _ hrq, Dict.get_erase, if_neg hrp]
      · intro hdir
        unfold Tree.isWritable at hwritable
        rw [hdir] at hwritable
        simp [Node.isDir] at hwritable
    · cases h
  · cases h

theorem chmod_apply {mode : ℕ} (h : (Op.chmod p mode).apply t = some u) :
    (∀ r, r ≠ p → Dict.get u r = Dict.get t r) ∧ u.bytesAt p = t.bytesAt p := by
  rw [Op.apply] at h
  split at h
  · next mode' content hfile =>
    cases h
    refine ⟨fun r hr => Dict.get_put_of_ne _ _ hr, ?_⟩
    rw [bytesAt_of_get (Dict.get_put_self _ _ _), bytesAt_of_get hfile]
  · cases h
    exact ⟨fun _ _ => rfl, rfl⟩
  · cases h

/-! ### What is left alone -/

theorem get_applyAll (h : t.applyAll ops = some u)
    (hops : ∀ o ∈ ops, ∀ v : Tree α β, o.Spares v p) : Dict.get u p = Dict.get t p := by
  induction ops generalizing t with
  | nil =>
    cases h
    rfl
  | cons o ops ih =>
    rw [applyAll_cons] at h
    obtain ⟨v, hv, hrest⟩ := Option.bind_eq_some_iff.mp h
    have hspares := hops o List.mem_cons_self t
    rw [ih hrest fun o' ho' => hops o' (List.mem_cons_of_mem o ho')]
    exact (get_apply hv hspares.1).resolve_right hspares.2

theorem get_left {fault : Option ℕ} (h : op.left fault t = some u) (hop : op.Spares t p) : Dict.get u p = Dict.get t p := by
  unfold Op.left at h
  split at h
  · cases h
    exact (get_torn _ hop.1).resolve_right hop.2
  · split_ifs at h
    cases h
    rfl

/-! ### Operations on files -/

/-- What is at `p`, but for its mode. -/
def Tree.held (t : Tree α β) (p : List α) : Option (Option (List β)) :=
  (Dict.get t p).map fun
    | .dir => none
    | .file _ content => some content

theorem held_congr (h : Dict.get t p = Dict.get u q) : t.held p = u.held q := by
  unfold Tree.held
  rw [h]

theorem held_of_bytesAt (h : t.bytesAt p = some content) : t.held p = some (some content) := by
  obtain ⟨mode, hget⟩ := get_of_bytesAt h
  unfold Tree.held
  rw [hget]
  rfl

theorem held_eq_none : t.held p = none ↔ Dict.get t p = none := Option.map_eq_none_iff

/-- The paths that an operation on files changes, and no others; `none` for the operations on directories. -/
def Op.touched : Op α β → Option (List (List α))
  | .create p _ | .write p _ | .chmod p _ | .unlink p | .discard p | .copyFile _ p => some [p]
  | .replace p q => some [p, q]
  | .mkdir _ | .mkdirs _ | .rename _ _ | .rmtree _ => none

theorem get_put_of_not_mem {paths : List (List α)} {n : Node β} {r : List α} (hp : p ∈ paths) (hr : r ∉ paths) :
    Dict.get (Dict.put t p n) r = Dict.get t r := by
  apply Dict.get_put_of_ne
  rintro rfl
  exact hr hp

theorem get_apply_touched {paths : List (List α)} (hop : op.touched = some paths) (h : op.apply t = some u)
    {r : List α} (hr : r ∉ paths) : Dict.get u r = Dict.get t r := by
  have herase : ∀ {p : List α}, p ∈ paths → Dict.get (Dict.erase t p) r = Dict.get t r := by
    intro p hp
    rw [Dict.get_erase, if_neg]
    rintro rfl
    exact hr hp
  cases op with
  | create p content =>
    cases hop
    rw [Op.apply] at h
    split at h
    · cases h
      exact get_put_of_not_mem List.mem_cons_self hr
    · cases h
  | write p content =>
    cases hop
    rw [Op.apply] at h
    split at h
    · cases h
      exact get_put_of_not_mem List.mem_cons_self hr
    · cases h
  | chmod p mode =>
    cases hop
    exact (chmod_apply h).1 r fun heq => hr (heq ▸ List.mem_cons_self)
  | copyFile p q =>
    cases hop
    rw [Op.apply] at h
    split at h
    · split at h
      · cases h
        exact get_put_of_not_mem List.mem_cons_self hr
      · cases h
    · cases h
  | unlink p =>
    cases hop
    rw [Op.apply] at h
    split at h
    · cases h
      exact herase List.mem_cons_self
    · cases h
  | discard p =>
    cases hop
    rw [Op.apply] at h
    split at h
    · cases h
      exact herase List.mem_cons_self
    · cases h
    · cases h
      rfl
  | replace p q =>
    cases hop
    rw [Op.apply] at h
    split at h
    · split at h
      · cases h
        rw [get_put_of_not_mem (List.mem_cons_of_mem p List.mem_cons_self) hr]
        exact herase List.mem_cons_self
      · cases h
    · cases h
  | mkdir p => cases hop
  | mkdirs p => cases hop
  | rename p q => cases hop
  | rmtree p => cases hop

theorem get_torn_touched {paths : List (List α)} (hop : op.touched = some paths) (n : ℕ) {r : List α}
    (hr : r ∉ paths) : Dict.get (op.torn n t) r = Dict.get t r := by
  have hwrite : ∀ {q content}, q ∈ paths → Dict.get (tornWrite n (Op.write q) content t) r = Dict.get t r := by
    intro q content hq
    cases n with
    | zero => rfl
    | succ n =>
      rw [tornWrite]
      cases happly : (Op.write q (content.take n)).apply t with
      | none => rfl
      | some u => exact get_apply_touched rfl happly fun hmem => hr (List.mem_singleton.mp hmem ▸ hq)
  cases op with
  | create p content =>
    cases hop
    cases n with
    | zero => rfl
    | succ n =>
      rw [Op.torn, tornWrite]
      cases happly : (Op.create p (content.take n)).apply t with
      | none => rfl
      | some u => exact get_apply_touched rfl happly hr
  | write p content =>
    cases hop
    exact hwrite List.mem_cons_self
  | copyFile p q =>
    cases hop
    rw [Op.torn]
    split
    · exact hwrite List.mem_cons_self
    · rfl
  | chmod p mode => rfl
  | unlink p => rfl
  | discard p => rfl
  | replace p q => rfl
  | mkdir p => cases hop
  | mkdirs p => cases hop
  | rename p q => cases hop
  | rmtree p => cases hop

theorem get_left_touched {paths : List (List α)} {fault : Option ℕ} (hop : op.touched = some paths)
    (h : op.left fault t = some u) {r : List α} (hr : r ∉ paths) : Dict.get u r = Dict.get t r := by
  unfold Op.left at h
  split at h
  · cases h
    exact get_torn_touched hop _ hr
  · split_ifs at h
    cases h
    rfl

theorem copyFile_apply (h : (Op.copyFile p q).apply t = some u) : ∃ content, t.bytesAt p = some content ∧
    u.bytesAt q = some content := by
  rw [Op.apply] at h
  split at h
  · next mode content hfile =>
    split at h
    · cases h
      exact ⟨content, bytesAt_of_get hfile, bytesAt_of_get (Dict.get_put_self _ _ _)⟩
    · cases h
  · cases h

theorem discard_apply (h : (Op.discard p).apply t = some u) : Dict.get u p = none := by
  rw [Op.apply] at h
  split at h
  · cases h
    rw [Dict.get_erase, if_pos rfl]
  · cases h
  · next hnone =>
    cases h
    exact hnone

/-! ### Rules -/

open Attempt (Triple)

theorem triple_perform_alone {e : ε} {P : World α β → Prop} {Q : Unit → World α β → Prop} {E : World α β → Prop}
    (hquiet : ∀ w, P w → w.Quiet) (hok : ∀ w t, P w → op.apply w.tree = some t → Q () (w.after [op] t))
    (herror : ∀ w t fault, P w → op.left fault w.tree = some t → E (w.failed op t)) : Triple P (perform e op) Q E := by
  intro w hw
  rcases perform_alone e op (hquiet w hw) with ⟨t, -, happly, heq⟩ | ⟨t, hleft, heq⟩
  · rw [heq]
    exact hok w t hw happly
  · rw [heq]
    exact herror w t _ hw hleft

theorem triple_observe_alone {e : ε} {P : World α β → Prop} {Q : Tree α β → World α β → Prop} {E : World α β → Prop}
    (hquiet : ∀ w, P w → w.Quiet) (hok : ∀ w, P w → Q w.tree { w with steps := w.steps.drop 1 })
    (herror : ∀ w, P w → E { w with steps := w.steps.drop 1 }) : Triple P (observe e) Q E := by
  intro w hw
  rcases observe_alone e (hquiet w hw) with ⟨n, -, heq⟩ | ⟨-, heq⟩
  · rw [heq]
    exact herror w hw
  · rw [heq]
    exact hok w hw

/-- `mkdir -p` makes nothing but directories. -/
theorem mkdirs_apply (h : (Op.mkdirs p).apply t = some u) (q : List α) :
    Dict.get u q = Dict.get t q ∨ (Dict.get t q = none ∧ Dict.get u q = some .dir) := by
  rw [Op.apply] at h
  generalize p.reverse = rev at h
  induction rev generalizing u with
  | nil =>
    cases h
    exact .inl rfl
  | cons a rev ih =>
    rw [Tree.mkdirsRev] at h
    split at h
    · cases h
      exact .inl rfl
    · cases h
    · next hnone =>
      obtain ⟨v, hv, rfl⟩ := Option.map_eq_some_iff.1 h
      by_cases hq : q = (a :: rev).reverse
      · subst hq
        exact .inr ⟨hnone, Dict.get_put_self _ _ _⟩
      · rw [Dict.get_put_of_ne v .dir hq]
        exact ih hv

/-! ### Renaming a directory -/

theorem get_moved (t : Tree α β) (p q r : List α) :
    Dict.get ((t.filter fun entry => p <+: entry.1).map fun entry => (q ++ entry.1.drop p.length, entry.2)) (q ++ r) =
      Dict.get t (p ++ r) := by
  induction t with
  | nil => rfl
  | cons entry t ih =>
    rw [Dict.get_cons]
    by_cases hpre : p <+: entry.1
    · obtain ⟨s, hs⟩ := hpre
      rw [List.filter_cons_of_pos (by simp [← hs]), List.map_cons, Dict.get_cons, ih, ← hs, List.drop_left]
      simp only [List.append_cancel_left_eq]
    · rw [List.filter_cons_of_neg (by simpa using hpre), ih, if_neg]
      intro heq
      exact hpre ⟨r, heq⟩

/-- What a renamed directory holds. -/
theorem rename_apply (h : (Op.rename p q).apply t = some u) (hrooted : Rooted q t) :
    (∀ r, Dict.get u (q ++ r) = Dict.get t (p ++ r)) ∧ (∀ r, p <+: r → ¬ q <+: r → Dict.get u r = none) ∧
      ¬ p <+: q := by
  rw [Op.apply] at h
  split at h
  · next hcond =>
    obtain ⟨-, hfree, hpq⟩ := hcond
    cases h
    have hnone : Dict.get t q = none := by
      unfold Tree.isFree at hfree
      rw [Bool.and_eq_true, Bool.and_eq_true] at hfree
      exact Option.isNone_iff_eq_none.1 hfree.1.2
    refine ⟨fun r => ?_, fun r hr hqr => ?_, hpq⟩
    · have hcut : Dict.get (t.cut p) (q ++ r) = none := by
        rw [get_cut, hrooted hnone _ (List.prefix_append _ _), ite_self]
      rw [Dict.get_append, hcut, Option.none_or, get_moved]
    · have hmoved : Dict.get ((t.filter fun entry => p <+: entry.1).map fun entry =>
          (q ++ entry.1.drop p.length, entry.2)) r = none := by
        apply Dict.get_eq_none
        rintro entry hentry rfl
        obtain ⟨e, -, rfl⟩ := List.mem_map.1 hentry
        exact hqr (List.prefix_append _ _)
      rw [Dict.get_append, hmoved, Option.or_none, get_cut, if_pos hr]
  · cases h

end Disk
