import Mathlib.Data.Finset.Sort
import Mathlib.Data.Prod.Lex
import Mathlib.Data.Rat.Defs
import Mathlib.Algebra.Order.Field.Rat
import Mathlib.Data.Sum.Order
import Slurmy.Lib.Pages
import Slurmy.Monitor.TaskRows

/-!
# The pages of the task page

`task_page` of `app.py` sorts task numbers and makes the rows of one page only, where it can.

* `sortedCallRows`, `allRows`: every row, sorted;
* `taskPage`: the page;
* `sortCell_eq`: the key of a task number is that of its row;
* `taskPage_eq_page`: a page is a part of all the rows, and the pages together are all of them.
-/

namespace Slurmy
namespace TaskPages

open Pages

/-! ### Sorting -/

/-- `CALL_SORT_FIELDS`. -/
inductive SortField
  | id
  | solver
  | problem
  | state
  | willRun
  | node
  | reason
  | cpu
  | wall
  | memory
  deriving DecidableEq

/-- What a row shows in a column. -/
inductive Cell
  | none
  | text (t : Text)
  | number (q : ℚ)
  deriving DecidableEq

def Cell.ofOption : Option ℚ → Cell
  | .none => .none
  | some q => .number q

def Row.cell (row : Row) : SortField → Cell
  | .id => .number row.id
  | .solver => .text row.solver
  | .problem => .text row.problem
  | .state => .text row.state
  | .willRun => .text row.willRun
  | .node => .text row.node
  | .reason => .text row.reason
  | .cpu => .ofOption row.cpu
  | .wall => .ofOption row.wall
  | .memory => .ofOption row.memory

def Cell.isMissing : Cell → Bool
  | .none => true
  | .text t => t.isEmpty
  | .number _ => false

/-- Texts are compared without case. -/
abbrev Key := WithBot (Text ⊕ₗ ℚ) ×ₗ ℕ

def Cell.key (casefold : Text → Text) : Cell → WithBot (Text ⊕ₗ ℚ)
  | .none => ⊥
  | .text t => (Sum.inlₗ (casefold t) : Text ⊕ₗ ℚ)
  | .number q => (Sum.inrₗ q : Text ⊕ₗ ℚ)

/-- `str.casefold`, and the text of all the columns of a row, in lower case. -/
structure Display where
  casefold : Text → Text
  text : Row → Text

variable (display : Display)

def Row.key (field : SortField) (row : Row) : Key := toLex ((row.cell field).key display.casefold, row.id)

/-- `sorted_call_rows`. -/
def sortedCallRows (rows : List Row) (field : SortField) (descending : Bool) : List Row :=
  missingLast descending (fun row => (row.cell field).isMissing) (Row.key display field) rows

/-! ### Pages -/

/-- The task numbers: those that are asked for, or all of them. -/
def viewIds (job : JobSnapshot) (taskIds : Option (Finset ℕ)) : List ℕ :=
  (taskIds.getD ((job.tasks.map Prod.fst).toFinset ∪ (job.results.map Prod.fst).toFinset)).sort (· ≤ ·)

/-- The outcome is one of those that are asked for, if any are. -/
def selects (job : JobSnapshot) (outcomes : Finset (Text × Text)) (id : ℕ) : Bool :=
  outcomes = ∅ ∨ callOutcome display.casefold (Dict.get job.results id) ∈ outcomes

def finds (query : Text) (row : Row) : Bool := query = [] ∨ query <:+: display.text row

/-- `value`, the column of a task number; it fails where the row cannot be made. -/
def sortCell (now : ℚ) (job : JobSnapshot) (field : SortField) (id : ℕ) : Option Cell :=
  let definition := Dict.get job.tasks id
  let result := Dict.get job.results id
  match field with
  | .solver => some (.text (definition.elim [] TaskDefinition.solver))
  | .problem => some (.text (definition.elim [] TaskDefinition.problem))
  | .cpu => some (.ofOption (result.bind ResultRecord.cpuSeconds))
  | .memory => some (.ofOption ((result.bind ResultRecord.maxMemoryKib).map (· * 1024)))
  | _ =>
      match result with
      | some result => some (.ofOption result.wallSeconds)
      | none =>
          let progress := (Dict.get job.callProgress id).or (Dict.get job.progress (id / job.batchSize))
          if isRunning (progress.filter fun p => p.taskId = some id) then
            (taskRow now job id).map fun row => .ofOption row.wall
          else some .none

/-- The task numbers of the page in the order of their keys. -/
def orderedIds (now : ℚ) (job : JobSnapshot) (ids : List ℕ) (field : SortField) (descending : Bool) :
    Option (List ℕ) :=
  if field = .id then some (if descending then ids.reverse else ids)
  else do
    let keys ← ids.mapM fun id => (sortCell now job field id).map fun cell => (id, cell)
    return (missingLast descending (fun entry => entry.2.isMissing)
      (fun entry => (toLex (entry.2.key display.casefold, entry.1) : Key)) keys).map Prod.fst

/-- `task_page`: the rows of the page, and the number of the rows of all pages. -/
def taskPage (now : ℚ) (job : JobSnapshot) (number perPage : ℕ) (field : SortField) (descending : Bool) (query : Text)
    (outcomes : Finset (Text × Text)) (taskIds : Option (Finset ℕ)) : Option (List Row × ℕ) :=
  let ids := (viewIds job taskIds).filter (selects display job outcomes)
  if query ≠ [] ∨ field ∈ [.state, .willRun, .node, .reason] then do
    let rows ← ids.mapM (taskRow now job)
    let rows := rows.filter (finds display query)
    return (page perPage number (sortedCallRows display rows field descending), rows.length)
  else do
    let ordered ← orderedIds display now job ids field descending
    let rows ← (page perPage number ordered).mapM (taskRow now job)
    return (rows, ids.length)

/-! ### All the rows -/

/-- Every row. -/
def allRows (now : ℚ) (job : JobSnapshot) (taskIds : Option (Finset ℕ)) : Option (List Row) :=
  (viewIds job taskIds).mapM (taskRow now job)

/-- The rows that the filters select. -/
def matching (job : JobSnapshot) (query : Text) (outcomes : Finset (Text × Text)) (rows : List Row) : List Row :=
  rows.filter fun row => selects display job outcomes row.id && finds display query row

/-! ### Rows and their keys -/

variable {display} {now : ℚ} {job : JobSnapshot} {field : SortField} {descending : Bool} {query : Text}
  {outcomes : Finset (Text × Text)} {taskIds : Option (Finset ℕ)} {ids : List ℕ} {rows : List Row} {id : ℕ} {row : Row}

/-- A row is made of these. -/
theorem taskRow_eq_some (h : taskRow now job id = some row) :
    row.id = id ∧ row.solver = (Dict.get job.tasks id).elim [] TaskDefinition.solver ∧
      row.problem = (Dict.get job.tasks id).elim [] TaskDefinition.problem ∧
      row.cpu = (Dict.get job.results id).bind ResultRecord.cpuSeconds ∧
      row.memory = ((Dict.get job.results id).bind ResultRecord.maxMemoryKib).map (· * 1024) ∧
      (callState now job id).map Prod.snd = some row.wall := by
  unfold taskRow at h
  obtain ⟨⟨explanation, wall⟩, hstate, hrow⟩ := Option.bind_eq_some_iff.mp h
  cases hrow
  rw [hstate]
  exact ⟨rfl, rfl, rfl, rfl, rfl, rfl⟩

theorem id_taskRow (h : taskRow now job id = some row) : row.id = id := (taskRow_eq_some h).1

/-- A call without a result has a time only while it runs. -/
theorem wall_eq_none (hresult : Dict.get job.results id = none) (hrunning : isRunning (progressOf job id) = false)
    (h : taskRow now job id = some row) : row.wall = none := by
  have hwall := (taskRow_eq_some h).2.2.2.2.2
  unfold callState at hwall
  rw [hresult] at hwall
  cases hexplanation : unfinishedCall now job id (progressOf job id) with
  | none =>
    simp only [hexplanation] at hwall
    cases hwall
  | some explanation =>
    simp only [hexplanation, hrunning] at hwall
    exact (Option.some.inj hwall).symm

theorem wall_of_result {result : ResultRecord} (hresult : Dict.get job.results id = some result)
    (h : taskRow now job id = some row) : row.wall = result.wallSeconds := by
  have hwall := (taskRow_eq_some h).2.2.2.2.2
  unfold callState at hwall
  rw [hresult] at hwall
  exact (Option.some.inj hwall).symm

/-- The progress that the sorting looks at is that of the row, if it is of the same task. -/
theorem filter_progress :
    ((Dict.get job.callProgress id).or (Dict.get job.progress (id / job.batchSize))).filter
      (fun p => p.taskId = some id) = progressOf job id := by
  unfold progressOf
  cases hcall : Dict.get job.callProgress id with
  | none => rw [Option.none_or, Option.none_or]
  | some p =>
    rw [Option.some_or, Option.some_or, Option.filter_some, if_pos]
    exact decide_eq_true (job.taskId_callProgress id p hcall)

/-- The fields that need no row. -/
def SortField.isLight : SortField → Bool
  | .solver | .problem | .cpu | .wall | .memory => true
  | _ => false

/-- The key of a task number is that of its row. -/
theorem sortCell_eq (hfield : field.isLight = true) (h : taskRow now job id = some row) :
    sortCell now job field id = some (row.cell field) := by
  obtain ⟨-, hsolver, hproblem, hcpu, hmemory, -⟩ := taskRow_eq_some h
  cases field with
  | solver => exact congrArg (some ∘ Cell.text) hsolver.symm
  | problem => exact congrArg (some ∘ Cell.text) hproblem.symm
  | cpu => exact congrArg (some ∘ Cell.ofOption) hcpu.symm
  | memory => exact congrArg (some ∘ Cell.ofOption) hmemory.symm
  | wall =>
    show sortCell now job .wall id = some (.ofOption row.wall)
    unfold sortCell
    dsimp only
    cases hresult : Dict.get job.results id with
    | some result => exact congrArg (some ∘ Cell.ofOption) (wall_of_result hresult h).symm
    | none =>
      dsimp only
      rw [filter_progress]
      cases hrunning : isRunning (progressOf job id) with
      | true =>
        rw [if_pos rfl, h]
        rfl
      | false =>
        rw [if_neg Bool.false_ne_true, wall_eq_none hresult hrunning h]
        rfl
  | id => cases hfield
  | state => cases hfield
  | willRun => cases hfield
  | node => cases hfield
  | reason => cases hfield

/-! ### The pages of all the rows -/

theorem mapM_eq_some {α β : Type} {f : α → Option β} {g : α → β} {l : List α} (h : ∀ a ∈ l, f a = some (g a)) :
    l.mapM f = some (l.map g) := by
  induction l with
  | nil => rfl
  | cons a l ih =>
    rw [List.mapM_cons, h a List.mem_cons_self, ih fun b hb => h b (List.mem_cons_of_mem a hb)]
    rfl

theorem exists_of_mapM {α β : Type} [Inhabited β] {f : α → Option β} {l : List α} {l' : List β}
    (h : l.mapM f = some l') : ∃ g : α → β, (∀ a ∈ l, f a = some (g a)) ∧ l' = l.map g := by
  have hall : ∀ a ∈ l, f a = some ((f a).getD default) := by
    induction l generalizing l' with
    | nil => exact nofun
    | cons a l ih =>
      rw [List.mapM_cons] at h
      obtain ⟨b, hb, hrest⟩ := Option.bind_eq_some_iff.mp h
      obtain ⟨bs, hbs, -⟩ := Option.bind_eq_some_iff.mp hrest
      intro a' ha'
      rcases List.mem_cons.mp ha' with rfl | ha'
      · rw [hb]
        rfl
      · exact ih hbs a' ha'
  refine ⟨fun a => (f a).getD default, hall, ?_⟩
  rw [mapM_eq_some hall] at h
  exact (Option.some.inj h).symm

theorem pairwise_viewIds (job : JobSnapshot) (taskIds : Option (Finset ℕ)) :
    (viewIds job taskIds).Pairwise fun a b => a < b := (Finset.sortedLT_sort _).pairwise

/-- By their numbers, task numbers come as they are or backwards. -/
theorem orderedIds_id {g : ℕ → Row} (hg : ∀ a ∈ ids, (g a).id = a) (hids : ids.Pairwise fun a b => a < b) :
    (if descending then ids.reverse else ids).map g = sortedCallRows display (ids.map g) .id descending := by
  have hpairwise : (ids.map g).Pairwise fun a b => Row.key display .id a < Row.key display .id b := by
    rw [List.pairwise_map]
    refine hids.imp_of_mem fun {a b} ha hb hab => ?_
    unfold Row.key
    rw [Prod.Lex.toLex_lt_toLex]
    left
    show ((Sum.inrₗ ((g a).id : ℚ) : Text ⊕ₗ ℚ) : WithBot (Text ⊕ₗ ℚ)) < (Sum.inrₗ ((g b).id : ℚ) : Text ⊕ₗ ℚ)
    rw [WithBot.coe_lt_coe, Sum.Lex.inr_lt_inr_iff, hg a ha, hg b hb]
    exact Nat.cast_lt.mpr hab
  have hpresent : ∀ row ∈ ids.map g, (row.cell .id).isMissing = false := fun _ _ => rfl
  unfold sortedCallRows
  rw [missingLast_of_present hpresent, inOrder_of_pairwise hpairwise]
  split
  · rw [List.map_reverse]
  · rfl

/-- By another column that needs no row, task numbers are sorted as their rows are. -/
theorem orderedIds_light (hfield : field.isLight = true) {g : ℕ → Row}
    (hg : ∀ a ∈ ids, taskRow now job a = some (g a)) :
    orderedIds display now job ids field descending =
      some (missingLast descending (fun a => ((g a).cell field).isMissing) (fun a => Row.key display field (g a)) ids) := by
  have hid : field ≠ .id := by
    rintro rfl
    cases hfield
  have hkeys : (ids.mapM fun id => (sortCell now job field id).map fun cell => (id, cell)) =
      some (ids.map fun id => (id, (g id).cell field)) := by
    refine mapM_eq_some fun a ha => ?_
    rw [sortCell_eq hfield (hg a ha)]
    rfl
  unfold orderedIds
  rw [if_neg hid, hkeys]
  show some (List.map Prod.fst (missingLast _ _ _ (ids.map _))) = _
  rw [missingLast_map, List.map_map]
  refine congrArg some ((List.map_id _).trans (missingLast_congr (fun _ _ => rfl) fun a ha => ?_))
  show _ = toLex (((g a).cell field).key display.casefold, (g a).id)
  rw [id_taskRow (hg a ha)]

/-- The task numbers in the order of the rows. -/
theorem exists_orderedIds (display : Display) (hfield : field ∉ [.state, .willRun, .node, .reason]) {g : ℕ → Row}
    (hg : ∀ a ∈ ids, taskRow now job a = some (g a)) (hids : ids.Pairwise fun a b => a < b) :
    ∃ ordered, orderedIds display now job ids field descending = some ordered ∧ ordered ⊆ ids ∧
      ordered.map g = sortedCallRows display (ids.map g) field descending := by
  by_cases hid : field = .id
  · subst hid
    refine ⟨_, if_pos rfl, fun a ha => ?_, orderedIds_id (fun a ha => id_taskRow (hg a ha)) hids⟩
    split at ha
    · exact List.mem_reverse.mp ha
    · exact ha
  · have hlight : field.isLight = true := by
      revert hid hfield
      cases field <;> decide
    refine ⟨_, orderedIds_light hlight hg, (perm_missingLast ids).subset, ?_⟩
    unfold sortedCallRows
    rw [missingLast_map]

/-- A page is a part of all the rows. -/
theorem taskPage_eq (hrows : allRows now job taskIds = some rows) (number perPage : ℕ) :
    taskPage display now job number perPage field descending query outcomes taskIds =
      some (page perPage number (sortedCallRows display (matching display job query outcomes rows) field descending),
        (matching display job query outcomes rows).length) := by
  obtain ⟨g, hg, rfl⟩ := exists_of_mapM hrows
  have hid : ∀ a ∈ viewIds job taskIds, (g a).id = a := fun a ha => id_taskRow (hg a ha)
  set ids := (viewIds job taskIds).filter (selects display job outcomes) with hids
  have hg' : ∀ a ∈ ids, taskRow now job a = some (g a) := fun a ha => hg a (List.mem_filter.mp ha).1
  have hmatching : matching display job query outcomes ((viewIds job taskIds).map g) =
      (ids.map g).filter (finds display query) := by
    unfold matching
    rw [List.filter_map, List.filter_map, hids, List.filter_filter]
    congr 1
    refine List.filter_congr fun a ha => ?_
    show (selects display job outcomes (g a).id && finds display query (g a)) = _
    rw [hid a ha, Bool.and_comm]
    rfl
  unfold taskPage
  rw [← hids, hmatching]
  dsimp only
  split
  · rw [mapM_eq_some hg']
    rfl
  · next hlight =>
    rw [not_or, not_not] at hlight
    have hall : (ids.map g).filter (finds display query) = ids.map g := by
      refine List.filter_eq_self.mpr fun row _ => ?_
      unfold finds
      rw [hlight.1]
      rfl
    obtain ⟨ordered, hordered, hsub, hsorted⟩ := exists_orderedIds display hlight.2 hg'
      ((pairwise_viewIds job taskIds).filter _)
    rw [hordered, hall]
    show ((page perPage number ordered).mapM (taskRow now job)).bind _ = _
    rw [mapM_eq_some fun a ha => hg' a (hsub (page_subset _ _ _ ha)), ← page_map, hsorted, List.length_map]
    rfl

theorem nodup_id_matching (hrows : allRows now job taskIds = some rows) :
    ((matching display job query outcomes rows).map Row.id).Nodup := by
  obtain ⟨g, hg, rfl⟩ := exists_of_mapM hrows
  have hmap : ((viewIds job taskIds).map g).map Row.id = viewIds job taskIds := by
    rw [List.map_map]
    exact (List.map_congr_left fun a ha => id_taskRow (hg a ha)).trans (List.map_id _)
  have hnodup : (((viewIds job taskIds).map g).map Row.id).Nodup := by
    rw [hmap]
    exact (pairwise_viewIds job taskIds).imp ne_of_lt
  exact hnodup.sublist (List.filter_sublist.map _)

/-- The rows of a page are those of all the rows, filtered and sorted, and all the pages together have every
matching task once. -/
theorem taskPage_eq_page (display : Display) (now : ℚ) (job : JobSnapshot) (perPage : ℕ) (field : SortField)
    (descending : Bool) (query : Text) (outcomes : Finset (Text × Text)) (taskIds : Option (Finset ℕ))
    (rows : List Row) (hrows : allRows now job taskIds = some rows) :
    (∀ number, taskPage display now job number perPage field descending query outcomes taskIds =
      some (page perPage number (sortedCallRows display (matching display job query outcomes rows) field descending),
        (matching display job query outcomes rows).length)) ∧
    ∀ n, (matching display job query outcomes rows).length ≤ n * perPage →
      ∃ pages : ℕ → List Row,
        (∀ number, (taskPage display now job number perPage field descending query outcomes taskIds).map Prod.fst =
          some (pages number)) ∧
        ((List.range n).flatMap pages).Perm (matching display job query outcomes rows) ∧
        (((List.range n).flatMap pages).map Row.id).Nodup := by
  have hperm : (sortedCallRows display (matching display job query outcomes rows) field descending).Perm
      (matching display job query outcomes rows) := perm_missingLast _
  refine ⟨fun number => taskPage_eq hrows number perPage, fun n hn => ?_⟩
  refine ⟨fun number => page perPage number
    (sortedCallRows display (matching display job query outcomes rows) field descending), fun number => ?_, ?_⟩
  · rw [taskPage_eq hrows]
    rfl
  · rw [flatMap_page (hperm.length_eq.trans_le hn)]
    exact ⟨hperm, (hperm.map Row.id).nodup_iff.mpr (nodup_id_matching hrows)⟩

/-- A job with one call that runs. -/
def sampleJob : JobSnapshot where
  createdEpoch := 0
  metadataBatchSize := 1
  results := []
  tasks := [(0, ⟨['s'], ['p'], [], [], []⟩)]
  progress := []
  callProgress := [(0, ⟨0, "running".toList, some 0, some 5⟩)]
  taskId_callProgress id p h := by
    rw [Dict.get_cons] at h
    split at h
    · next hid =>
      cases h
      exact congrArg some hid.symm
    · cases h
  taskBatches := []
  submissionOffsets := []
  submittedBatches := [0]
  submissionState := []
  controllerState := []
  slurm := [⟨[], [], ['0'], "RUNNING".toList, [], "queue".toList⟩]
  logs := []

theorem taskPage_eq_page_running : ∃ rows, allRows 7 sampleJob (some {0}) = some rows ∧
    taskPage ⟨fun t => t, Row.state⟩ 7 sampleJob 0 10 .wall true [] ∅ (some {0}) =
      some (page 10 0 (sortedCallRows ⟨fun t => t, Row.state⟩
          (matching ⟨fun t => t, Row.state⟩ sampleJob [] ∅ rows) .wall true),
        (matching ⟨fun t => t, Row.state⟩ sampleJob [] ∅ rows).length) := by
  have hrow : (taskRow 7 sampleJob 0).isSome = true := by decide +kernel
  obtain ⟨row, hrow⟩ := Option.isSome_iff_exists.mp hrow
  have hrows : allRows 7 sampleJob (some {0}) = some [row] := by
    unfold allRows viewIds
    rw [Option.getD_some, Finset.sort_singleton, List.mapM_cons, hrow]
    rfl
  exact ⟨_, hrows, (taskPage_eq_page _ _ _ _ _ _ _ _ _ _ hrows).1 0⟩

end TaskPages
end Slurmy
