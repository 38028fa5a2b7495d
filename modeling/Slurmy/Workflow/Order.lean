import Slurmy.Workflow.Reproduce

/-!
# The order of the pairs

* `orderJobpairs_grouped`, `orderJobpairs_orderJobpairs`: pairs by solver, and ordering twice;
* `Reordered`: the rows in the order that was asked for, without loss;
* `orderJobpairs_reorders`: every order is one of the same rows.
-/

namespace Slurmy
namespace Workflow

open Plan (PairOrder)
open StableSort Column

variable {site : Site} {rows rows' : List Row} {order : PairOrder}

/-- Rows with keys, or another order. -/
def Orderable (rows : List Row) (order : PairOrder) : Prop :=
  order = .solverMajor → ∀ row ∈ rows, (Row.key row).isSome = true

instance (rows : List Row) (order : PairOrder) : Decidable (Orderable rows order) := by
  unfold Orderable
  infer_instance

/-- Texts always have keys. -/
theorem orderable_of_texts (h : ∀ row ∈ rows, ∀ c ∈ configurationColumns, ∃ t, Row.cell row c = .text t)
    (order : PairOrder) : Orderable rows order := by
  intro _ row hrow
  unfold Row.key
  have hall : ∀ columns : List Text, (∀ c ∈ columns, c ∈ configurationColumns) →
      (columns.mapM fun c => (Row.cell row c).key).isSome = true := by
    intro columns
    induction columns with
    | nil => exact fun _ => rfl
    | cons c columns ih =>
      intro hcolumns
      obtain ⟨t, ht⟩ := h row hrow c (hcolumns c List.mem_cons_self)
      obtain ⟨ks, hks⟩ := Option.isSome_iff_exists.1 (ih fun d hd => hcolumns d (List.mem_cons_of_mem c hd))
      rw [List.mapM_cons, hks, ht]
      rfl
  exact hall configurationColumns fun _ hc => hc

theorem exists_orderJobpairs (h : Orderable rows order) : ∃ rows', orderJobpairs site rows order = some rows' := by
  cases order with
  | problemMajor => exact ⟨_, rfl⟩
  | solverMajor => exact ⟨_, if_pos (h rfl)⟩
  | random => exact ⟨_, rfl⟩

/-- By solver: the rows of each configuration together, the configurations as they come first. -/
theorem orderJobpairs_grouped (h : orderJobpairs site rows .solverMajor = some rows') : rows' = grouped Row.key rows := by
  rw [orderJobpairs] at h
  split at h
  · rw [← Option.some.inj h, ← sortBy_position]
  · cases h

/-- Ordering twice is ordering once. -/
theorem orderJobpairs_orderJobpairs (horder : order ≠ .random) (h : orderJobpairs site rows order = some rows') :
    orderJobpairs site rows' order = some rows' := by
  cases order with
  | problemMajor =>
    obtain rfl := Option.some.inj h
    exact congrArg some (sortBy_sortBy _ rows)
  | solverMajor =>
    have hgrouped := orderJobpairs_grouped h
    have hkeys : ∀ row ∈ rows', (Row.key row).isSome = true := by
      intro row hrow
      rw [orderJobpairs] at h
      split at h
      · next hall => exact hall row ((perm_sortBy _ rows).mem_iff.1 (Option.some.inj h ▸ hrow))
      · cases h
    rw [orderJobpairs, if_pos hkeys, sortBy_position, hgrouped, grouped_grouped]
  | random => exact absurd rfl horder

/-- The same rows, in the order: by problem, in their order within a problem; or by solver, the rows of each
configuration together in their order, the configurations as they come first. -/
structure Reordered (site : Site) (order : PairOrder) (rows rows' : List Row) : Prop where
  perm : rows'.Perm rows
  sorted : order = .problemMajor → rows'.Pairwise fun a b => Row.written a problem ≤ Row.written b problem
  stable : order = .problemMajor →
    ∀ p, rows'.filter (fun row => Row.written row problem = p) = rows.filter fun row => Row.written row problem = p
  grouped : order = .solverMajor →
    rows' = (firsts (rows.map Row.key)).flatMap fun k => rows.filter fun row => Row.key row = k
  again : order ≠ .random → orderJobpairs site rows' order = some rows'

/-- Ordering loses nothing. -/
theorem orderJobpairs_reorders (h : Orderable rows order) :
    ∃ rows', orderJobpairs site rows order = some rows' ∧ Reordered site order rows rows' := by
  obtain ⟨rows', hrows⟩ : ∃ rows', orderJobpairs site rows order = some rows' := exists_orderJobpairs h
  refine ⟨rows', hrows, perm_orderJobpairs hrows, ?_, ?_, ?_, fun hrandom => orderJobpairs_orderJobpairs hrandom hrows⟩
  · rintro rfl
    rw [← Option.some.inj hrows]
    exact pairwise_sortBy _ rows
  · rintro rfl p
    rw [← Option.some.inj hrows]
    convert filter_sortBy (fun row => Row.written row problem) rows p
  · rintro rfl
    exact orderJobpairs_grouped hrows

/-- Two configurations in turns. -/
def interleaved : List Row :=
  [[(command, .text ['a']), (problem, .text ['q'])], [(command, .text ['b']), (problem, .text ['q'])],
    [(command, .text ['a']), (problem, .text ['p'])]]

theorem orderJobpairs_reorders_interleaved : Orderable interleaved .solverMajor ∧
    ∃ rows', orderJobpairs (sampleSite []) interleaved .solverMajor = some rows' ∧
      Reordered (sampleSite []) .solverMajor interleaved rows' :=
  have h : Orderable interleaved .solverMajor := by decide +kernel
  ⟨h, orderJobpairs_reorders h⟩

end Workflow
end Slurmy
