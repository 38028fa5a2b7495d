import Slurmy.Lib.StableSort

/-!
# Pages of a sorted table

The rows of a table, with those that have no key last, and cut into pages.

* `inOrder`: sorted by a key, or in the opposite order;
* `missingLast`: the same with the rows that have no key last, `missingLast_map` and `missingLast_congr`;
* `page`: the rows of a page, `flatMap_page`: all the pages.
-/

namespace Pages

open StableSort

variable {α β κ : Type*} [LinearOrder κ]

def inOrder (descending : Bool) (key : α → κ) (l : List α) : List α :=
  if descending then sortBy (fun a => OrderDual.toDual (key a)) l else sortBy key l

/-- The rows with a key come first. -/
def missingLast (descending : Bool) (missing : α → Bool) (key : α → κ) (l : List α) : List α :=
  inOrder descending key (l.filter fun a => !missing a) ++ l.filter missing

variable {descending : Bool} {missing : α → Bool} {key : α → κ} {l : List α}

theorem perm_inOrder (descending : Bool) (key : α → κ) (l : List α) : (inOrder descending key l).Perm l := by
  unfold inOrder
  split
  · exact perm_sortBy _ l
  · exact perm_sortBy _ l

theorem inOrder_map {key : β → κ} (f : α → β) (l : List α) :
    inOrder descending key (l.map f) = (inOrder descending (fun a => key (f a)) l).map f := by
  unfold inOrder
  split
  · exact sortBy_map _ f l
  · exact sortBy_map key f l

theorem sortBy_congr {key' : α → κ} (h : ∀ a ∈ l, key a = key' a) : sortBy key l = sortBy key' l := by
  have hzip : ∀ k : α → κ, sortBy k l = (sortBy (Prod.snd : α × κ → κ) (l.map fun a => (a, k a))).map Prod.fst := by
    intro k
    rw [sortBy_map, List.map_map]
    exact (List.map_id _).symm
  rw [hzip, hzip, List.map_congr_left fun a ha => congrArg (Prod.mk a) (h a ha)]

theorem inOrder_congr {key' : α → κ} (h : ∀ a ∈ l, key a = key' a) :
    inOrder descending key l = inOrder descending key' l := by
  unfold inOrder
  rw [sortBy_congr h, sortBy_congr fun a ha => congrArg OrderDual.toDual (h a ha)]

/-- A list in the order of different keys. -/
theorem inOrder_of_pairwise (hl : l.Pairwise fun a b => key a < key b) :
    inOrder descending key l = if descending then l.reverse else l := by
  have hinj : ∀ a ∈ l, ∀ b ∈ l, key a = key b → a = b := by
    have hnodup : (l.map key).Nodup := List.pairwise_map.mpr (hl.imp ne_of_lt)
    exact fun a ha b hb h => List.inj_on_of_nodup_map hnodup ha hb h
  unfold inOrder
  split
  · refine List.Perm.eq_of_pairwise (fun a b ha hb hab hba => ?_) (pairwise_sortBy _ l)
      (List.pairwise_reverse.mpr (hl.imp le_of_lt)) ((perm_sortBy _ l).trans (List.reverse_perm l).symm)
    exact hinj a ((perm_sortBy _ l).mem_iff.mp ha) b (List.mem_reverse.mp hb)
      (congrArg OrderDual.ofDual (le_antisymm hab hba))
  · refine List.Perm.eq_of_pairwise (fun a b ha hb hab hba => ?_) (pairwise_sortBy _ l) (hl.imp le_of_lt)
      (perm_sortBy _ l)
    exact hinj a ((perm_sortBy _ l).mem_iff.mp ha) b hb (le_antisymm hab hba)

theorem perm_missingLast (l : List α) : (missingLast descending missing key l).Perm l := by
  refine ((perm_inOrder descending key _).append_right _).trans ?_
  exact List.perm_append_comm.trans (List.filter_append_perm missing l)

theorem missingLast_map {missing : β → Bool} {key : β → κ} (f : α → β) (l : List α) :
    missingLast descending missing key (l.map f) =
      (missingLast descending (fun a => missing (f a)) (fun a => key (f a)) l).map f := by
  unfold missingLast
  rw [List.map_append, List.filter_map, List.filter_map, inOrder_map]
  rfl

/-- Only the keys of the rows count. -/
theorem missingLast_congr {missing' : α → Bool} {key' : α → κ} (hmissing : ∀ a ∈ l, missing a = missing' a)
    (hkey : ∀ a ∈ l, key a = key' a) :
    missingLast descending missing key l = missingLast descending missing' key' l := by
  have hpresent : (l.filter fun a => !missing a) = l.filter fun a => !missing' a :=
    List.filter_congr fun a ha => congrArg not (hmissing a ha)
  unfold missingLast
  rw [hpresent, List.filter_congr hmissing, inOrder_congr fun a ha => hkey a (List.mem_filter.mp ha).1]

theorem missingLast_of_present (h : ∀ a ∈ l, missing a = false) :
    missingLast descending missing key l = inOrder descending key l := by
  have hpresent : (l.filter fun a => !missing a) = l := List.filter_eq_self.mpr fun a ha => by rw [h a ha]; rfl
  have hrest : l.filter missing = [] := List.filter_eq_nil_iff.mpr fun a ha => by rw [h a ha]; exact Bool.false_ne_true
  unfold missingLast
  rw [hpresent, hrest, List.append_nil]

/-! ### Pages -/

def page (size : ℕ) (i : ℕ) (l : List α) : List α := (l.drop (i * size)).take size

theorem page_subset (size i : ℕ) (l : List α) : page size i l ⊆ l := fun _ ha =>
  List.mem_of_mem_drop (List.mem_of_mem_take ha)

theorem page_map (f : α → β) (size i : ℕ) (l : List α) : page size i (l.map f) = (page size i l).map f := by
  unfold page
  rw [List.map_take, List.map_drop]

theorem flatMap_page_take (size n : ℕ) (l : List α) :
    ((List.range n).flatMap fun i => page size i l) = l.take (n * size) := by
  induction n with
  | zero => simp
  | succ n ih =>
    rw [List.range_succ, List.flatMap_append, ih, Nat.succ_mul, List.take_add]
    simp [page]

/-- All the pages, one after the other. -/
theorem flatMap_page {size n : ℕ} (h : l.length ≤ n * size) :
    ((List.range n).flatMap fun i => page size i l) = l := by
  rw [flatMap_page_take, List.take_of_length_le h]

end Pages
