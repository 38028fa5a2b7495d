import Mathlib.Data.List.Sort
import Mathlib.Data.List.Lex

/-!
# Stable sorting

Sorting by a key leaves elements of equal keys in their order.

* `sortBy`: the sorted list, `sortBy_map`, `filter_sortBy`;
* `eq_of_filter`: a list that is sorted by a key is known from its parts of equal keys;
* `sortBy_flatMap`: blocks of one key each stay together; `sortBy_sortBy`: sorting again changes nothing;
* `firsts`, `position`: distinct elements in the order in which they come first;
* `position_injective`, `position_map`, `firsts_flatMap`: repetitions next to each other change nothing;
* `grouped`: the elements of one key after those of another, `sortBy_position`, `grouped_grouped`;
* `map_sortBy_position_iff`: when grouping by a finer key makes no difference.
-/

namespace StableSort

variable {α β κ : Type*}

section Sorting

variable [LinearOrder κ]

def sortBy (key : α → κ) (l : List α) : List α := l.insertionSort fun a b => key a ≤ key b

variable {key : α → κ} {l l' : List α}

instance total_key : Std.Total fun a b => key a ≤ key b := ⟨fun a b => le_total (key a) (key b)⟩

instance isTrans_key : IsTrans α fun a b => key a ≤ key b := ⟨fun _ _ _ => le_trans⟩

theorem perm_sortBy (key : α → κ) (l : List α) : (sortBy key l).Perm l := List.perm_insertionSort _ l

theorem pairwise_sortBy (key : α → κ) (l : List α) :
    (sortBy key l).Pairwise fun a b => key a ≤ key b := List.pairwise_insertionSort _ l

@[simp] theorem mem_sortBy {a : α} : a ∈ sortBy key l ↔ a ∈ l := (perm_sortBy key l).mem_iff

theorem sortBy_map (key : β → κ) (f : α → β) (l : List α) :
    sortBy key (l.map f) = (sortBy (fun a => key (f a)) l).map f :=
  (List.map_insertionSort _ _ f l fun _ _ _ _ => Iff.rfl).symm

/-- Sorting a sorted list changes nothing. -/
theorem sortBy_of_pairwise (h : l.Pairwise fun a b => key a ≤ key b) : sortBy key l = l := h.insertionSort_eq

theorem sortBy_sortBy (key : α → κ) (l : List α) : sortBy key (sortBy key l) = sortBy key l :=
  sortBy_of_pairwise (pairwise_sortBy key l)

/-- Elements of one key stay in their order. -/
theorem filter_sortBy (key : α → κ) (l : List α) (k : κ) :
    (sortBy key l).filter (fun a => key a = k) = l.filter fun a => key a = k := by
  have hsorted : (l.filter fun a => key a = k).Pairwise fun a b => key a ≤ key b := by
    apply List.pairwise_of_forall_mem_list
    intro a ha b hb
    have hka : key a = k := of_decide_eq_true (List.mem_filter.1 ha).2
    have hkb : key b = k := of_decide_eq_true (List.mem_filter.1 hb).2
    rw [hka, hkb]
  have hsub := (List.sublist_insertionSort (r := fun a b => key a ≤ key b) hsorted List.filter_sublist).filter
    fun a => decide (key a = k)
  simp only [List.filter_filter, Bool.and_self] at hsub
  exact (hsub.eq_of_length ((perm_sortBy key l).filter _).length_eq.symm).symm

theorem filter_cons_self (a : α) (l : List α) :
    (a :: l).filter (fun b => key b = key a) = a :: l.filter fun b => key b = key a := by
  simp

theorem eq_nil_of_filter (h : ∀ k, l.filter (fun a => key a = k) = []) : l = [] := by
  cases l with
  | nil => rfl
  | cons a l =>
    have ha := h (key a)
    rw [filter_cons_self] at ha
    cases ha

/-- Sorted lists with the same elements of every key are equal. -/
theorem eq_of_filter (hl : l.Pairwise fun a b => key a ≤ key b)
    (hl' : l'.Pairwise fun a b => key a ≤ key b)
    (h : ∀ k, l.filter (fun a => key a = k) = l'.filter fun a => key a = k) : l = l' := by
  induction l generalizing l' with
  | nil => exact (eq_nil_of_filter fun k => (h k).symm).symm
  | cons a l ih =>
    cases l' with
    | nil => exact eq_nil_of_filter h
    | cons b l' =>
      rw [List.pairwise_cons] at hl hl'
      -- the first keys are least, hence the same
      have hle : ∀ {c d : α} {m m' : List α}, (∀ e ∈ m', key d ≤ key e) →
          (c :: m).filter (fun e => key e = key c) = (d :: m').filter (fun e => key e = key c) →
          key d ≤ key c := by
        intro c d m m' hd hcd
        rw [filter_cons_self] at hcd
        have hmem : c ∈ (d :: m').filter fun e => key e = key c := hcd ▸ List.mem_cons_self
        rcases List.mem_cons.1 (List.mem_filter.1 hmem).1 with rfl | hc
        · exact le_rfl
        · exact hd c hc
      have hkey : key a = key b := le_antisymm (hle hl.1 (h (key b)).symm) (hle hl'.1 (h (key a)))
      have hhead := h (key a)
      rw [filter_cons_self, hkey, filter_cons_self] at hhead
      obtain ⟨rfl, -⟩ := List.cons.inj hhead
      congr 1
      refine ih hl.2 hl'.2 fun k => ?_
      have hk := h k
      by_cases hak : key a = k
      · subst hak
        rw [filter_cons_self, filter_cons_self] at hk
        exact (List.cons.inj hk).2
      · rwa [List.filter_cons_of_neg (by simpa using hak),
          List.filter_cons_of_neg (by simpa using hak)] at hk

variable {key' : β → κ} {f : α → List β}

theorem filter_flatMap_of_key (hf : ∀ a ∈ l, ∀ b ∈ f a, key' b = key a) (k : κ) :
    (l.flatMap f).filter (fun b => key' b = k) = (l.filter fun a => key a = k).flatMap f := by
  induction l with
  | nil => rfl
  | cons a l ih =>
    rw [List.flatMap_cons, List.filter_append, ih fun b hb => hf b (List.mem_cons_of_mem a hb)]
    by_cases ha : key a = k
    · have hself : (f a).filter (fun b => key' b = k) = f a :=
        List.filter_eq_self.2 fun b hb => decide_eq_true ((hf a List.mem_cons_self b hb).trans ha)
      subst ha
      rw [hself, filter_cons_self, List.flatMap_cons]
    · have hnone : (f a).filter (fun b => key' b = k) = [] := by
        rw [List.filter_eq_nil_iff]
        intro b hb hk
        exact ha ((hf a List.mem_cons_self b hb).symm.trans (of_decide_eq_true hk))
      rw [hnone, List.filter_cons_of_neg (by simpa using ha), List.nil_append]

/-- Blocks of one key each stay together. -/
theorem sortBy_flatMap (hf : ∀ a ∈ l, ∀ b ∈ f a, key' b = key a) :
    sortBy key' (l.flatMap f) = (sortBy key l).flatMap f := by
  have hf' : ∀ a ∈ sortBy key l, ∀ b ∈ f a, key' b = key a := fun a ha => hf a (mem_sortBy.1 ha)
  apply eq_of_filter (pairwise_sortBy key' _)
  · rw [List.pairwise_flatMap]
    constructor
    · intro a ha
      apply List.pairwise_of_forall_mem_list
      intro b hb c hc
      rw [hf' a ha b hb, hf' a ha c hc]
    · refine (pairwise_sortBy key l).imp_of_mem ?_
      intro a b ha hb hab c hc d hd
      rwa [hf' a ha c hc, hf' b hb d hd]
  · intro k
    rw [filter_sortBy, filter_flatMap_of_key hf, filter_flatMap_of_key hf', filter_sortBy]

end Sorting

/-! ### First occurrences -/

section Firsts

variable [DecidableEq κ]

/-- One more element. -/
def note (seen : List κ) (k : κ) : List κ := if k ∈ seen then seen else seen ++ [k]

/-- The distinct elements in the order in which they come first. -/
def firsts (keys : List κ) : List κ := keys.foldl note []

def position (keys : List κ) (k : κ) : ℕ := (firsts keys).idxOf k

variable {keys seen : List κ} {k k' : κ}

theorem mem_foldl_note : k ∈ keys.foldl note seen ↔ k ∈ seen ∨ k ∈ keys := by
  induction keys generalizing seen with
  | nil => simp
  | cons a keys ih =>
    rw [List.foldl_cons, ih, List.mem_cons, note]
    split
    · next ha =>
      constructor
      · rintro (h | h)
        · exact .inl h
        · exact .inr (.inr h)
      · rintro (h | rfl | h)
        · exact .inl h
        · exact .inl ha
        · exact .inr h
    · rw [List.mem_append, List.mem_singleton, or_assoc]

@[simp] theorem mem_firsts : k ∈ firsts keys ↔ k ∈ keys := by
  rw [firsts, mem_foldl_note]
  simp

theorem nodup_foldl_note (h : seen.Nodup) : (keys.foldl note seen).Nodup := by
  induction keys generalizing seen with
  | nil => exact h
  | cons a keys ih =>
    apply ih
    rw [note]
    split
    · exact h
    · next ha => exact List.nodup_append.2 ⟨h, List.nodup_singleton a, by rintro b hb c hc rfl; simp_all⟩

theorem nodup_firsts (keys : List κ) : (firsts keys).Nodup := nodup_foldl_note List.nodup_nil

theorem firsts_of_nodup (h : keys.Nodup) : firsts keys = keys := by
  have hfold : ∀ seen : List κ, (seen ++ keys).Nodup → keys.foldl note seen = seen ++ keys := by
    clear h
    induction keys with
    | nil => exact fun seen _ => (List.append_nil seen).symm
    | cons a keys ih =>
      intro seen h
      have hmem : a ∉ seen := fun ha => (List.nodup_append.1 h).2.2 a ha a List.mem_cons_self rfl
      have happend : seen ++ a :: keys = seen ++ [a] ++ keys := by simp
      rw [List.foldl_cons, note, if_neg hmem, happend, ih (seen ++ [a]) (happend ▸ h)]
  exact hfold [] h

theorem position_injective (hk : k ∈ keys) (h : position keys k = position keys k') : k = k' :=
  (List.idxOf_inj (mem_firsts.2 hk)).1 h

theorem position_map {γ : Type*} [DecidableEq γ] {f : κ → γ} (hf : Function.Injective f) (keys : List κ) (k : κ) :
    position (keys.map f) (f k) = position keys k := by
  have hnote : ∀ (keys seen : List κ), (keys.map f).foldl note (seen.map f) = (keys.foldl note seen).map f := by
    intro keys
    induction keys with
    | nil => exact fun seen => rfl
    | cons a keys ih =>
      intro seen
      have hone : note (seen.map f) (f a) = (note seen a).map f := by
        unfold note
        by_cases ha : a ∈ seen
        · rw [if_pos ha, if_pos (List.mem_map_of_mem ha)]
        · rw [if_neg ha, if_neg (mt (List.mem_map_of_injective hf).1 ha), List.map_append]
          rfl
      rw [List.map_cons, List.foldl_cons, List.foldl_cons, hone, ih]
  unfold position firsts
  rw [← List.map_nil (f := f), hnote]
  induction keys.foldl note [] with
  | nil => rfl
  | cons a l ih =>
    rw [List.map_cons, List.idxOf_cons, List.idxOf_cons, ih]
    by_cases ha : a = k
    · rw [ha, beq_self_eq_true, beq_self_eq_true]
    · rw [beq_false_of_ne ha, beq_false_of_ne fun h => ha (hf h)]

/-- Repeating an element next to itself changes nothing. -/
theorem foldl_note_block {block : List κ} (hblock : ∀ b ∈ block, b = k) (hne : block ≠ []) :
    block.foldl note seen = note seen k := by
  induction block generalizing seen with
  | nil => exact absurd rfl hne
  | cons b block ih =>
    have hb : b = k := hblock b List.mem_cons_self
    subst hb
    cases block with
    | nil => rfl
    | cons c block =>
      rw [List.foldl_cons, ih (fun d hd => hblock d (List.mem_cons_of_mem b hd)) (List.cons_ne_nil c block)]
      have hmem : b ∈ note seen b := by
        rw [note]
        split
        · assumption
        · exact List.mem_append_right _ (List.mem_singleton_self b)
      rw [note, if_pos hmem]

theorem firsts_flatMap {l : List α} {key : α → κ} {f : α → List κ}
    (hf : ∀ a ∈ l, ∀ b ∈ f a, b = key a) (hne : ∀ a ∈ l, f a ≠ []) :
    firsts (l.flatMap f) = firsts (l.map key) := by
  have hfold : ∀ seen : List κ, (l.flatMap f).foldl note seen = (l.map key).foldl note seen := by
    induction l with
    | nil => exact fun seen => rfl
    | cons a l ih =>
      intro seen
      rw [List.flatMap_cons, List.foldl_append, List.map_cons, List.foldl_cons,
        foldl_note_block (hf a List.mem_cons_self) (hne a List.mem_cons_self),
        ih (fun b hb => hf b (List.mem_cons_of_mem a hb)) fun b hb => hne b (List.mem_cons_of_mem a hb)]
  exact hfold []

end Firsts

/-! ### Grouping -/

section Grouped

variable [DecidableEq κ] {l : List α}

/-- The elements of each key together, the keys in the order in which they come first. -/
def grouped (key : α → κ) (l : List α) : List α := (firsts (l.map key)).flatMap fun k => l.filter fun a => key a = k

theorem filter_ne_nil {key : α → κ} {k : κ} (hk : k ∈ firsts (l.map key)) : l.filter (fun a => key a = k) ≠ [] := by
  obtain ⟨a, ha, rfl⟩ := List.mem_map.1 (mem_firsts.1 hk)
  exact List.ne_nil_of_mem (List.mem_filter.2 ⟨ha, decide_eq_true rfl⟩)

theorem pairwise_position (keys : List κ) :
    (firsts keys).Pairwise fun k k' => position keys k ≤ position keys k' := by
  rw [List.pairwise_iff_getElem]
  intro i j hi hj hij
  unfold position
  rw [(nodup_firsts keys).idxOf_getElem i hi, (nodup_firsts keys).idxOf_getElem j hj]
  exact hij.le

/-- Sorting by the first occurrence of the key groups. -/
theorem sortBy_position (key : α → κ) (l : List α) :
    sortBy (fun a => position (l.map key) (key a)) l = grouped key l := by
  have hblock : ∀ k ∈ firsts (l.map key), ∀ a ∈ l.filter (fun a => key a = k),
      position (l.map key) (key a) = position (l.map key) k :=
    fun k _ a ha => congrArg _ (of_decide_eq_true (List.mem_filter.1 ha).2)
  refine eq_of_filter (pairwise_sortBy _ l) ?_ fun n => ?_
  · unfold grouped
    rw [List.pairwise_flatMap]
    constructor
    · intro k hk
      apply List.pairwise_of_forall_mem_list
      intro a ha b hb
      rw [hblock k hk a ha, hblock k hk b hb]
    · refine (pairwise_position (l.map key)).imp_of_mem ?_
      intro k k' hk hk' hle a ha b hb
      rwa [hblock k hk a ha, hblock k' hk' b hb]
  · rw [filter_sortBy]
    unfold grouped
    rw [filter_flatMap_of_key hblock]
    -- at most one key comes first at this place
    by_cases hn : ∃ k ∈ firsts (l.map key), position (l.map key) k = n
    · obtain ⟨k, hk, rfl⟩ := hn
      have hsame (k' : κ) (hk' : k' ∈ firsts (l.map key)) : position (l.map key) k' = position (l.map key) k ↔ k' = k :=
        ⟨fun h => position_injective (mem_firsts.1 hk') h, fun h => h ▸ rfl⟩
      have hone : (firsts (l.map key)).filter (fun k' => position (l.map key) k' = position (l.map key) k) = [k] := by
        rw [List.filter_congr fun k' hk' => decide_eq_decide.2 (hsame k' hk')]
        rw [List.filter_eq, List.count_eq_one_of_mem (nodup_firsts (l.map key)) hk, List.replicate_one]
      rw [hone, List.flatMap_singleton]
      refine List.filter_congr fun a ha => decide_eq_decide.2 ?_
      exact hsame (key a) (mem_firsts.2 (List.mem_map_of_mem ha))
    · have hnone : (firsts (l.map key)).filter (fun k => position (l.map key) k = n) = [] := by
        rw [List.filter_eq_nil_iff]
        exact fun k hk h => hn ⟨k, hk, of_decide_eq_true h⟩
      rw [hnone, List.flatMap_nil, List.filter_eq_nil_iff]
      exact fun a ha h => hn ⟨key a, mem_firsts.2 (List.mem_map_of_mem ha), of_decide_eq_true h⟩

/-- Grouping again changes nothing. -/
theorem grouped_grouped (key : α → κ) (l : List α) : grouped key (grouped key l) = grouped key l := by
  have hkeys : firsts ((grouped key l).map key) = firsts (l.map key) := by
    have hmap : (grouped key l).map key =
        (firsts (l.map key)).flatMap fun k => (l.filter fun a => key a = k).map key := List.map_flatMap
    rw [hmap, firsts_flatMap (fun k _ b (hb : b ∈ _) => (?_ : b = id k)) fun k hk h => ?_]
    · rw [List.map_id, firsts_of_nodup (nodup_firsts (l.map key))]
    · obtain ⟨a, ha, rfl⟩ := List.mem_map.1 hb
      exact of_decide_eq_true (List.mem_filter.1 ha).2
    · exact filter_ne_nil hk (List.map_eq_nil_iff.1 h)
  have hposition (k : κ) : position ((grouped key l).map key) k = position (l.map key) k := by
    unfold position
    rw [hkeys]
  rw [← sortBy_position key (grouped key l)]
  simp only [hposition]
  refine sortBy_of_pairwise ?_
  rw [← sortBy_position key l]
  exact pairwise_sortBy _ l

end Grouped

/-! ### Grouping by a finer key -/

section Grouping

variable {γ : Type*} [DecidableEq κ] [DecidableEq γ] {fine : α → κ} {text : α → γ} {l : List α}

/-- The groups of `fine` come in an order in which those of `text` come as well. -/
def SameOrder (fine : α → κ) (text : α → γ) (l : List α) : Prop :=
  ∀ a ∈ l, ∀ b ∈ l, position (l.map fine) (fine a) < position (l.map fine) (fine b) →
    position (l.map text) (text a) ≤ position (l.map text) (text b)

instance : Decidable (SameOrder fine text l) := by
  unfold SameOrder
  infer_instance

/-- What the text shows of the order by `fine` is the order by text. -/
theorem map_sortBy_position_iff (hfine : ∀ a ∈ l, ∀ b ∈ l, fine a = fine b → text a = text b) :
    (sortBy (fun a => position (l.map fine) (fine a)) l).map text =
        (sortBy (fun a => position (l.map text) (text a)) l).map text ↔ SameOrder fine text l := by
  have hsorted : ((sortBy (fun a => position (l.map text) (text a)) l).map text).Pairwise
      fun t t' => position (l.map text) t ≤ position (l.map text) t' :=
    List.pairwise_map.2 (pairwise_sortBy _ l)
  constructor
  · intro h a ha b hb hab
    rw [← h, List.pairwise_map] at hsorted
    have hmem : ∀ c ∈ l, c ∈ sortBy (fun a => position (l.map fine) (fine a)) l := fun c hc => mem_sortBy.2 hc
    obtain ⟨i, hi, rfl⟩ := List.mem_iff_getElem.1 (hmem a ha)
    obtain ⟨j, hj, rfl⟩ := List.mem_iff_getElem.1 (hmem b hb)
    rcases lt_trichotomy i j with hij | rfl | hij
    · exact List.pairwise_iff_getElem.1 hsorted i j hi hj hij
    · exact absurd hab (lt_irrefl _)
    · exact absurd (List.pairwise_iff_getElem.1 (pairwise_sortBy _ l) j i hj hi hij) (not_le.2 hab)
  · intro h
    have hperm : ((sortBy (fun a => position (l.map fine) (fine a)) l).map text).Perm
        ((sortBy (fun a => position (l.map text) (text a)) l).map text) :=
      ((perm_sortBy (fun a => position (l.map fine) (fine a)) l).trans (perm_sortBy _ l).symm).map text
    refine List.Perm.eq_of_pairwise ?_ ?_ hsorted hperm
    · rintro t t' ht - hle hge
      exact position_injective
        (((perm_sortBy (fun a => position (l.map fine) (fine a)) l).map text).mem_iff.1 ht) (le_antisymm hle hge)
    · rw [List.pairwise_map]
      refine (pairwise_sortBy _ l).imp_of_mem ?_
      intro a b ha hb hab
      rw [mem_sortBy] at ha hb
      rcases hab.lt_or_eq with hlt | heq
      · exact h a ha b hb hlt
      · rw [hfine a ha b hb (position_injective (List.mem_map_of_mem ha) heq)]

end Grouping

end StableSort
