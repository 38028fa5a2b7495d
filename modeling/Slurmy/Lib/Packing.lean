import Mathlib.Data.List.Induction
import Mathlib.Logic.Function.Basic

/-!
# Packing a stream of keyed items

Items arrive one after the other, each with a key, and are put into batches that hold items of one
key.  A batch of the key stays open until it holds `size` items.

* `fill`, `pack`: the packing of the items of one key;
* `Packed`: consecutive pieces, all full but the last; `Packed.length_eq` counts them;
* `Shelf`, `put`, `putAll`: the batches of all keys side by side, with the open batch of each key;
* `contents_putAll`: seen from one key, the batches are the packing of the items of that key.
-/

namespace Packing

variable {κ : Type*} {α : Type*}

/-! ### One key -/

/-- Put `a` into the last batch, or into a new one when there is none or the last is full. -/
def fill (size : ℕ) (cs : List (List α)) (a : α) : List (List α) :=
  match cs.getLast? with
  | some c => if c.length < size then cs.dropLast ++ [c ++ [a]] else cs ++ [[a]]
  | none => cs ++ [[a]]

/-- The batches of a list of items. -/
def pack (size : ℕ) (as : List α) : List (List α) := as.foldl (fill size) []

theorem fill_nil (size : ℕ) (a : α) : fill size [] a = [[a]] := rfl

theorem fill_append_open {size : ℕ} {c : List α} (h : c.length < size) (cs : List (List α))
    (a : α) : fill size (cs ++ [c]) a = cs ++ [c ++ [a]] := by
  simp [fill, h]

theorem fill_append_full {size : ℕ} {c : List α} (h : ¬ c.length < size) (cs : List (List α))
    (a : α) : fill size (cs ++ [c]) a = cs ++ [c] ++ [[a]] := by
  simp [fill, h]

theorem pack_append (size : ℕ) (as : List α) (a : α) :
    pack size (as ++ [a]) = fill size (pack size as) a := by
  simp [pack]

/-- `cs` cuts `as` into consecutive pieces of `size` items, the last of which may be shorter. -/
structure Packed (size : ℕ) (as : List α) (cs : List (List α)) : Prop where
  flatten : cs.flatten = as
  pos : ∀ c ∈ cs, 0 < c.length
  le : ∀ c ∈ cs, c.length ≤ size
  full : ∀ c ∈ cs.dropLast, c.length = size

theorem Packed.fill {size : ℕ} (hsize : 0 < size) {as : List α} {cs : List (List α)}
    (h : Packed size as cs) (a : α) : Packed size (as ++ [a]) (fill size cs a) := by
  rcases cs.eq_nil_or_concat with rfl | ⟨ds, c, hcs⟩
  · have has : as = [] := by simpa using h.flatten.symm
    subst has
    rw [fill_nil]
    constructor <;> simp
    omega
  rw [List.concat_eq_append] at hcs
  subst hcs
  have hc : c.length ≤ size := h.le c (by simp)
  have hds : ∀ d ∈ ds, d.length = size := fun d hd => h.full d (by simpa using hd)
  have hflat : ds.flatten ++ c = as := by simpa using h.flatten
  by_cases hopen : c.length < size
  · rw [fill_append_open hopen]
    constructor
    · simp [← hflat]
    · intro d hd
      rcases List.mem_append.1 hd with hd | hd
      · rw [hds d hd]
        exact hsize
      · rw [List.mem_singleton.1 hd]
        simp
    · intro d hd
      rcases List.mem_append.1 hd with hd | hd
      · exact Nat.le_of_eq (hds d hd)
      · rw [List.mem_singleton.1 hd]
        rw [List.length_append, List.length_singleton]
        exact hopen
    · intro d hd
      exact hds d (by simpa using hd)
  · rw [fill_append_full hopen]
    have hcfull : c.length = size := by omega
    constructor
    · simp [← hflat]
    · intro d hd
      rcases List.mem_append.1 hd with hd | hd
      · exact h.pos d hd
      · rw [List.mem_singleton.1 hd]
        simp
    · intro d hd
      rcases List.mem_append.1 hd with hd | hd
      · exact h.le d hd
      · rw [List.mem_singleton.1 hd]
        exact hsize
    · intro d hd
      rw [List.dropLast_concat] at hd
      rcases List.mem_append.1 hd with hd | hd
      · exact hds d hd
      · rw [List.mem_singleton.1 hd]
        exact hcfull

theorem packed_pack {size : ℕ} (hsize : 0 < size) (as : List α) :
    Packed size as (pack size as) := by
  induction as using List.reverseRecOn with
  | nil => exact ⟨rfl, by simp [pack], by simp [pack], by simp [pack]⟩
  | append_singleton as a ih =>
    rw [pack_append]
    exact ih.fill hsize a

theorem sum_length_of_full {size : ℕ} {cs : List (List α)} (h : ∀ c ∈ cs, c.length = size) :
    cs.flatten.length = cs.length * size := by
  induction cs with
  | nil => simp
  | cons c cs ih =>
    rw [List.flatten_cons, List.length_append, h c List.mem_cons_self,
      ih fun d hd => h d (List.mem_cons_of_mem c hd), List.length_cons, Nat.succ_mul, Nat.add_comm]

/-- As many pieces as `size` goes into the number of items, rounded up. -/
theorem Packed.length_eq {size : ℕ} {as : List α} {cs : List (List α)} (hsize : 0 < size)
    (h : Packed size as cs) : cs.length = (as.length + size - 1) / size := by
  rcases cs.eq_nil_or_concat with rfl | ⟨ds, c, hcs⟩
  · have has : as = [] := by simpa using h.flatten.symm
    subst has
    simp only [List.length_nil, Nat.zero_add]
    exact (Nat.div_eq_of_lt (by omega)).symm
  rw [List.concat_eq_append] at hcs
  subst hcs
  have hfull : ds.flatten.length = ds.length * size :=
    sum_length_of_full fun d hd => h.full d (by simpa using hd)
  have hlen : as.length = ds.length * size + c.length := by
    rw [← h.flatten, List.flatten_append, List.length_append, hfull]
    simp
  have hpos : 0 < c.length := h.pos c (by simp)
  have hle : c.length ≤ size := h.le c (by simp)
  have hsum : as.length + size - 1 = (c.length - 1) + size * (ds.length + 1) := by
    rw [hlen, Nat.mul_add, Nat.mul_comm ds.length size]
    omega
  rw [hsum, Nat.add_mul_div_left _ _ hsize, Nat.div_eq_of_lt (by omega)]
  simp

/-! ### All keys -/

/-- The batches with their keys, and the open batch of each key. -/
structure Shelf (κ : Type*) (α : Type*) where
  batches : List (κ × List α)
  opened : κ → Option ℕ

/-- Nothing packed. -/
def Shelf.empty : Shelf κ α := ⟨[], fun _ => none⟩

variable [DecidableEq κ]

/-- Start a new batch with `a`. -/
def Shelf.fresh (s : Shelf κ α) (k : κ) (a : α) : Shelf κ α :=
  ⟨s.batches ++ [(k, [a])], Function.update s.opened k (some s.batches.length)⟩

/-- Put `a` into the open batch of its key, or into a new one. -/
def Shelf.put (size : ℕ) (s : Shelf κ α) (x : κ × α) : Shelf κ α :=
  match s.opened x.1 with
  | none => s.fresh x.1 x.2
  | some i =>
      match s.batches[i]? with
      | none => s.fresh x.1 x.2
      | some c =>
          if c.2.length < size then { s with batches := s.batches.set i (c.1, c.2 ++ [x.2]) }
          else s.fresh x.1 x.2

/-- Put all items, in order. -/
def Shelf.putAll (size : ℕ) (s : Shelf κ α) (xs : List (κ × α)) : Shelf κ α :=
  xs.foldl (Shelf.put size) s

/-- The batches of one key. -/
def Shelf.contents (s : Shelf κ α) (k : κ) : List (List α) :=
  (s.batches.filter fun c => c.1 = k).map Prod.snd

/-- The open batch of a key is its last one, and a key without an open batch has none. -/
def Shelf.OpenIsLast (s : Shelf κ α) : Prop :=
  ∀ k, match s.opened k with
    | none => k ∉ s.batches.map Prod.fst
    | some i => ∃ before after, s.batches.map Prod.fst = before ++ k :: after ∧
        i = before.length ∧ k ∉ after

theorem contents_eq_nil {s : Shelf κ α} {k : κ} (h : k ∉ s.batches.map Prod.fst) :
    s.contents k = [] := by
  rw [Shelf.contents, List.map_eq_nil_iff, List.filter_eq_nil_iff]
  intro c hc hk
  exact h (List.mem_map.2 ⟨c, hc, of_decide_eq_true hk⟩)

theorem contents_split (s : Shelf κ α) {k : κ} {before after : List (κ × List α)} {c : List α}
    (hs : s.batches = before ++ (k, c) :: after) (hafter : k ∉ after.map Prod.fst) :
    s.contents k = (before.filter fun c => c.1 = k).map Prod.snd ++ [c] := by
  have hnil : after.filter (fun d => d.1 = k) = [] := by
    rw [List.filter_eq_nil_iff]
    intro d hd hk
    exact hafter (List.mem_map.2 ⟨d, hd, of_decide_eq_true hk⟩)
  simp [Shelf.contents, hs, hnil]

theorem contents_split_of_ne (s : Shelf κ α) {k l : κ} {before after : List (κ × List α)}
    {c : List α} (hs : s.batches = before ++ (k, c) :: after) (hl : l ≠ k) :
    s.contents l = (before.filter fun c => c.1 = l).map Prod.snd ++
      (after.filter fun c => c.1 = l).map Prod.snd := by
  simp [Shelf.contents, hs, hl.symm]

theorem contents_fresh_self (s : Shelf κ α) (k : κ) (a : α) :
    (s.fresh k a).contents k = s.contents k ++ [[a]] := by
  simp [Shelf.contents, Shelf.fresh]

theorem contents_fresh_of_ne (s : Shelf κ α) {k l : κ} (h : l ≠ k) (a : α) :
    (s.fresh k a).contents l = s.contents l := by
  simp [Shelf.contents, Shelf.fresh, h.symm]

theorem Shelf.OpenIsLast.fresh {s : Shelf κ α} (hs : s.OpenIsLast) (k : κ) (a : α) :
    (s.fresh k a).OpenIsLast := by
  intro l
  by_cases hl : l = k
  · subst hl
    simp only [Shelf.fresh, Function.update_self]
    exact ⟨s.batches.map Prod.fst, [], by simp⟩
  · have hold := hs l
    simp only [Shelf.fresh, Function.update_of_ne hl, List.map_append]
    cases hopen : s.opened l with
    | none =>
      rw [hopen] at hold
      rw [List.mem_append, not_or]
      exact ⟨hold, by simpa using hl⟩
    | some i =>
      rw [hopen] at hold
      obtain ⟨before, after, hsplit, hi, hafter⟩ := hold
      refine ⟨before, after ++ [k], by simp [hsplit], hi, ?_⟩
      rw [List.mem_append, not_or]
      exact ⟨hafter, by simpa using hl⟩

/-- What putting an item does: a new batch, when the key has no batch with room, or one more item in
the last batch of the key. -/
theorem put_cases {s : Shelf κ α} (hs : s.OpenIsLast) (size : ℕ) (k : κ) (a : α) :
    (s.put size (k, a) = s.fresh k a ∧
      (s.contents k = [] ∨ ∃ cs c, s.contents k = cs ++ [c] ∧ ¬ c.length < size)) ∨
    ∃ before c after, s.batches = before ++ (k, c) :: after ∧ k ∉ after.map Prod.fst ∧
      c.length < size ∧
      s.put size (k, a) = { s with batches := before ++ (k, c ++ [a]) :: after } := by
  have hk := hs k
  cases hopen : s.opened k with
  | none =>
    rw [hopen] at hk
    exact .inl ⟨by simp [Shelf.put, hopen], .inl (contents_eq_nil hk)⟩
  | some i =>
    rw [hopen] at hk
    obtain ⟨before', after', hkeys, rfl, hafter⟩ := hk
    obtain ⟨before, rest, hsplit, rfl, hrest⟩ := List.map_eq_append_iff.1 hkeys
    obtain ⟨⟨l, c⟩, after, rfl, hl, rfl⟩ := List.map_eq_cons_iff.1 hrest
    obtain rfl : l = k := hl
    have hget : s.batches[(before.map Prod.fst).length]? = some (l, c) := by simp [hsplit]
    by_cases hroom : c.length < size
    · refine .inr ⟨before, c, after, hsplit, hafter, hroom, ?_⟩
      simp [Shelf.put, hopen, hroom, hsplit]
    · refine .inl ⟨?_, .inr ⟨_, c, contents_split s hsplit hafter, hroom⟩⟩
      simp only [Shelf.put, hopen, hget, if_neg hroom]

theorem Shelf.OpenIsLast.put {s : Shelf κ α} (hs : s.OpenIsLast) (size : ℕ) (x : κ × α) :
    (s.put size x).OpenIsLast := by
  obtain ⟨k, a⟩ := x
  rcases put_cases hs size k a with ⟨hput, -⟩ | ⟨before, c, after, hsplit, -, -, hput⟩
  · rw [hput]
    exact hs.fresh k a
  · -- one batch grows, and the keys of the batches stay what they were
    rw [hput]
    intro l
    have hkeys : s.batches.map Prod.fst =
        (before ++ (k, c ++ [a]) :: after).map Prod.fst := by simp [hsplit]
    have hl := hs l
    rw [hkeys] at hl
    exact hl

/-- Putting an item fills the batches of its key and leaves the other keys alone. -/
theorem contents_put {s : Shelf κ α} (hs : s.OpenIsLast) (size : ℕ) (k : κ) (a : α) (l : κ) :
    (s.put size (k, a)).contents l =
      if k = l then fill size (s.contents l) a else s.contents l := by
  rcases put_cases hs size k a with
    ⟨hput, hfull⟩ | ⟨before, c, after, hsplit, hafter, hroom, hput⟩
  · rw [hput]
    by_cases hl : k = l
    · subst hl
      rw [if_pos rfl, contents_fresh_self]
      rcases hfull with hnil | ⟨cs, c, hcs, hc⟩
      · rw [hnil, fill_nil, List.nil_append]
      · rw [hcs, fill_append_full hc]
    · rw [if_neg hl, contents_fresh_of_ne s (Ne.symm hl)]
  · rw [hput]
    by_cases hl : k = l
    · subst hl
      rw [if_pos rfl, contents_split s hsplit hafter, fill_append_open hroom]
      exact contents_split _ rfl hafter
    · rw [if_neg hl, contents_split_of_ne s hsplit (Ne.symm hl)]
      exact contents_split_of_ne _ rfl (Ne.symm hl)

omit [DecidableEq κ] in
theorem openIsLast_empty : (Shelf.empty : Shelf κ α).OpenIsLast := by
  intro k
  simp [Shelf.empty]

theorem putAll_append (size : ℕ) (s : Shelf κ α) (xs : List (κ × α)) (x : κ × α) :
    s.putAll size (xs ++ [x]) = (s.putAll size xs).put size x := by
  simp [Shelf.putAll]

theorem openIsLast_putAll (size : ℕ) (xs : List (κ × α)) :
    (Shelf.empty.putAll size xs : Shelf κ α).OpenIsLast := by
  induction xs using List.reverseRecOn with
  | nil => exact openIsLast_empty
  | append_singleton xs x ih =>
    rw [putAll_append]
    exact ih.put size x

/-- No item is lost, and none is put twice. -/
theorem flatten_put_perm {s : Shelf κ α} (hs : s.OpenIsLast) (size : ℕ) (k : κ) (a : α) :
    ((s.put size (k, a)).batches.map Prod.snd).flatten.Perm
      ((s.batches.map Prod.snd).flatten ++ [a]) := by
  rcases put_cases hs size k a with ⟨hput, -⟩ | ⟨before, c, after, hsplit, -, -, hput⟩
  · rw [hput]
    simp [Shelf.fresh]
  · rw [hput, hsplit]
    simp only [List.map_append, List.map_cons, List.flatten_append, List.flatten_cons,
      List.append_assoc]
    refine List.Perm.append_left _ (List.Perm.append_left _ ?_)
    exact List.perm_append_comm

theorem flatten_putAll_perm (size : ℕ) (xs : List (κ × α)) :
    ((Shelf.empty.putAll size xs : Shelf κ α).batches.map Prod.snd).flatten.Perm
      (xs.map Prod.snd) := by
  induction xs using List.reverseRecOn with
  | nil => exact List.Perm.refl _
  | append_singleton xs x ih =>
    rw [putAll_append, List.map_append]
    refine (flatten_put_perm (openIsLast_putAll size xs) size x.1 x.2).trans ?_
    exact List.Perm.append_right _ ih

/-- The items of one key. -/
def itemsOf (k : κ) (xs : List (κ × α)) : List α :=
  (xs.filter fun x => x.1 = k).map Prod.snd

/-- Seen from one key, the shelf packs the items of that key. -/
theorem contents_putAll (size : ℕ) (xs : List (κ × α)) (k : κ) :
    (Shelf.empty.putAll size xs : Shelf κ α).contents k = pack size (itemsOf k xs) := by
  induction xs using List.reverseRecOn with
  | nil => rfl
  | append_singleton xs x ih =>
    obtain ⟨l, a⟩ := x
    rw [putAll_append, contents_put (openIsLast_putAll size xs), ih]
    by_cases hl : l = k
    · simp [itemsOf, hl, pack_append]
    · simp [itemsOf, hl]

theorem mem_contents {s : Shelf κ α} {b : κ × List α} (hb : b ∈ s.batches) :
    b.2 ∈ s.contents b.1 :=
  List.mem_map.2 ⟨b, List.mem_filter.2 ⟨hb, decide_eq_true rfl⟩, rfl⟩

/-- A batch holds items of its key, in the order in which they came. -/
theorem sublist_itemsOf {size : ℕ} (hsize : 0 < size) {xs : List (κ × α)} {b : κ × List α}
    (hb : b ∈ (Shelf.empty.putAll size xs : Shelf κ α).batches) :
    b.2.Sublist (itemsOf b.1 xs) := by
  have hmem := mem_contents hb
  rw [contents_putAll] at hmem
  have hflat := (packed_pack hsize (itemsOf b.1 xs)).flatten
  rw [← hflat]
  exact List.sublist_flatten_of_mem hmem

end Packing
