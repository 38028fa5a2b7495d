import Mathlib.Data.List.AList
import Mathlib.Data.List.Sort
import Mathlib.Order.Basic

/-!
# Numbered files

A flat directory whose files are written one per number, under a name that depends on the number,
and read back in the order of their names.

* `Dir`, `glob`: the directory and its names in order, which depend only on what it holds
  (`filter_glob_congr`);
* `writeFrom`: write a list of contents under consecutive numbers;
* `lookup_writeFrom`: the file of each number holds what was written for it;
* `inOrder`, `glob_writeFrom`: the numbers in the order of their names.
-/

namespace NumberedFiles

variable {ν : Type*} {α : Type*} [LinearOrder ν] [DecidableEq ν]

/-- A directory: names with contents. -/
abbrev Dir (ν : Type*) (α : Type*) := AList fun _ : ν => α

/-- The names in order. -/
def glob (d : Dir ν α) : List ν := d.keys.insertionSort (· ≤ ·)

/-- Write `contents` under the names of the numbers from `next` on. -/
def writeFrom (name : ℕ → ν) : ℕ → List α → Dir ν α → Dir ν α
  | _, [], d => d
  | next, a :: contents, d => writeFrom name (next + 1) contents (d.insert (name next) a)

/-- The numbers below `n` in the order of their names. -/
def inOrder (name : ℕ → ν) (n : ℕ) : List ℕ :=
  (List.range n).insertionSort fun a b => name a ≤ name b

variable {name : ℕ → ν}

theorem mem_glob {d : Dir ν α} {x : ν} : x ∈ glob d ↔ x ∈ d.keys :=
  (List.perm_insertionSort _ _).mem_iff

/-- Two directories that agree on the names of a kind list the same names of it. -/
theorem filter_glob_congr {d d' : Dir ν α} {p : ν → Bool}
    (h : ∀ x, p x = true → d.lookup x = d'.lookup x) : (glob d).filter p = (glob d').filter p := by
  have hnodup : ∀ d : Dir ν α, ((glob d).filter p).Nodup := fun d =>
    ((List.perm_insertionSort _ _).nodup_iff.2 d.keys_nodup).filter p
  have hsorted : ∀ d : Dir ν α, ((glob d).filter p).Pairwise (· ≤ ·) := fun d =>
    (List.pairwise_insertionSort _ _).filter p
  have hperm : ((glob d).filter p).Perm ((glob d').filter p) := by
    rw [List.perm_ext_iff_of_nodup (hnodup d) (hnodup d')]
    intro x
    simp only [List.mem_filter, mem_glob, ← AList.mem_keys, ← AList.lookup_isSome]
    constructor
    · rintro ⟨hx, hp⟩
      exact ⟨h x hp ▸ hx, hp⟩
    · rintro ⟨hx, hp⟩
      exact ⟨h x hp ▸ hx, hp⟩
  exact hperm.eq_of_pairwise' (hsorted d) (hsorted d')

theorem lookup_writeFrom_of_lt (hname : Function.Injective name) {k next : ℕ} (h : k < next)
    (contents : List α) (d : Dir ν α) :
    (writeFrom name next contents d).lookup (name k) = d.lookup (name k) := by
  induction contents generalizing next d with
  | nil => rfl
  | cons a contents ih =>
    rw [writeFrom, ih (by omega)]
    exact AList.lookup_insert_ne (hname.ne (by omega))

/-- Each number's file holds its contents. -/
theorem lookup_writeFrom (hname : Function.Injective name) {i : ℕ} {contents : List α}
    (hi : i < contents.length) (next : ℕ) (d : Dir ν α) :
    (writeFrom name next contents d).lookup (name (next + i)) = contents[i]? := by
  induction contents generalizing next i d with
  | nil => simp at hi
  | cons a contents ih =>
    rw [writeFrom]
    cases i with
    | zero =>
      rw [Nat.add_zero, lookup_writeFrom_of_lt hname (Nat.lt_succ_self next)]
      exact AList.lookup_insert d
    | succ i =>
      have hi : i < contents.length := by simpa using hi
      have hnext : next + (i + 1) = next + 1 + i := by omega
      rw [hnext, ih hi, List.getElem?_cons_succ]

theorem mem_writeFrom {contents : List α} {next : ℕ} {d : Dir ν α} {x : ν} :
    x ∈ (writeFrom name next contents d).keys ↔
      x ∈ d.keys ∨ ∃ i < contents.length, x = name (next + i) := by
  induction contents generalizing next d with
  | nil => simp [writeFrom]
  | cons a contents ih =>
    rw [writeFrom, ih, ← AList.mem_keys, AList.mem_insert, AList.mem_keys]
    constructor
    · rintro ((rfl | hx) | ⟨i, hi, rfl⟩)
      · exact .inr ⟨0, by simp, rfl⟩
      · exact .inl hx
      · exact .inr ⟨i + 1, by simpa using hi, by rw [Nat.add_right_comm, Nat.add_assoc]⟩
    · rintro (hx | ⟨i, hi, rfl⟩)
      · exact .inl (.inr hx)
      · cases i with
        | zero => exact .inl (.inl rfl)
        | succ i => exact .inr ⟨i, by simpa using hi, by rw [Nat.add_right_comm, Nat.add_assoc]⟩

/-- All files of a directory are numbered below `n`. -/
def Below (name : ℕ → ν) (n : ℕ) (d : Dir ν α) : Prop := ∀ x ∈ d.keys, ∃ i < n, x = name i

theorem Below.writeFrom {n next : ℕ} {d : Dir ν α} (h : Below name n d) {contents : List α}
    (hn : next + contents.length ≤ n) : Below name n (writeFrom name next contents d) := by
  intro x hx
  rcases mem_writeFrom.1 hx with hx | ⟨i, hi, rfl⟩
  · exact h x hx
  · exact ⟨next + i, by omega, rfl⟩

theorem map_inOrder (n : ℕ) :
    (inOrder name n).map name = ((List.range n).map name).insertionSort (· ≤ ·) :=
  List.map_insertionSort _ _ _ _ fun _ _ _ _ => Iff.rfl

/-- A directory that has exactly the files numbered below `n` lists them in the order of their
names. -/
theorem glob_eq (hname : Function.Injective name) {n : ℕ} {d : Dir ν α}
    (hd : ∀ x, x ∈ d.keys ↔ ∃ i < n, x = name i) : glob d = (inOrder name n).map name := by
  have hperm : d.keys.Perm ((List.range n).map name) := by
    rw [List.perm_ext_iff_of_nodup d.keys_nodup (List.nodup_range.map hname)]
    intro x
    rw [hd, List.mem_map]
    constructor
    · rintro ⟨i, hi, rfl⟩
      exact ⟨i, List.mem_range.2 hi, rfl⟩
    · rintro ⟨i, hi, rfl⟩
      exact ⟨i, List.mem_range.1 hi, rfl⟩
  rw [map_inOrder]
  have hsorted : (glob d).Perm (((List.range n).map name).insertionSort (· ≤ ·)) :=
    (List.perm_insertionSort _ _).trans (hperm.trans (List.perm_insertionSort _ _).symm)
  exact hsorted.eq_of_pairwise' (List.pairwise_insertionSort _ _) (List.pairwise_insertionSort _ _)

theorem glob_writeFrom (hname : Function.Injective name) {contents : List α} {d : Dir ν α}
    (hd : Below name contents.length d) :
    glob (writeFrom name 0 contents d) = (inOrder name contents.length).map name := by
  apply glob_eq hname
  intro x
  rw [mem_writeFrom]
  constructor
  · rintro (hx | ⟨i, hi, rfl⟩)
    · exact hd x hx
    · exact ⟨i, hi, by rw [Nat.zero_add]⟩
  · rintro ⟨i, hi, rfl⟩
    exact .inr ⟨i, hi, by rw [Nat.zero_add]⟩

end NumberedFiles
