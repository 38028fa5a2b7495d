import Mathlib.Data.List.Basic
import Mathlib.Logic.Function.Basic

/-!
# File trees

A tree of directories and files, as the partial map from the paths below its root.

* `mkdir`, `write`, `move`: `mkdir -p`, the creation of a file in a directory that exists, and the
  renaming of a subtree, with what they leave unchanged;
* `Member`, `extract`, `latest`: the members of an archive, what `tar -x` does with one of them, and
  the member that counts when several have one path;
* `Holds`, `Holds.extract`: a directory holds what the members say.
-/

namespace FileTree

variable {α : Type*} {β : Type*}

inductive Node (β : Type*)
  | dir
  | file (content : β)
  deriving DecidableEq

/-- What each path holds. -/
abbrev Tree (α : Type*) (β : Type*) := List α → Option (Node β)

namespace Tree

def isDir (t : Tree α β) (p : List α) : Bool :=
  match t p with
  | some .dir => true
  | _ => false

def isFile (t : Tree α β) (p : List α) : Bool :=
  match t p with
  | some (.file _) => true
  | _ => false

theorem isDir_iff {t : Tree α β} {p : List α} : t.isDir p = true ↔ t p = some .dir := by
  unfold isDir
  split <;> simp_all

theorem isFile_iff {t : Tree α β} {p : List α} : t.isFile p = true ↔ ∃ c, t p = some (.file c) := by
  unfold isFile
  split <;> simp_all

theorem isFile_congr {t u : Tree α β} {p q : List α} (h : u q = t p) : u.isFile q = t.isFile p := by
  unfold isFile
  rw [h]

variable [DecidableEq α]

/-- The directory `p` and its parents below `base` exist afterwards. -/
def mkdirFrom (t : Tree α β) (base : List α) : List α → Option (Tree α β)
  | [] => some t
  | a :: p =>
      match t (base ++ [a]) with
      | some .dir => mkdirFrom t (base ++ [a]) p
      | some (.file _) => none
      | none => mkdirFrom (Function.update t (base ++ [a]) (some .dir)) (base ++ [a]) p

/-- `mkdir -p`. -/
def mkdir (t : Tree α β) (p : List α) : Option (Tree α β) := t.mkdirFrom [] p

/-- A file is created, or rewritten, in a directory that exists. -/
def write (t : Tree α β) (p : List α) (c : β) : Option (Tree α β) :=
  if t.isDir p.dropLast && !t.isDir p then some (Function.update t p (some (.file c))) else none

/-- The subtree at `p` is renamed to `q`. -/
def move (t : Tree α β) (p q : List α) : Tree α β := fun r =>
  if q <+: r then t (p ++ r.drop q.length) else if p <+: r then none else t r

/-! ### Directories -/

theorem mkdirFrom_apply {t u : Tree α β} {base p : List α} (h : t.mkdirFrom base p = some u)
    (r : List α) : u r = t r ∨ (t r = none ∧ u r = some .dir ∧ r <+: base ++ p) := by
  induction p generalizing t base with
  | nil =>
    cases h
    exact .inl rfl
  | cons a p ih =>
    have happend : base ++ a :: p = base ++ [a] ++ p := by simp
    rw [happend]
    simp only [mkdirFrom] at h
    split at h
    · exact ih h
    · cases h
    · next hnone =>
      by_cases hr : r = base ++ [a]
      · subst hr
        rcases ih h with heq | ⟨hfalse, -⟩
        · rw [Function.update_self] at heq
          exact .inr ⟨hnone, heq, List.prefix_append ..⟩
        · rw [Function.update_self] at hfalse
          cases hfalse
      · rcases ih h with heq | ⟨hn, hdir, hprefix⟩
        · rw [Function.update_of_ne hr] at heq
          exact .inl heq
        · rw [Function.update_of_ne hr] at hn
          exact .inr ⟨hn, hdir, hprefix⟩

/-- Nothing that exists is changed. -/
theorem mkdir_keeps {t u : Tree α β} {p : List α} (h : t.mkdir p = some u) {r : List α} {n : Node β}
    (hr : t r = some n) : u r = some n := by
  rcases mkdirFrom_apply h r with heq | ⟨hnone, -⟩
  · exact heq.trans hr
  · rw [hnone] at hr
    cases hr

/-- Nothing is changed but on the way to the directory. -/
theorem mkdir_of_not_prefix {t u : Tree α β} {p : List α} (h : t.mkdir p = some u) {r : List α}
    (hr : ¬ r <+: p) : u r = t r := by
  rcases mkdirFrom_apply h r with heq | ⟨-, -, hprefix⟩
  · exact heq
  · exact absurd hprefix hr

theorem mkdirFrom_self {t u : Tree α β} {base p : List α} (h : t.mkdirFrom base p = some u)
    (hbase : t base = some .dir) : u (base ++ p) = some .dir := by
  induction p generalizing t base with
  | nil =>
    cases h
    rwa [List.append_nil]
  | cons a p ih =>
    have happend : base ++ a :: p = base ++ [a] ++ p := by simp
    rw [happend]
    simp only [mkdirFrom] at h
    split at h
    · next hdir => exact ih h hdir
    · cases h
    · exact ih h (Function.update_self ..)

theorem mkdir_self {t u : Tree α β} {p : List α} (h : t.mkdir p = some u)
    (hroot : t [] = some .dir) : u p = some .dir :=
  mkdirFrom_self h hroot

/-! ### Files -/

theorem write_eq_some {t u : Tree α β} {p : List α} {c : β} (h : t.write p c = some u) :
    t p.dropLast = some .dir ∧ t p ≠ some .dir ∧ u = Function.update t p (some (.file c)) := by
  obtain ⟨hcond, h⟩ := Option.ite_none_right_eq_some.1 h
  cases h
  obtain ⟨hparent, hp⟩ := Bool.and_eq_true_iff.1 hcond
  refine ⟨isDir_iff.1 hparent, fun hdir => ?_, rfl⟩
  rw [isDir_iff.2 hdir] at hp
  cases hp

theorem write_self {t u : Tree α β} {p : List α} {c : β} (h : t.write p c = some u) :
    u p = some (.file c) := by
  obtain ⟨-, -, rfl⟩ := write_eq_some h
  exact Function.update_self ..

theorem write_of_ne {t u : Tree α β} {p : List α} {c : β} (h : t.write p c = some u) {r : List α}
    (hr : r ≠ p) : u r = t r := by
  obtain ⟨-, -, rfl⟩ := write_eq_some h
  exact Function.update_of_ne hr ..

theorem write_keeps_dir {t u : Tree α β} {p : List α} {c : β} (h : t.write p c = some u)
    {r : List α} (hr : t r = some .dir) : u r = some .dir := by
  obtain ⟨-, hp, -⟩ := write_eq_some h
  rw [write_of_ne h fun heq => hp (heq ▸ hr), hr]

theorem write_keeps_file {t u : Tree α β} {p : List α} {c : β} (h : t.write p c = some u)
    {r : List α} (hr : t.isFile r = true) : u.isFile r = true := by
  by_cases heq : r = p
  · subst heq
    exact isFile_iff.2 ⟨c, write_self h⟩
  · obtain ⟨c', hc⟩ := isFile_iff.1 hr
    exact isFile_iff.2 ⟨c', (write_of_ne h heq).trans hc⟩

/-- A file can be written in a directory. -/
theorem exists_write {t : Tree α β} {p : List α} (hparent : t p.dropLast = some .dir)
    (hp : t.isDir p = false) (c : β) :
    t.write p c = some (Function.update t p (some (.file c))) := by
  unfold write
  rw [isDir_iff.2 hparent, hp]
  rfl

/-! ### Renaming -/

theorem move_new (t : Tree α β) (p q r : List α) : t.move p q (q ++ r) = t (p ++ r) := by
  unfold move
  rw [if_pos (List.prefix_append q r), List.drop_left]

theorem move_of_not_prefix {t : Tree α β} {p q r : List α} (hp : ¬ p <+: r) (hq : ¬ q <+: r) :
    t.move p q r = t r := by
  unfold move
  rw [if_neg hq, if_neg hp]

theorem move_old {t : Tree α β} {p q r : List α} (hq : ¬ q <+: p ++ r) :
    t.move p q (p ++ r) = none := by
  unfold move
  rw [if_neg hq, if_pos (List.prefix_append p r)]

end Tree

/-! ### Archives -/

/-- A member of an archive. -/
structure Member (α : Type*) (β : Type*) where
  path : List α
  node : Node β
  deriving DecidableEq

variable [DecidableEq α]

/-- `tar -x` in the directory `root`, for one member. -/
def Tree.extract (t : Tree α β) (root : List α) (m : Member α β) : Option (Tree α β) :=
  match m.node with
  | .dir => t.mkdir (root ++ m.path)
  | .file c => (t.mkdir (root ++ m.path).dropLast).bind fun u => u.write (root ++ m.path) c

/-- The member that counts for a path, the last one. -/
def latest : List (Member α β) → List α → Option (Node β)
  | [], _ => none
  | m :: ms, p => (latest ms p).or (if m.path = p then some m.node else none)

theorem latest_concat (ms : List (Member α β)) (m : Member α β) (p : List α) :
    latest (ms ++ [m]) p = if m.path = p then some m.node else latest ms p := by
  induction ms with
  | nil => simp [latest]
  | cons m' ms ih =>
    rw [List.cons_append, latest, ih, latest]
    split_ifs <;> simp

theorem mem_of_latest {ms : List (Member α β)} {p : List α} {n : Node β}
    (h : latest ms p = some n) : ∃ m ∈ ms, m.path = p := by
  induction ms with
  | nil => cases h
  | cons m ms ih =>
    rw [latest] at h
    rcases Option.or_eq_some_iff.1 h with h | ⟨-, h⟩
    · obtain ⟨m', hm', hp⟩ := ih h
      exact ⟨m', List.mem_cons_of_mem m hm', hp⟩
    · obtain ⟨hp, -⟩ := Option.ite_none_right_eq_some.1 h
      exact ⟨m, List.mem_cons_self, hp⟩

/-- Extracting a member changes nothing that exists but its own path. -/
theorem Tree.extract_keeps {t u : Tree α β} {root : List α} {m : Member α β}
    (h : t.extract root m = some u) {r : List α} {n : Node β} (hr : t r = some n)
    (hne : r ≠ root ++ m.path) : u r = some n := by
  unfold Tree.extract at h
  split at h
  · exact Tree.mkdir_keeps h hr
  · obtain ⟨v, hv, h⟩ := Option.bind_eq_some_iff.1 h
    rw [Tree.write_of_ne h hne]
    exact Tree.mkdir_keeps hv hr

/-- Extracting a member changes nothing that is not on the way to it. -/
theorem Tree.extract_of_not_prefix {t u : Tree α β} {root : List α} {m : Member α β}
    (h : t.extract root m = some u) {r : List α} (hr : ¬ r <+: root ++ m.path) : u r = t r := by
  unfold Tree.extract at h
  split at h
  · exact Tree.mkdir_of_not_prefix h hr
  · obtain ⟨v, hv, h⟩ := Option.bind_eq_some_iff.1 h
    have hdrop : ¬ r <+: (root ++ m.path).dropLast := fun hp =>
      hr (hp.trans (List.dropLast_prefix _))
    rw [Tree.write_of_ne h fun heq => hr (heq ▸ List.prefix_rfl), Tree.mkdir_of_not_prefix hv hdrop]

theorem Tree.extract_keeps_dir {t u : Tree α β} {root : List α} {m : Member α β}
    (h : t.extract root m = some u) {r : List α} (hr : t r = some .dir) : u r = some .dir := by
  unfold Tree.extract at h
  split at h
  · exact Tree.mkdir_keeps h hr
  · obtain ⟨v, hv, h⟩ := Option.bind_eq_some_iff.1 h
    exact Tree.write_keeps_dir h (Tree.mkdir_keeps hv hr)

theorem Tree.extract_self {t u : Tree α β} {root : List α} {m : Member α β}
    (h : t.extract root m = some u) (hroot : t [] = some .dir) :
    u (root ++ m.path) = some m.node := by
  unfold Tree.extract at h
  split at h
  · next hn => rw [hn]; exact Tree.mkdir_self h hroot
  · next c hn =>
    obtain ⟨v, -, h⟩ := Option.bind_eq_some_iff.1 h
    rw [hn]
    exact Tree.write_self h

/-- The directory `root` holds what the members say. -/
def Tree.Holds (t : Tree α β) (root : List α) (ms : List (Member α β)) : Prop :=
  ∀ p n, latest ms p = some n → t (root ++ p) = some n

theorem Tree.holds_nil (t : Tree α β) (root : List α) : t.Holds root [] := fun p n h => by cases h

/-- One member more. -/
theorem Tree.Holds.extract {t u : Tree α β} {root : List α} {ms : List (Member α β)}
    {m : Member α β} (h : t.Holds root ms) (hroot : t [] = some .dir)
    (hm : t.extract root m = some u) : u.Holds root (ms ++ [m]) := by
  intro p n hp
  rw [latest_concat] at hp
  split_ifs at hp with heq
  · cases hp
    subst heq
    exact Tree.extract_self hm hroot
  · exact Tree.extract_keeps hm (h p n hp) fun heq' => heq (List.append_cancel_left heq').symm

/-- Renamed, it holds the same. -/
theorem Tree.Holds.move {t : Tree α β} {p q r : List α} {ms : List (Member α β)}
    (h : t.Holds (p ++ r) ms) : (t.move p q).Holds (q ++ r) ms := by
  intro s n hs
  rw [List.append_assoc, Tree.move_new, ← List.append_assoc]
  exact h s n hs

end FileTree
