import Mathlib.Data.List.Basic
import Mathlib.Logic.Function.Basic

/-!
# File trees with symbolic links

A tree of directories, files and symbolic links, as the partial map from absolute paths.  The target
of a link is the absolute path that it stands for.

* `walk`, `follow`: the way along a path, and where a path leads when all links are followed;
* `stat`, `lstat`: what is there, with and without following a link in the last place;
* `create`, `touch`, `makeDir`, `remove`, `unlink`: opening a file for writing, `mkdir`, `rm -rf`,
  `rm -f`;
* `Directories`: a path on which there are no links; there the operations are updates of the map
  (`create_plain`, `remove_plain`, …), and nothing can be created below a path that does not exist.
-/

namespace LinkTree

variable {α : Type*} {β : Type*}

inductive Node (α : Type*) (β : Type*)
  | dir
  | file (content : β)
  | link (target : List α)
  deriving DecidableEq

/-- What is at each path. -/
abbrev Tree (α : Type*) (β : Type*) := List α → Option (Node α β)

def Node.isLink : Node α β → Bool
  | .link _ => true
  | _ => false

def Node.isFile : Node α β → Bool
  | .file _ => true
  | _ => false

def Node.isDir : Node α β → Bool
  | .dir => true
  | _ => false

namespace Tree

/-! ### Paths -/

/-- The end of a way along a path. -/
inductive Walk (α : Type*)
  /-- the path leads here, and perhaps nothing is there yet -/
  | found (p : List α)
  /-- there is a link on the way, and this is the path that is left -/
  | again (p : List α)
  | missing

/-- The way along a path from the directory `base`. -/
def walk (t : Tree α β) (base : List α) : List α → Walk α
  | [] => .found base
  | a :: p =>
      match t (base ++ [a]) with
      | some .dir => walk t (base ++ [a]) p
      | some (.link target) => .again (target ++ p)
      | _ => if p.isEmpty then .found (base ++ [a]) else .missing

/-- Where a path leads when at most `n` ways may be tried. -/
def resolve (t : Tree α β) : ℕ → List α → Option (List α)
  | 0, _ => none
  | n + 1, p =>
      match t.walk [] p with
      | .found q => some q
      | .again q => resolve t n q
      | .missing => none

/-- Where a path leads, over at most 40 links. -/
def follow (t : Tree α β) (p : List α) : Option (List α) := t.resolve 41 p

/-- The place of the last entry of a path, which is not followed. -/
def entry (t : Tree α β) (p : List α) : Option (List α) :=
  match p.getLast? with
  | none => none
  | some a => (t.follow p.dropLast).map (· ++ [a])

def stat (t : Tree α β) (p : List α) : Option (Node α β) := (t.follow p).bind t

def lstat (t : Tree α β) (p : List α) : Option (Node α β) := (t.entry p).bind t

/-- `-e` -/
def hasAny (t : Tree α β) (p : List α) : Bool := (t.stat p).isSome

/-- `-d` -/
def hasDir (t : Tree α β) (p : List α) : Bool := (t.stat p).any Node.isDir

/-- `-f` -/
def hasFile (t : Tree α β) (p : List α) : Bool := (t.stat p).any Node.isFile

/-- `-L` -/
def hasLink (t : Tree α β) (p : List α) : Bool := (t.lstat p).any Node.isLink

variable [DecidableEq α]

/-! ### Operations -/

/-- A file is opened for writing: it is created or truncated, wherever the path leads. -/
def create (t : Tree α β) (p : List α) (c : β) : Option (Tree α β) :=
  (t.follow p).bind fun q =>
    match t q with
    | some .dir => none
    | _ => some (Function.update t q (some (.file c)))

/-- A file is opened, and created where there is none. -/
def touch (t : Tree α β) (p : List α) (c : β) : Option (Tree α β) :=
  if t.hasAny p then some t else t.create p c

/-- `mkdir -p` of a directory whose parent exists. -/
def makeDir (t : Tree α β) (p : List α) : Option (Tree α β) :=
  (t.follow p).bind fun q =>
    match t q with
    | some .dir => some t
    | none => some (Function.update t q (some .dir))
    | _ => none

/-- What is at `q` and below is removed. -/
def cut (t : Tree α β) (q : List α) : Tree α β := fun r => if q <+: r then none else t r

/-- `rm -rf` -/
def remove (t : Tree α β) (p : List α) : Option (Tree α β) := (t.entry p).map t.cut

/-- `rm -f` -/
def unlink (t : Tree α β) (p : List α) : Option (Tree α β) :=
  (t.entry p).bind fun q =>
    match t q with
    | some .dir => none
    | _ => some (Function.update t q none)

/-! ### Paths without links -/

/-- All that lies on the way to `d`, and `d` itself, are directories. -/
def Directories (t : Tree α β) (d : List α) : Prop := ∀ q, q <+: d → q ≠ [] → t q = some .dir

section

variable {t u : Tree α β} {d : List α} {a b : α} {c : β}

omit [DecidableEq α] in
theorem walk_append (base d p : List α)
    (h : ∀ q, q <+: d → q ≠ [] → t (base ++ q) = some .dir) :
    t.walk base (d ++ p) = t.walk (base ++ d) p := by
  induction d generalizing base with
  | nil => simp
  | cons x d ih =>
    have hx : t (base ++ [x]) = some .dir := h [x] (by simp) (by simp)
    have hlater : ∀ q, q <+: d → q ≠ [] → t (base ++ [x] ++ q) = some .dir := by
      intro q hq _
      have hq' := h (x :: q) (List.cons_prefix_cons.2 ⟨rfl, hq⟩) (by simp)
      simpa using hq'
    rw [List.cons_append, walk, hx]
    simpa using ih (base ++ [x]) hlater

omit [DecidableEq α] in
theorem Directories.walk (h : t.Directories d) (p : List α) :
    Tree.walk t [] (d ++ p) = Tree.walk t d p :=
  walk_append [] d p h

omit [DecidableEq α] in
theorem Directories.follow (h : t.Directories d) : t.follow d = some d := by
  have hwalk := h.walk []
  rw [List.append_nil] at hwalk
  simp [Tree.follow, resolve, hwalk, Tree.walk]

omit [DecidableEq α] in
theorem Directories.concat (h : t.Directories d) (ha : t (d ++ [a]) = some .dir) :
    t.Directories (d ++ [a]) := by
  intro q hq hne
  rcases List.prefix_concat_iff.1 hq with rfl | hq
  · exact ha
  · exact h q hq hne

omit [DecidableEq α] in
theorem Directories.congr (h : t.Directories d) (heq : ∀ q, q <+: d → u q = t q) :
    u.Directories d :=
  fun q hq hne => (heq q hq).trans (h q hq hne)

omit [DecidableEq α] in
theorem entry_of_follow (h : t.follow d = some d) (a : α) : t.entry (d ++ [a]) = some (d ++ [a]) := by
  simp [Tree.entry, h]

omit [DecidableEq α] in
theorem Directories.lstat (h : t.Directories d) (a : α) :
    t.lstat (d ++ [a]) = t (d ++ [a]) := by
  simp [Tree.lstat, entry_of_follow h.follow]

omit [DecidableEq α] in
theorem Directories.hasLink (h : t.Directories d) (a : α) :
    t.hasLink (d ++ [a]) = (t (d ++ [a])).any Node.isLink := by
  rw [Tree.hasLink, h.lstat]

omit [DecidableEq α] in
/-- The last entry is no link. -/
theorem Directories.follow_plain (h : t.Directories d) (ha : (t (d ++ [a])).any Node.isLink = false) :
    t.follow (d ++ [a]) = some (d ++ [a]) := by
  have hwalk : Tree.walk t [] (d ++ [a]) = .found (d ++ [a]) := by
    rw [h.walk, Tree.walk]
    cases hnode : t (d ++ [a]) with
    | none => rfl
    | some n =>
      cases n with
      | dir | file => rfl
      | link target =>
        rw [hnode] at ha
        cases ha
  rw [Tree.follow, resolve, hwalk]

omit [DecidableEq α] in
theorem Directories.stat_plain (h : t.Directories d) (ha : (t (d ++ [a])).any Node.isLink = false) :
    t.stat (d ++ [a]) = t (d ++ [a]) := by
  simp [Tree.stat, h.follow_plain ha]

omit [DecidableEq α] in
/-- Nothing is found below a path that does not exist. -/
theorem Directories.follow_missing (h : t.Directories d) (ha : t (d ++ [a]) = none) (b : α) :
    t.follow (d ++ [a] ++ [b]) = none := by
  have hwalk : Tree.walk t [] (d ++ [a] ++ [b]) = .missing := by
    rw [List.append_assoc, h.walk]
    simp [Tree.walk, ha]
  rw [Tree.follow, resolve, hwalk]

theorem Directories.create_missing (h : t.Directories d) (ha : t (d ++ [a]) = none) (b : α)
    (c : β) : t.create (d ++ [a] ++ [b]) c = none := by
  rw [create, h.follow_missing ha]
  rfl

/-- No file, or a regular one. -/
def plain (t : Tree α β) (p : List α) : Bool := (t p).all Node.isFile

omit [DecidableEq α] in
theorem not_link_of_plain {p : List α} (h : t.plain p = true) : (t p).any Node.isLink = false := by
  unfold plain at h
  cases ht : t p with
  | none => rfl
  | some n =>
    rw [ht] at h
    cases n with
    | file => rfl
    | dir | link => cases h

theorem Directories.create_plain (h : t.Directories d) (ha : t.plain (d ++ [a]) = true) (c : β) :
    t.create (d ++ [a]) c = some (Function.update t (d ++ [a]) (some (.file c))) := by
  rw [create, h.follow_plain (not_link_of_plain ha)]
  unfold plain at ha
  cases ht : t (d ++ [a]) with
  | none => simp [ht]
  | some n =>
    rw [ht] at ha
    cases n with
    | file => simp [ht]
    | dir | link => cases ha

omit [DecidableEq α] in
theorem Directories.hasFile_plain (h : t.Directories d) (ha : t.plain (d ++ [a]) = true) :
    t.hasFile (d ++ [a]) = (t (d ++ [a])).isSome := by
  rw [Tree.hasFile, h.stat_plain (not_link_of_plain ha)]
  unfold plain at ha
  cases ht : t (d ++ [a]) with
  | none => rfl
  | some n =>
    rw [ht] at ha
    cases n with
    | file => rfl
    | dir | link => cases ha

theorem Directories.makeDir (h : t.Directories d)
    (ha : t (d ++ [a]) = none ∨ t (d ++ [a]) = some .dir) :
    t.makeDir (d ++ [a]) = some (Function.update t (d ++ [a]) (some .dir)) := by
  rcases ha with ha | ha
  · rw [Tree.makeDir, h.follow_plain (by rw [ha]; rfl)]
    simp [ha]
  · rw [Tree.makeDir, h.follow_plain (by rw [ha]; rfl)]
    have hsame : Function.update t (d ++ [a]) (some .dir) = t := by
      rw [← ha, Function.update_eq_self]
    simp [ha, hsame]

theorem Directories.remove (h : t.Directories d) (a : α) :
    t.remove (d ++ [a]) = some (t.cut (d ++ [a])) := by
  rw [Tree.remove, entry_of_follow h.follow]
  rfl

theorem unlink_plain {p : List α} (hp : t.entry p = some p) (hplain : t.plain p = true) :
    t.unlink p = some (Function.update t p none) := by
  rw [Tree.unlink, hp]
  unfold plain at hplain
  cases ht : t p with
  | none => simp [ht]
  | some n =>
    rw [ht] at hplain
    cases n with
    | file => simp [ht]
    | dir | link => cases hplain

theorem cut_of_prefix {q r : List α} (h : q <+: r) : t.cut q r = none := if_pos h

theorem cut_of_not_prefix {q r : List α} (h : ¬ q <+: r) : t.cut q r = t r := if_neg h

end

end Tree

end LinkTree
