import Slurmy.Lib.Attempt
import Slurmy.Lib.Dict

/-!
# A disk that programs share

File operations that may break off, in a directory tree that other programs change as well.

* `Tree`, `Op`, `Op.apply`: a finite tree and the operations on it;
* `Op.sites`, `get_apply`: an operation changes nothing but what is below its sites;
* `World`: the tree, what it would be without the program, what the program owns and has done, and how
  the disk goes on: what others change before an operation, and where operations break off;
* `perform`, `observe`: the steps of a program;
* `Agree`: the tree is what it would be without the program, on some paths.
-/

namespace Disk

variable {α : Type} {β : Type} [DecidableEq α]

/-- A directory, or a file with its mode. -/
inductive Node (β : Type)
  | dir
  | file (mode : ℕ) (content : List β)
  deriving DecidableEq

def Node.isDir : Node β → Bool
  | .dir => true
  | .file _ _ => false

/-- What the paths from the root hold. -/
abbrev Tree (α β : Type) := List (List α × Node β)

/-- `mkdirs` is `mkdir -p`, `create` wants a new file, `write` also takes an old one, `replace` is a rename of a
file that may replace another, and `discard` an `unlink` that takes no notice of a missing file. -/
inductive Op (α β : Type)
  | mkdir (p : List α)
  | mkdirs (p : List α)
  | create (p : List α) (content : List β)
  | write (p : List α) (content : List β)
  | chmod (p : List α) (mode : ℕ)
  | copyFile (p q : List α)
  | unlink (p : List α)
  | rename (p q : List α)
  | replace (p q : List α)
  | discard (p : List α)
  | rmtree (p : List α)
  deriving DecidableEq

namespace Tree

variable (t : Tree α β)

/-- Nothing is left at `p` and below. -/
def cut (p : List α) : Tree α β := t.filter fun entry => ¬ p <+: entry.1

/-- `mkdir -p` of the path with the components `rev`, the last one first. -/
def mkdirsRev : List α → Option (Tree α β)
  | [] => some t
  | a :: rev =>
      match Dict.get t (a :: rev).reverse with
      | some .dir => some t
      | some (.file _ _) => none
      | none => (mkdirsRev rev).map fun u => Dict.put u (a :: rev).reverse .dir

/-- A new path in a directory. -/
def isFree (p : List α) : Bool :=
  (Dict.get t p.dropLast).any Node.isDir && (Dict.get t p).isNone && decide (p ≠ [])

/-- A path in a directory that is not one itself. -/
def isWritable (p : List α) : Bool :=
  (Dict.get t p.dropLast).any Node.isDir && !(Dict.get t p).any Node.isDir && decide (p ≠ [])

/-- The mode that a file keeps when it is written again. -/
def modeAt (p : List α) : ℕ :=
  match Dict.get t p with
  | some (.file mode _) => mode
  | _ => 420

end Tree

/-- An operation, `none` when it fails. -/
def Op.apply : Op α β → Tree α β → Option (Tree α β)
  | .mkdir p, t => if t.isFree p then some (Dict.put t p .dir) else none
  | .mkdirs p, t => t.mkdirsRev p.reverse
  | .create p content, t => if t.isFree p then some (Dict.put t p (.file 420 content)) else none
  | .write p content, t => if t.isWritable p then some (Dict.put t p (.file (t.modeAt p) content)) else none
  | .chmod p mode, t =>
      match Dict.get t p with
      | some (.file _ content) => some (Dict.put t p (.file mode content))
      | some .dir => some t
      | none => none
  | .copyFile p q, t =>
      match Dict.get t p with
      | some (.file _ content) =>
          if t.isWritable q then some (Dict.put t q (.file (t.modeAt q) content)) else none
      | _ => none
  | .unlink p, t =>
      match Dict.get t p with
      | some (.file _ _) => some (Dict.erase t p)
      | _ => none
  | .rename p q, t =>
      if (Dict.get t p).isSome ∧ t.isFree q ∧ ¬ p <+: q then
        some (t.cut p ++ (t.filter fun entry => p <+: entry.1).map fun entry =>
          (q ++ entry.1.drop p.length, entry.2))
      else none
  | .replace p q, t =>
      match Dict.get t p with
      | some (.file mode content) =>
          if t.isWritable q then some (Dict.put (Dict.erase t p) q (.file mode content)) else none
      | _ => none
  | .discard p, t =>
      match Dict.get t p with
      | some (.file _ _) => some (Dict.erase t p)
      | some .dir => none
      | none => some t
  | .rmtree p, t => some (t.cut p)

/-- The file that a broken write leaves; it may not even have begun. -/
def tornWrite (n : ℕ) (op : List β → Op α β) (content : List β) (t : Tree α β) : Tree α β :=
  match n with
  | 0 => t
  | n + 1 => ((op (content.take n)).apply t).getD t

/-- The tree that an operation leaves when it breaks off: a part of a file, or the directories of at most
`n` components; what is deepest goes first. -/
def Op.torn (n : ℕ) : Op α β → Tree α β → Tree α β
  | .mkdirs p, t => ((Op.mkdirs p).apply t).elim t fun u =>
      u.filter fun entry => (Dict.get t entry.1).isSome || decide (entry.1.length ≤ n)
  | .create p content, t => tornWrite n (.create p) content t
  | .write p content, t => tornWrite n (.write p) content t
  | .copyFile p q, t =>
      match Dict.get t p with
      | some (.file _ content) => tornWrite n (.write q) content t
      | _ => t
  | .rmtree p, t => t.filter fun entry => ¬ p <+: entry.1 || decide (entry.1.length ≤ n)
  | _, t => t

/-- The paths that an operation changes, with what is below; `mkdirs` has none, as it only adds. -/
def Op.sites : Op α β → List (List α)
  | .mkdir p | .create p _ | .write p _ | .chmod p _ | .unlink p | .discard p | .rmtree p => [p]
  | .copyFile _ q => [q]
  | .rename p q | .replace p q => [p, q]
  | .mkdirs _ => []

/-- A directory that the operation makes on the way to another one. -/
def Op.Makes (op : Op α β) (t : Tree α β) (p : List α) : Prop :=
  ∃ q, op = .mkdirs q ∧ p <+: q ∧ ∀ b, p <+: b → b <+: q → Dict.get t b = none

theorem get_cut (t : Tree α β) (p q : List α) :
    Dict.get (t.cut p) q = if p <+: q then none else Dict.get t q := by
  have hfilter := Dict.get_filter (fun key => decide (¬ p <+: key)) t q
  unfold Tree.cut
  rw [hfilter]
  by_cases hq : p <+: q
  · simp [hq]
  · simp [hq]

theorem mkdirsRev_apply {t u : Tree α β} {rev : List α} (h : t.mkdirsRev rev = some u) (p : List α) :
    Dict.get u p = Dict.get t p ∨
      (p <+: rev.reverse ∧ ∀ b, p <+: b → b <+: rev.reverse → Dict.get t b = none) := by
  induction rev generalizing u with
  | nil =>
    cases h
    exact .inl rfl
  | cons a rev ih =>
    rw [Tree.mkdirsRev] at h
    split at h
    · cases h
      exact .inl rfl
    · cases h
    · next hnone =>
      obtain ⟨v, hv, rfl⟩ := Option.map_eq_some_iff.1 h
      by_cases hp : p = (a :: rev).reverse
      · refine .inr ⟨hp ▸ List.prefix_refl _, fun b hpb hb => ?_⟩
        have hb' : b = (a :: rev).reverse := hb.eq_of_length_le (hp ▸ hpb).length_le
        rw [hb', hnone]
      · rw [Dict.get_put_of_ne v .dir hp]
        rcases ih hv with heq | ⟨hpre, hall⟩
        · exact .inl heq
        · refine .inr ⟨?_, fun b hpb hb => ?_⟩
          · rw [List.reverse_cons]
            exact hpre.trans (List.prefix_append _ _)
          · by_cases hbq : b = (a :: rev).reverse
            · rw [hbq, hnone]
            · apply hall b hpb
              rw [List.reverse_cons] at hb hbq
              exact (List.prefix_concat_iff.1 hb).resolve_left hbq

/-- An operation changes nothing but what is below its sites, and missing directories. -/
theorem get_apply {op : Op α β} {t u : Tree α β} (h : op.apply t = some u) {p : List α}
    (hp : ∀ site ∈ op.sites, ¬ site <+: p) : Dict.get u p = Dict.get t p ∨ op.Makes t p := by
  have hput : ∀ {q : List α} {n : Node β}, ¬ q <+: p → Dict.get (Dict.put t q n) p = Dict.get t p := by
    intro q n hq
    apply Dict.get_put_of_ne
    rintro rfl
    exact hq (List.prefix_refl _)
  cases op with
  | mkdirs q =>
    rcases mkdirsRev_apply h p with heq | ⟨hpre, hall⟩
    · exact .inl heq
    · rw [List.reverse_reverse] at hpre hall
      exact .inr ⟨q, rfl, hpre, hall⟩
  | mkdir q =>
    have hq := hp q List.mem_cons_self
    rw [Op.apply] at h
    split at h
    · cases h
      exact .inl (hput hq)
    · cases h
  | create q content =>
    have hq := hp q List.mem_cons_self
    rw [Op.apply] at h
    split at h
    · cases h
      exact .inl (hput hq)
    · cases h
  | write q content =>
    have hq := hp q List.mem_cons_self
    rw [Op.apply] at h
    split at h
    · cases h
      exact .inl (hput hq)
    · cases h
  | chmod q mode =>
    have hq := hp q List.mem_cons_self
    rw [Op.apply] at h
    split at h
    · cases h
      exact .inl (hput hq)
    · cases h
      exact .inl rfl
    · cases h
  | copyFile r q =>
    have hq := hp q List.mem_cons_self
    rw [Op.apply] at h
    split at h
    · split at h
      · cases h
        exact .inl (hput hq)
      · cases h
    · cases h
  | unlink q =>
    have hq := hp q List.mem_cons_self
    rw [Op.apply] at h
    split at h
    · cases h
      refine .inl ((Dict.get_erase t q p).trans (if_neg ?_))
      rintro rfl
      exact hq (List.prefix_refl _)
    · cases h
  | rename r q =>
    have hr := hp r List.mem_cons_self
    have hq := hp q (List.mem_cons_of_mem r List.mem_cons_self)
    rw [Op.apply] at h
    split at h
    · cases h
      have hmoved : Dict.get ((t.filter fun entry => r <+: entry.1).map fun entry =>
          (q ++ entry.1.drop r.length, entry.2)) p = none := by
        apply Dict.get_eq_none
        rintro entry hentry rfl
        obtain ⟨e, -, rfl⟩ := List.mem_map.1 hentry
        exact hq (List.prefix_append _ _)
      rw [Dict.get_append, hmoved, Option.or_none, get_cut, if_neg hr]
      exact .inl rfl
    · cases h
  | replace r q =>
    have hr := hp r List.mem_cons_self
    have hq := hp q (List.mem_cons_of_mem r List.mem_cons_self)
    rw [Op.apply] at h
    split at h
    · split at h
      · cases h
        have hrp : p ≠ r := by
          rintro rfl
          exact hr (List.prefix_refl _)
        have hqp : p ≠ q := by
          rintro rfl
          exact hq (List.prefix_refl _)
        rw [Dict.get_put_of_ne _ _ hqp, Dict.get_erase, if_neg hrp]
        exact .inl rfl
      · cases h
    · cases h
  | discard q =>
    have hq := hp q List.mem_cons_self
    rw [Op.apply] at h
    split at h
    · cases h
      refine .inl ((Dict.get_erase t q p).trans (if_neg ?_))
      rintro rfl
      exact hq (List.prefix_refl _)
    · cases h
    · cases h
      exact .inl rfl
  | rmtree q =>
    cases h
    rw [get_cut, if_neg (hp q List.mem_cons_self)]
    exact .inl rfl

theorem get_getD_apply {op : Op α β} {t : Tree α β} {p : List α} (hp : ∀ site ∈ op.sites, ¬ site <+: p)
    (hop : ∀ q, op ≠ .mkdirs q) : Dict.get ((op.apply t).getD t) p = Dict.get t p := by
  cases h : op.apply t with
  | none => rfl
  | some u =>
    rcases get_apply h hp with heq | ⟨q, hq, -⟩
    · exact heq
    · exact absurd hq (hop q)

theorem get_tornWrite {op : List β → Op α β} {t : Tree α β} {p : List α} (n : ℕ) (content : List β)
    (hp : ∀ content, ∀ site ∈ (op content).sites, ¬ site <+: p) (hop : ∀ content q, op content ≠ .mkdirs q) :
    Dict.get (tornWrite n op content t) p = Dict.get t p := by
  cases n with
  | zero => rfl
  | succ n => exact get_getD_apply (hp _) (hop _)

theorem get_torn {op : Op α β} {t : Tree α β} {p : List α} (n : ℕ) (hp : ∀ site ∈ op.sites, ¬ site <+: p) :
    Dict.get (op.torn n t) p = Dict.get t p ∨ op.Makes t p := by
  cases op with
  | mkdirs q =>
    rw [Op.torn]
    cases h : (Op.mkdirs q : Op α β).apply t with
    | none => exact .inl rfl
    | some u =>
      have hfilter := Dict.get_filter (fun key => (Dict.get t key).isSome || decide (key.length ≤ n)) u p
      rw [Option.elim_some, hfilter]
      split
      · exact get_apply h hp
      · next hkeep =>
        rw [Bool.not_eq_true, Bool.or_eq_false_iff] at hkeep
        exact .inl (Option.isSome_eq_false_iff.1 hkeep.1 |> Option.isNone_iff_eq_none.1).symm
  | create q content => exact .inl (get_tornWrite n content (fun _ => hp) fun _ r hr => by cases hr)
  | write q content => exact .inl (get_tornWrite n content (fun _ => hp) fun _ r hr => by cases hr)
  | copyFile r q =>
    rw [Op.torn]
    split
    · next mode content _ => exact .inl (get_tornWrite n content (fun _ => hp) fun _ r hr => by cases hr)
    · exact .inl rfl
  | replace r q => exact .inl rfl
  | discard q => exact .inl rfl
  | mkdir q => exact .inl rfl
  | chmod q mode => exact .inl rfl
  | unlink q => exact .inl rfl
  | rename r q => exact .inl rfl
  | rmtree q =>
    have hq := hp q List.mem_cons_self
    rw [Op.torn, Dict.get_filter (fun key => ¬ q <+: key || decide (key.length ≤ n)), if_pos]
    · exact .inl rfl
    · simp [hq]

/-! ### The world -/

/-- Other programs put something else at `entry`; without a node at the entry there is nothing below. -/
structure Change (α β : Type) [DecidableEq α] where
  entry : List α
  contents : Tree α β
  rooted : Dict.get contents [] = none → contents = []

/-- What happens with the next operation: changes before it, and where it breaks off. -/
structure Step (α β : Type) [DecidableEq α] where
  changes : List (Change α β)
  fault : Option ℕ

/-- `alone` is the tree without the program; others keep off what is in `own`. The operations that have
not succeeded are in `broken`. -/
structure World (α β : Type) [DecidableEq α] where
  tree : Tree α β
  alone : Tree α β
  own : List (List α)
  log : List (Op α β)
  broken : List (Op α β)
  steps : List (Step α β)

namespace Change

def apply (t : Tree α β) (c : Change α β) : Tree α β :=
  t.cut c.entry ++ c.contents.map fun entry => (c.entry ++ entry.1, entry.2)

/-- The change leaves the paths in `own` alone, with what is above and below. -/
def Keeps (own : List (List α)) (c : Change α β) : Prop := ∀ p ∈ own, ¬ c.entry <+: p ∧ ¬ p <+: c.entry

instance (own : List (List α)) (c : Change α β) : Decidable (c.Keeps own) := by
  unfold Keeps
  infer_instance

theorem get_apply (t : Tree α β) (c : Change α β) (p : List α) :
    Dict.get (c.apply t) p = if c.entry <+: p then Dict.get c.contents (p.drop c.entry.length) else Dict.get t p := by
  have hnew : Dict.get (c.contents.map fun entry => (c.entry ++ entry.1, entry.2)) p =
      if c.entry <+: p then Dict.get c.contents (p.drop c.entry.length) else none := by
    split
    · next hentry =>
      obtain ⟨q, rfl⟩ := hentry
      rw [List.drop_left]
      induction c.contents with
      | nil => rfl
      | cons e contents ih =>
        rw [List.map_cons, Dict.get_cons, Dict.get_cons, ih]
        simp only [List.append_cancel_left_eq]
    · next hentry =>
      apply Dict.get_eq_none
      rintro e he rfl
      obtain ⟨e', -, rfl⟩ := List.mem_map.1 he
      exact hentry (List.prefix_append _ _)
  unfold apply
  rw [Dict.get_append, get_cut, hnew]
  split
  · exact Option.none_or
  · exact Option.or_none

end Change

namespace World

variable (w : World α β)

/-- The tree after the changes that keep off what the program owns. -/
def changed (changes : List (Change α β)) (t : Tree α β) : Tree α β :=
  (changes.filter fun c => c.Keeps w.own).foldl Change.apply t

/-- The world at the next operation, and where that breaks off. -/
def next : Option ℕ × World α β :=
  match w.steps with
  | [] => (none, w)
  | step :: steps =>
      (step.fault, { w with
        tree := w.changed step.changes w.tree, alone := w.changed step.changes w.alone, steps := steps })

def note (op : Op α β) : World α β := { w with log := w.log ++ [op] }

def noteBroken (op : Op α β) : World α β := { w with log := w.log ++ [op], broken := w.broken ++ [op] }

end World

variable {ε : Type}

/-- One operation of the program; `e` is its error. -/
def perform (e : ε) (op : Op α β) : EStateM ε (World α β) Unit := fun w =>
  match w.next with
  | (some n, w) => .error e { w.noteBroken op with tree := op.torn n w.tree }
  | (none, w) =>
      match op.apply w.tree with
      | some t => .ok () { w.note op with tree := t }
      | none => .error e (w.noteBroken op)

/-- A look at the tree. -/
def observe (e : ε) : EStateM ε (World α β) (Tree α β) := fun w =>
  match w.next with
  | (some _, w) => .error e w
  | (none, w) => .ok w.tree w

/-- From now on others keep off `p`. -/
def claim (p : List α) : EStateM ε (World α β) Unit := fun w => .ok () { w with own := w.own ++ [p] }

/-! ### What the program leaves alone -/

/-- The tree is what it would be without the program, on the paths in `S`. -/
def Agree (S : Set (List α)) (w : World α β) : Prop := ∀ p ∈ S, Dict.get w.tree p = Dict.get w.alone p

section Changed

variable {w : World α β} {changes : List (Change α β)} {t u : Tree α β} {p : List α}

theorem get_changed_congr (h : Dict.get t p = Dict.get u p) :
    Dict.get (w.changed changes t) p = Dict.get (w.changed changes u) p := by
  unfold World.changed
  induction changes.filter fun c => c.Keeps w.own generalizing t u with
  | nil => exact h
  | cons c changes ih =>
    rw [List.foldl_cons, List.foldl_cons]
    apply ih
    rw [Change.get_apply, Change.get_apply, h]

/-- Others keep off what the program owns, and off what is above and below. -/
theorem get_changed_of_own {o : List α} (ho : o ∈ w.own) (hp : o <+: p ∨ p <+: o) :
    Dict.get (w.changed changes t) p = Dict.get t p := by
  unfold World.changed
  have hkeeps : ∀ c ∈ changes.filter (fun c => c.Keeps w.own), c.Keeps w.own := fun c hc =>
    of_decide_eq_true (List.mem_filter.1 hc).2
  generalize changes.filter (fun c => c.Keeps w.own) = kept at hkeeps
  induction kept generalizing t with
  | nil => rfl
  | cons c kept ih =>
    obtain ⟨hentry, hbelow⟩ := hkeeps c List.mem_cons_self o ho
    rw [List.foldl_cons, ih fun d hd => hkeeps d (List.mem_cons_of_mem c hd), Change.get_apply, if_neg]
    intro hpre
    rcases hp with hp | hp
    · exact (List.prefix_or_prefix_of_prefix hpre hp).elim hentry hbelow
    · exact hentry (hpre.trans hp)

/-- Below `d` there is nothing without a node at `d`. -/
def Rooted (d : List α) (t : Tree α β) : Prop := Dict.get t d = none → ∀ q, d <+: q → Dict.get t q = none

/-- The change is at `d` as a whole, or elsewhere. -/
def Change.Apart (d : List α) (c : Change α β) : Prop := c.entry = d ∨ (¬ d <+: c.entry ∧ ¬ c.entry <+: d)

theorem Rooted.apply {d : List α} (h : Rooted d t) {c : Change α β} (hc : c.Apart d) : Rooted d (c.apply t) := by
  intro hnone q hq
  rw [Change.get_apply] at hnone ⊢
  rcases hc with rfl | ⟨hbelow, habove⟩
  · rw [if_pos (List.prefix_refl _), List.drop_length] at hnone
    rw [if_pos hq, c.rooted hnone]
    rfl
  · rw [if_neg habove] at hnone
    rw [if_neg fun hentry => (List.prefix_or_prefix_of_prefix hentry hq).elim habove hbelow]
    exact h hnone q hq

theorem Rooted.changed {d : List α} (h : Rooted d t) (hchanges : ∀ c ∈ changes, c.Apart d) :
    Rooted d (w.changed changes t) := by
  unfold World.changed
  have hkept : ∀ c ∈ changes.filter (fun c => c.Keeps w.own), c.Apart d := fun c hc =>
    hchanges c (List.mem_filter.1 hc).1
  generalize changes.filter (fun c => c.Keeps w.own) = kept at hkept
  induction kept generalizing t with
  | nil => exact h
  | cons c kept ih =>
    exact ih (h.apply (hkept c List.mem_cons_self)) fun e he => hkept e (List.mem_cons_of_mem c he)

end Changed

/-! ### Steps of a program -/

section Steps

variable {w : World α β} {S : Set (List α)} {d : List α} {op : Op α β} {e : ε}

@[simp] theorem own_next (w : World α β) : w.next.2.own = w.own := by
  unfold World.next
  split <;> rfl

@[simp] theorem log_next (w : World α β) : w.next.2.log = w.log := by
  unfold World.next
  split <;> rfl

@[simp] theorem broken_next (w : World α β) : w.next.2.broken = w.broken := by
  unfold World.next
  split <;> rfl

theorem steps_next (w : World α β) : w.next.2.steps ⊆ w.steps := by
  unfold World.next
  split
  · exact List.Subset.refl _
  · next step steps heq =>
    rw [heq]
    exact List.subset_cons_self step steps

theorem Agree.next (h : Agree S w) : Agree S w.next.2 := by
  unfold World.next
  split
  · exact h
  · exact fun p hp => get_changed_congr (h p hp)

theorem get_next_of_own {o p : List α} (ho : o ∈ w.own) (hp : o <+: p ∨ p <+: o) :
    Dict.get w.next.2.tree p = Dict.get w.tree p ∧ Dict.get w.next.2.alone p = Dict.get w.alone p := by
  unfold World.next
  split
  · exact ⟨rfl, rfl⟩
  · exact ⟨get_changed_of_own ho hp, get_changed_of_own ho hp⟩

theorem Rooted.next (h : Rooted d w.alone) (hsteps : ∀ step ∈ w.steps, ∀ c ∈ step.changes, c.Apart d) :
    Rooted d w.next.2.alone := by
  unfold World.next
  split
  · exact h
  · next step steps heq =>
    exact h.changed (hsteps step (heq ▸ List.mem_cons_self))

/-- What an operation does, if it succeeds, breaks off or fails. -/
theorem perform_cases (e : ε) (op : Op α β) (w : World α β) :
    (∃ t, op.apply w.next.2.tree = some t ∧ perform e op w = .ok () { w.next.2.note op with tree := t }) ∨
      ∃ t, (t = w.next.2.tree ∨ ∃ n, t = op.torn n w.next.2.tree) ∧
        perform e op w = .error e { w.next.2.noteBroken op with tree := t } := by
  unfold perform
  cases hnext : w.next with
  | mk fault w' =>
    cases fault with
    | some n => exact .inr ⟨op.torn n w'.tree, .inr ⟨n, rfl⟩, rfl⟩
    | none =>
      cases happly : op.apply w'.tree with
      | some t => exact .inl ⟨t, rfl, by simp only [happly]⟩
      | none => exact .inr ⟨w'.tree, .inl rfl, by simp only [happly]; rfl⟩

/-- Nothing that has broken is forgotten. -/
theorem broken_perform (e : ε) (op : Op α β) (w : World α β) :
    w.broken ⊆ (Attempt.state (perform e op w)).broken ∧
      ∀ e' w', perform e op w = .error e' w' → op ∈ w'.broken := by
  rcases perform_cases e op w with ⟨t, -, heq⟩ | ⟨t, -, heq⟩
  · rw [heq]
    exact ⟨(broken_next w).symm ▸ List.Subset.refl _, fun e' w' h => by cases h⟩
  · rw [heq]
    refine ⟨(broken_next w).symm ▸ List.subset_append_left _ _, fun e' w' h => ?_⟩
    cases h
    exact List.mem_append_right _ List.mem_cons_self

/-- The paths that an operation does not concern. -/
def Op.Spares (op : Op α β) (t : Tree α β) (p : List α) : Prop :=
  (∀ site ∈ op.sites, ¬ site <+: p) ∧ ¬ op.Makes t p

/-- The operation works strictly below some directories. -/
def Op.Within (bases : List (List α)) (op : Op α β) : Prop :=
  (∀ site ∈ op.sites, ∃ b ∈ bases, b <+: site ∧ b ≠ site) ∧ ∀ q, op = .mkdirs q → ∃ b ∈ bases, b <+: q

/-- An operation below some directories spares what is not strictly below one of them. -/
theorem Op.Within.spares {bases : List (List α)} (h : op.Within bases) {t : Tree α β}
    (hdirs : ∀ b ∈ bases, Dict.get t b = some .dir) {p : List α} (hp : ∀ b ∈ bases, b <+: p → b = p) :
    op.Spares t p := by
  constructor
  · intro site hsite hpre
    obtain ⟨b, hb, hbelow, hne⟩ := h.1 site hsite
    have hbp := hp b hb (hbelow.trans hpre)
    exact hne (hbelow.eq_of_length_le (hbp ▸ hpre.length_le))
  · rintro ⟨q, rfl, hpq, hnone⟩
    obtain ⟨b, hb, hbq⟩ := h.2 q rfl
    have hdir := hdirs b hb
    rcases List.prefix_or_prefix_of_prefix hpq hbq with hpb | hbp
    · rw [hnone b hpb hbq] at hdir
      cases hdir
    · rw [hnone b (hp b hb hbp ▸ List.prefix_refl _) hbq] at hdir
      cases hdir

/-- A spared path holds what it held. -/
theorem get_perform {p : List α} (hspares : op.Spares w.next.2.tree p) :
    Dict.get (Attempt.state (perform e op w)).tree p = Dict.get w.next.2.tree p := by
  rcases perform_cases e op w with ⟨t, happly, heq⟩ | ⟨t, ht, heq⟩
  · rw [heq]
    exact (get_apply happly hspares.1).resolve_right hspares.2
  · rw [heq]
    rcases ht with rfl | ⟨n, rfl⟩
    · rfl
    · exact (get_torn n hspares.1).resolve_right hspares.2

theorem perform_frame (e : ε) (op : Op α β) (w : World α β) :
    (Attempt.state (perform e op w)).alone = w.next.2.alone ∧ (Attempt.state (perform e op w)).own = w.own ∧
      (Attempt.state (perform e op w)).log = w.log ++ [op] ∧ (Attempt.state (perform e op w)).steps = w.next.2.steps := by
  rcases perform_cases e op w with ⟨t, -, heq⟩ | ⟨t, -, heq⟩
  · rw [heq]
    exact ⟨rfl, own_next w, congrArg (· ++ [op]) (log_next w), rfl⟩
  · rw [heq]
    exact ⟨rfl, own_next w, congrArg (· ++ [op]) (log_next w), rfl⟩

/-- The state of a program that works below the directories in `own`: elsewhere, on the paths in `S`, the
tree is as without it. -/
structure Confined (S : Set (List α)) (d : List α) (own : List (List α)) (G : List (Op α β) → Prop)
    (w : World α β) : Prop where
  agree : Agree S w
  own_eq : w.own = own
  dirs : ∀ o ∈ own, Dict.get w.tree o = some .dir
  log : G w.log
  rooted : Rooted d w.alone
  steps : ∀ step ∈ w.steps, ∀ c ∈ step.changes, c.Apart d

variable {own : List (List α)} {G G' : List (Op α β) → Prop}

theorem Confined.next (h : Confined S d own G w) : Confined S d own G w.next.2 where
  agree := h.agree.next
  own_eq := (own_next w).trans h.own_eq
  dirs o ho := (get_next_of_own (h.own_eq ▸ ho) (.inl (List.prefix_refl o))).1.trans (h.dirs o ho)
  log := log_next w ▸ h.log
  rooted := h.rooted.next h.steps
  steps step hstep := h.steps step (steps_next w hstep)

/-- A step of the program, when it spares the paths in `S` and the directories. -/
theorem Confined.perform (h : Confined S d own G w) (hop : ∀ log, G log → G' (log ++ [op]))
    (hS : ∀ p ∈ S, op.Spares w.next.2.tree p) (hown : ∀ o ∈ own, op.Spares w.next.2.tree o) :
    Confined S d own G' (Attempt.state (perform e op w)) := by
  obtain ⟨halone, hownEq, hlog, hsteps⟩ := perform_frame e op w
  have hnext := h.next
  refine ⟨fun p hp => ?_, hownEq.trans h.own_eq, fun o ho => ?_, ?_, ?_, ?_⟩
  · rw [get_perform (hS p hp), halone]
    exact hnext.agree p hp
  · rw [get_perform (hown o ho)]
    exact hnext.dirs o ho
  · rw [hlog]
    exact hop _ h.log
  · rw [halone]
    exact hnext.rooted
  · rw [hsteps]
    exact hnext.steps

end Steps

/-! ### Confined programs -/

section Programs

open Attempt (Triple)

variable {S S' : Set (List α)} {d o : List α} {own : List (List α)} {G G' : List (Op α β) → Prop} {e : ε} {op : Op α β}

/-- The directories lie apart from each other and from `S`. -/
def Separate (S : Set (List α)) (own : List (List α)) : Prop :=
  (∀ p ∈ S, ∀ o ∈ own, ¬ o <+: p) ∧ ∀ o ∈ own, ∀ o' ∈ own, o <+: o' → o = o'

theorem triple_of_state {P : World α β → Prop} {γ : Type} {m : EStateM ε (World α β) γ}
    (h : ∀ w, P w → P (Attempt.state (m w))) : Triple P m (fun _ => P) P := by
  intro w hw
  have hafter := h w hw
  cases hm : m w with
  | ok a w' => rwa [hm] at hafter
  | error e w' => rwa [hm] at hafter

/-- An operation below the directories keeps a program confined. -/
theorem triple_perform (hsep : Separate S own) (hop : op.Within own) (hG : ∀ log, G log → G (log ++ [op])) :
    Triple (Confined S d own G) (perform e op) (fun _ => Confined S d own G) (Confined S d own G) := by
  apply triple_of_state
  intro w hw
  refine hw.perform hG (fun p hp => ?_) fun o ho => ?_
  · exact hop.spares hw.next.dirs fun b hb hbp => absurd hbp (hsep.1 p hp b hb)
  · exact hop.spares hw.next.dirs fun b hb hbo => hsep.2 b hb o ho hbo

theorem triple_observe :
    Triple (Confined S d own G) (observe e) (fun _ => Confined S d own G) (Confined S d own G) := by
  apply triple_of_state
  intro w hw
  have hnext := hw.next
  unfold observe
  cases h : w.next with
  | mk fault w' =>
    rw [h] at hnext
    cases fault <;> exact hnext

theorem Confined.mono {w : World α β} (h : Confined S d own G w) (hS : S' ⊆ S) : Confined S' d own G w :=
  { h with agree := fun p hp => h.agree p (hS hp) }

/-- A new directory `o`, which is not there without the program either. -/
theorem triple_mkdir (hS : ∀ p ∈ S', p ∈ S ∧ ¬ o <+: p) (hown : ∀ b ∈ own, ¬ o <+: b)
    (hG : ∀ log, G log → G' (log ++ [.mkdir o])) :
    Triple (Confined S d own G) (perform e (.mkdir o))
      (fun _ w => Confined S' d own G' w ∧ Dict.get w.tree o = some .dir ∧ (o ∈ S → Dict.get w.alone o = none))
      (Confined S d own G') := by
  intro w hw
  have hspares : ∀ p, ¬ o <+: p → (Op.mkdir o : Op α β).Spares w.next.2.tree p := fun p hp =>
    ⟨fun site hsite => List.mem_singleton.1 hsite ▸ hp, fun ⟨q, hq, _⟩ => by cases hq⟩
  have hconfined : Confined S' d own G' (Attempt.state (perform e (.mkdir o) w)) :=
    (hw.mono fun p hp => (hS p hp).1).perform hG (fun p hp => hspares p (hS p hp).2) fun b hb => hspares b (hown b hb)
  rcases perform_cases e (.mkdir o) w with ⟨t, happly, heq⟩ | ⟨t, ht, heq⟩
  · rw [heq] at hconfined ⊢
    rw [Op.apply] at happly
    split at happly
    · next hfree =>
      cases happly
      refine ⟨hconfined, Dict.get_put_self _ _ _, fun ho => ?_⟩
      unfold Tree.isFree at hfree
      rw [Bool.and_eq_true, Bool.and_eq_true] at hfree
      exact (hw.next.agree o ho).symm.trans (Option.isNone_iff_eq_none.1 hfree.1.2)
    · cases happly
  · rw [heq] at hconfined ⊢
    have htree : t = w.next.2.tree := ht.elim id fun ⟨_, hn⟩ => hn
    refine { hconfined with agree := fun p hp => ?_ }
    rw [htree]
    exact hw.next.agree p hp

/-- The directory is there, and the program keeps it from now on. -/
theorem Confined.claim {w : World α β} (h : Confined S d own G w) (ho : Dict.get w.tree o = some .dir) :
    Confined S d (own ++ [o]) G { w with own := w.own ++ [o] } := by
  refine ⟨h.agree, congrArg (· ++ [o]) h.own_eq, fun b hb => ?_, h.log, h.rooted, h.steps⟩
  rcases List.mem_append.1 hb with hb | hb
  · exact h.dirs b hb
  · exact (List.mem_singleton.1 hb).symm ▸ ho

/-- The removal of a tree outside `S`. -/
theorem Agree.rmtree {w : World α β} {p : List α} (h : Agree S w) (hp : ∀ q ∈ S, ¬ p <+: q) :
    Agree S (Attempt.state (perform e (.rmtree p) w)) := by
  intro q hq
  have hspares : (Op.rmtree p : Op α β).Spares w.next.2.tree q :=
    ⟨fun site hsite => List.mem_singleton.1 hsite ▸ hp q hq, fun ⟨r, hr, _⟩ => by cases hr⟩
  rw [get_perform hspares, (perform_frame e _ w).1]
  exact h.next q hq

end Programs

end Disk
