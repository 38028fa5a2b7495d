import Mathlib.Data.Finset.Card
import Mathlib.Data.Finset.Sort
import Mathlib.Data.Finset.Union
import Mathlib.Data.List.Basic

/-!
# Symbolic links

A finite file system with symbolic links, whose targets are texts of paths, with `.` and `..` in them.

* `FileSystem`: what is at each place; the places are the paths on which there are no links;
* `along`, `walk`, `stat`: how the system follows a path, over a bounded number of links;
* `names`, `listing`: the entries of a directory;
* `realpath`: `os.path.realpath` in its strict form, which resolves one link inside another and fails where it
  meets a link that it is still resolving;
* `Finds`, `realpath_of_walk`: where the system gets to the end of a path, `realpath` gives the same place.
-/

namespace Symlinks

variable {α β : Type*}

/-- A component in the text of a path. -/
inductive Component (α : Type*)
  | here
  | up
  | name (a : α)
  deriving DecidableEq

inductive Node (α : Type*) (β : Type*)
  | dir
  | file (content : β)
  | link (absolute : Bool) (target : List (Component α))
  /-- a socket, a pipe or a device -/
  | special

def Node.isDir : Node α β → Bool
  | .dir => true
  | _ => false

def Node.isFile : Node α β → Bool
  | .file _ => true
  | _ => false

def Node.isLink : Node α β → Bool
  | .link _ _ => true
  | _ => false

/-- A finite file system, as the partial map from the places. -/
structure FileSystem (α : Type*) (β : Type*) where
  node : List α → Option (Node α β)
  places : Finset (List α)
  mem_places : ∀ d, d ∈ places ↔ (node d).isSome = true
  root : node [] = some .dir
  parent : ∀ d a, (node (d ++ [a])).isSome = true → node d = some .dir
  /-- The number of links that the system follows on one path. -/
  limit : ℕ

/-- Where the target of a link in the directory `base` begins. -/
def start (absolute : Bool) (base : List α) : List α := if absolute then [] else base

/-- What has been met for the first time is one less to meet. -/
theorem card_sdiff_insert_lt {γ : Type*} [DecidableEq γ] {s t : Finset γ} {x : γ} (hs : x ∈ s) (ht : x ∉ t) :
    (s \ insert x t).card < (s \ t).card := by
  rw [Finset.sdiff_insert]
  exact Finset.card_erase_lt_of_mem (Finset.mem_sdiff.2 ⟨hs, ht⟩)

namespace FileSystem

variable (fs : FileSystem α β)

/-- The way along a path from the directory `base`; what is to be done at a link is a parameter. -/
def along (onLink : List α → List (Component α) → Option (List α)) :
    List α → List (Component α) → Option (List α)
  | base, [] => some base
  | base, .here :: p => along onLink base p
  | base, .up :: p => along onLink base.dropLast p
  | base, .name a :: p =>
      match fs.node (base ++ [a]) with
      | some .dir => along onLink (base ++ [a]) p
      | some (.link absolute target) => onLink (start absolute base) (target ++ p)
      | some _ => if p.isEmpty then some (base ++ [a]) else none
      | none => none

/-- The place that a path leads to over at most `n` links. -/
def walk : ℕ → List α → List (Component α) → Option (List α)
  | 0 => fs.along fun _ _ => none
  | n + 1 => fs.along (walk n)

/-- What the system finds at a path. -/
def stat (p : List (Component α)) : Option (Node α β) := (fs.walk fs.limit [] p).bind fs.node

/-- What is at an entry of a directory, which is not followed. -/
def lstat (p : List (Component α)) (a : α) : Option (Node α β) :=
  (fs.walk fs.limit [] p).bind fun d => fs.node (d ++ [a])

def isDir (p : List (Component α)) : Bool := (fs.stat p).any Node.isDir

def isFile (p : List (Component α)) : Bool := (fs.stat p).any Node.isFile

/-- The names of the entries of a directory. -/
def names [DecidableEq α] (d : List α) : Finset α :=
  (fs.places.biUnion fun q => q.toFinset).filter fun a => (fs.node (d ++ [a])).isSome

/-- The entries of the directory at a path, in their order. -/
def listing [LinearOrder α] (p : List (Component α)) : List α :=
  match fs.walk fs.limit [] p with
  | some d => (fs.names d).sort (· ≤ ·)
  | none => []

variable [DecidableEq α]

/-- The place of a path from the directory `base`, while the links in `opened` are being resolved. Python keeps the
links that it has resolved as well, which gives the same places. -/
def realpath (opened : Finset (List α)) (base : List α) : List (Component α) → Option (List α)
  | [] => some base
  | .here :: p => realpath opened base p
  | .up :: p => realpath opened base.dropLast p
  | .name a :: p =>
      match _h : fs.node (base ++ [a]) with
      | some (.link absolute target) =>
          if _hopened : base ++ [a] ∈ opened then none
          else
            (realpath (insert (base ++ [a]) opened) (start absolute base) target).bind fun b => realpath opened b p
      | some _ => realpath opened (base ++ [a]) p
      | none => none
termination_by p => ((fs.places \ opened).card, p.length)
decreasing_by
  · exact Prod.Lex.right _ (Nat.lt_succ_self _)
  · exact Prod.Lex.right _ (Nat.lt_succ_self _)
  · exact Prod.Lex.left _ _ (card_sdiff_insert_lt ((fs.mem_places _).2 (by rw [_h]; rfl)) _hopened)
  · exact Prod.Lex.right _ (Nat.lt_succ_self _)
  · exact Prod.Lex.right _ (Nat.lt_succ_self _)

/-- `p.resolve(strict=True)` of an absolute path. -/
def resolve (p : List (Component α)) : Option (List α) := fs.realpath ∅ [] p

end FileSystem

namespace FileSystem

/-- The ways that `walk` goes to the end. -/
inductive Walks (fs : FileSystem α β) : ℕ → List α → List (Component α) → List α → Prop
  | nil {n base} : Walks fs n base [] base
  | here {n base p r} : Walks fs n base p r → Walks fs n base (.here :: p) r
  | up {n base p r} : Walks fs n base.dropLast p r → Walks fs n base (.up :: p) r
  | dir {n base a p r} (hx : fs.node (base ++ [a]) = some .dir) :
      Walks fs n (base ++ [a]) p r → Walks fs n base (.name a :: p) r
  | link {n base a p r absolute target} (hx : fs.node (base ++ [a]) = some (.link absolute target)) :
      Walks fs n (start absolute base) (target ++ p) r → Walks fs (n + 1) base (.name a :: p) r
  | last {n base a x} (hx : fs.node (base ++ [a]) = some x) (hdir : x.isDir = false) (hlink : x.isLink = false) :
      Walks fs n base [.name a] (base ++ [a])

/-- Where `realpath` finds a place, with links inside one another to the depth `k`. -/
inductive Finds (fs : FileSystem α β) : ℕ → List α → List (Component α) → List α → Prop
  | nil {k base} : Finds fs k base [] base
  | here {k base p r} : Finds fs k base p r → Finds fs k base (.here :: p) r
  | up {k base p r} : Finds fs k base.dropLast p r → Finds fs k base (.up :: p) r
  | enter {k base a p r x} (hx : fs.node (base ++ [a]) = some x) (hlink : x.isLink = false) :
      Finds fs k (base ++ [a]) p r → Finds fs k base (.name a :: p) r
  | link {k base a p b r absolute target} (hx : fs.node (base ++ [a]) = some (.link absolute target)) :
      Finds fs k (start absolute base) target b → Finds fs (k + 1) b p r → Finds fs (k + 1) base (.name a :: p) r

variable {fs : FileSystem α β} {base b d r r' : List α} {p q : List (Component α)} {n k k' : ℕ} {a : α}

/-! ### Ways of the system -/

theorem along_walks {onLink : List α → List (Component α) → Option (List α)}
    (hlink : ∀ base a p absolute target, fs.node (base ++ [a]) = some (.link absolute target) →
      onLink (start absolute base) (target ++ p) = some r → Walks fs n base (.name a :: p) r)
    (h : fs.along onLink base p = some r) : Walks fs n base p r := by
  induction p generalizing base with
  | nil =>
    obtain rfl := Option.some.inj h
    exact .nil
  | cons c p ih =>
    cases c with
    | here => exact .here (ih h)
    | up => exact .up (ih h)
    | name a =>
      rw [along] at h
      split at h
      · next hx => exact .dir hx (ih h)
      · next hx => exact hlink base a p _ _ hx h
      · next x hdir hnot hx =>
        split at h
        · next hp =>
          obtain rfl := Option.some.inj h
          rw [List.isEmpty_iff.1 hp]
          cases x with
          | dir => exact absurd rfl hdir
          | link absolute target => exact absurd rfl (hnot absolute target)
          | file c => exact .last hx rfl rfl
          | special => exact .last hx rfl rfl
        · cases h
      · cases h

theorem walks_of_walk (h : fs.walk n base p = some r) : Walks fs n base p r := by
  induction n generalizing base p with
  | zero => exact along_walks (fun _ _ _ _ _ _ hnone => by cases hnone) h
  | succ n ih => exact along_walks (fun _ _ _ _ _ hx hwalk => .link hx (ih hwalk)) h

theorem Walks.walk (h : Walks fs n base p r) : fs.walk n base p = some r := by
  induction h with
  | @nil n base => cases n <;> rfl
  | @here n base p r _ ih => cases n <;> exact ih
  | @up n base p r _ ih => cases n <;> exact ih
  | @dir n base a p r hx _ ih => cases n <;> · rw [FileSystem.walk, along, hx]; exact ih
  | link hx _ ih =>
    rw [FileSystem.walk, along, hx]
    exact ih
  | @last n base a x hx hdir hlink =>
    cases x with
    | dir => cases hdir
    | link absolute target => cases hlink
    | file c => cases n <;> · rw [FileSystem.walk, along, hx]; rfl
    | special => cases n <;> · rw [FileSystem.walk, along, hx]; rfl

/-- A way along two paths comes by the end of the first. -/
theorem Walks.append (h : Walks fs n base (p ++ q) r) : ∃ b m, m ≤ n ∧ Walks fs n base p b ∧ Walks fs m b q r := by
  generalize hpq : p ++ q = l at h
  induction h generalizing p with
  | @nil n base =>
    obtain ⟨rfl, rfl⟩ := List.append_eq_nil_iff.1 hpq
    exact ⟨base, n, le_rfl, .nil, .nil⟩
  | @here n base l r hl ih =>
    rcases List.append_eq_cons_iff.1 hpq with ⟨rfl, rfl⟩ | ⟨p', rfl, rfl⟩
    · exact ⟨base, n, le_rfl, .nil, .here hl⟩
    · obtain ⟨b, m, hm, hp, hq⟩ := ih rfl
      exact ⟨b, m, hm, .here hp, hq⟩
  | @up n base l r hl ih =>
    rcases List.append_eq_cons_iff.1 hpq with ⟨rfl, rfl⟩ | ⟨p', rfl, rfl⟩
    · exact ⟨base, n, le_rfl, .nil, .up hl⟩
    · obtain ⟨b, m, hm, hp, hq⟩ := ih rfl
      exact ⟨b, m, hm, .up hp, hq⟩
  | @dir n base a l r hx hl ih =>
    rcases List.append_eq_cons_iff.1 hpq with ⟨rfl, rfl⟩ | ⟨p', rfl, rfl⟩
    · exact ⟨base, n, le_rfl, .nil, .dir hx hl⟩
    · obtain ⟨b, m, hm, hp, hq⟩ := ih rfl
      exact ⟨b, m, hm, .dir hx hp, hq⟩
  | @link n base a l r absolute target hx hl ih =>
    rcases List.append_eq_cons_iff.1 hpq with ⟨rfl, rfl⟩ | ⟨p', rfl, rfl⟩
    · exact ⟨base, n + 1, le_rfl, .nil, .link hx hl⟩
    · obtain ⟨b, m, hm, hp, hq⟩ := ih (List.append_assoc target p' q)
      exact ⟨b, m, Nat.le_succ_of_le hm, .link hx hp, hq⟩
  | @last n base a x hx hdir hlink =>
    rcases List.append_eq_cons_iff.1 hpq with ⟨rfl, rfl⟩ | ⟨p', rfl, hnil⟩
    · exact ⟨base, n, le_rfl, .nil, .last hx hdir hlink⟩
    · obtain ⟨rfl, rfl⟩ := List.append_eq_nil_iff.1 hnil.symm
      exact ⟨base ++ [a], n, le_rfl, .last hx hdir hlink, .nil⟩

/-- A way to a directory goes on to its entries. -/
theorem Walks.concat (h : Walks fs n base p d) {x : Node α β} (hx : fs.node (d ++ [a]) = some x)
    (hlink : x.isLink = false) : Walks fs n base (p ++ [.name a]) (d ++ [a]) := by
  have hend : ∀ n, Walks fs n d [.name a] (d ++ [a]) := by
    intro n
    cases hdir : x.isDir with
    | false => exact .last hx hdir hlink
    | true =>
      cases x with
      | dir => exact .dir hx .nil
      | _ => cases hdir
  have hd : fs.node d = some .dir := fs.parent d a (by rw [hx]; rfl)
  induction h with
  | nil => exact hend _
  | here _ ih => exact .here (ih hx hend hd)
  | up _ ih => exact .up (ih hx hend hd)
  | dir hdir _ ih => exact .dir hdir (ih hx hend hd)
  | @link n base b p r absolute target hl _ ih =>
    have hway := ih hx hend hd
    rw [List.append_assoc] at hway
    exact .link hl hway
  | last hb hdir _ =>
    rw [hb] at hd
    obtain rfl := Option.some.inj hd
    cases hdir

theorem node_dropLast (h : fs.node base = some .dir) : fs.node base.dropLast = some .dir := by
  rcases List.eq_nil_or_concat base with rfl | ⟨d, a, rfl⟩
  · exact h
  · rw [List.concat_eq_append, List.dropLast_concat]
    rw [List.concat_eq_append] at h
    exact fs.parent d a (by rw [h]; rfl)

theorem node_start (absolute : Bool) (h : fs.node base = some .dir) : fs.node (start absolute base) = some .dir := by
  cases absolute
  · exact h
  · exact fs.root

/-- From a directory, the system ends at something other than a link. -/
theorem Walks.node (h : Walks fs n base p r) (hbase : fs.node base = some .dir) :
    ∃ x, fs.node r = some x ∧ x.isLink = false := by
  induction h with
  | nil => exact ⟨.dir, hbase, rfl⟩
  | here _ ih => exact ih hbase
  | up _ ih => exact ih (node_dropLast hbase)
  | dir hx _ ih => exact ih hx
  | @link n base a p r absolute target hx _ ih => exact ih (node_start absolute hbase)
  | @last n base a x hx _ hlink => exact ⟨x, hx, hlink⟩

/-- What is an entry of a directory and is not found at its path is a link. -/
theorem isLink_of_lstat {x : Node α β} (h : fs.lstat p a = some x) (hnone : fs.stat (p ++ [.name a]) = none) :
    x.isLink = true := by
  obtain ⟨d, hd, hx⟩ := Option.bind_eq_some_iff.1 h
  by_contra hlink
  rw [Bool.not_eq_true] at hlink
  have hwalk := ((walks_of_walk hd).concat hx hlink).walk
  rw [stat, hwalk, Option.bind_some, hx] at hnone
  cases hnone

/-! ### Links inside one another -/

theorem Finds.mono (h : Finds fs k base p r) (hk : k ≤ k') : Finds fs k' base p r := by
  induction h generalizing k' with
  | nil => exact .nil
  | here _ ih => exact .here (ih hk)
  | up _ ih => exact .up (ih hk)
  | enter hx hlink _ ih => exact .enter hx hlink (ih hk)
  | link hx _ _ iht ihp =>
    cases k' with
    | zero => exact absurd hk (Nat.not_succ_le_zero _)
    | succ k' => exact .link hx (iht (Nat.succ_le_succ_iff.1 hk)) (ihp hk)

theorem Finds.unique (h : Finds fs k base p r) (h' : Finds fs k' base p r') : r = r' := by
  induction h generalizing k' r' with
  | nil => cases h'; rfl
  | here _ ih => cases h' with | here h' => exact ih h'
  | up _ ih => cases h' with | up h' => exact ih h'
  | enter hx hlink _ ih =>
    cases h' with
    | enter _ _ h' => exact ih h'
    | link hx' =>
      rw [hx] at hx'
      obtain rfl := Option.some.inj hx'
      cases hlink
  | link hx _ _ iht ihp =>
    cases h' with
    | enter hx' hlink' =>
      rw [hx] at hx'
      obtain rfl := Option.some.inj hx'
      cases hlink'
    | link hx' ht' hp' =>
      rw [hx] at hx'
      obtain ⟨rfl, rfl⟩ := Node.link.inj (Option.some.inj hx')
      obtain rfl := iht ht'
      exact ihp hp'

theorem Walks.finds (h : Walks fs n base p r) : ∃ k, Finds fs k base p r := by
  induction n using Nat.strong_induction_on generalizing base p r with
  | _ n ihn =>
    induction h with
    | nil => exact ⟨0, .nil⟩
    | here _ ih => exact (ih ihn).imp fun _ => .here
    | up _ ih => exact (ih ihn).imp fun _ => .up
    | dir hx _ ih => exact (ih ihn).imp fun _ => .enter hx rfl
    | @link n base a p r absolute target hx hwalk _ =>
      obtain ⟨b, m, hm, ht, hp⟩ := hwalk.append
      obtain ⟨i, hi⟩ := ihn n (Nat.lt_succ_self n) ht
      obtain ⟨j, hj⟩ := ihn m (Nat.lt_succ_of_le hm) hp
      exact ⟨max i j + 1, .link hx (hi.mono (le_max_left i j)) (hj.mono (Nat.le_succ_of_le (le_max_right i j)))⟩
    | last hx _ hlink => exact ⟨0, .enter hx hlink .nil⟩

section Realpath

variable [DecidableEq α]

theorem realpath_of_node {x : Node α β} (opened : Finset (List α)) (hx : fs.node (base ++ [a]) = some x)
    (hlink : x.isLink = false) (p : List (Component α)) :
    fs.realpath opened base (.name a :: p) = fs.realpath opened (base ++ [a]) p := by
  rw [realpath]
  split
  · next hx' =>
    rw [hx] at hx'
    obtain rfl := Option.some.inj hx'
    cases hlink
  · rfl
  · next hx' => rw [hx] at hx'; cases hx'

theorem realpath_of_link {opened : Finset (List α)} {absolute : Bool} {target : List (Component α)}
    (hx : fs.node (base ++ [a]) = some (.link absolute target)) (hopened : base ++ [a] ∉ opened)
    (p : List (Component α)) :
    fs.realpath opened base (.name a :: p) =
      (fs.realpath (insert (base ++ [a]) opened) (start absolute base) target).bind
        fun b => fs.realpath opened b p := by
  rw [realpath]
  split
  · next hx' =>
    rw [hx] at hx'
    obtain ⟨rfl, rfl⟩ := Node.link.inj (Option.some.inj hx')
    rw [dif_neg hopened]
  · next hnot hx' =>
    rw [hx] at hx'
    exact absurd (Option.some.inj hx').symm (hnot absolute target)
  · next hx' => rw [hx] at hx'; cases hx'

/-- Links from whose targets no place is found to a depth below `k`. -/
def Deep (fs : FileSystem α β) (k : ℕ) (opened : Finset (List α)) : Prop :=
  ∀ base a absolute target, base ++ [a] ∈ opened → fs.node (base ++ [a]) = some (.link absolute target) →
    ∀ j < k, ∀ b, ¬ Finds fs j (start absolute base) target b

/-- A link is not met again on the way from its target: the depth at which its place is found would be
less than the least one. -/
theorem Finds.realpath {opened : Finset (List α)} (h : Finds fs k base p r) (hopened : Deep fs k opened) :
    fs.realpath opened base p = some r := by
  induction k using Nat.strong_induction_on generalizing base p r opened with
  | _ k ihk =>
    induction h with
    | nil => rw [FileSystem.realpath]
    | here _ ih => rw [FileSystem.realpath]; exact ih ihk hopened
    | up _ ih => rw [FileSystem.realpath]; exact ih ihk hopened
    | enter hx hlink _ ih => rw [realpath_of_node opened hx hlink]; exact ih ihk hopened
    | @link k base a p b r absolute target hx ht hp _ ihp =>
      have hnew : base ++ [a] ∉ opened := fun hmem =>
        hopened base a absolute target hmem hx k (Nat.lt_succ_self k) b ht
      obtain ⟨least, hleast, hmin⟩ : ∃ i, Finds fs i (start absolute base) target b ∧
          ∀ j < i, ¬ Finds fs j (start absolute base) target b := by
        classical
        have hex : ∃ i, Finds fs i (start absolute base) target b := ⟨k, ht⟩
        exact ⟨Nat.find hex, Nat.find_spec hex, fun j hj => Nat.find_min hex hj⟩
      have hle : least ≤ k := Nat.le_of_not_lt fun hlt => hmin k hlt ht
      have hdeep : Deep fs least (insert (base ++ [a]) opened) := by
        intro base' a' absolute' target' hmem hx' j hj c hc
        rcases Finset.mem_insert.1 hmem with heq | hmem
        · obtain ⟨rfl, hsing⟩ := List.append_inj' heq rfl
          obtain rfl := List.singleton_inj.1 hsing
          rw [hx] at hx'
          obtain ⟨rfl, rfl⟩ := Node.link.inj (Option.some.inj hx')
          exact hmin j hj (hc.unique ht ▸ hc)
        · exact hopened base' a' absolute' target' hmem hx' j (by omega) c hc
      rw [realpath_of_link hx hnew, ihk least (Nat.lt_succ_of_le hle) hleast hdeep]
      exact ihp ihk hopened

theorem resolve_of_walk (h : fs.walk n [] p = some r) : fs.resolve p = some r := by
  obtain ⟨k, hk⟩ := (walks_of_walk h).finds
  exact hk.realpath fun _ _ _ _ hmem => absurd hmem (Finset.notMem_empty _)

/-- Where there is something, both ways to it end at the same place. -/
theorem exists_place {x : Node α β} (h : fs.stat p = some x) :
    ∃ r, fs.walk fs.limit [] p = some r ∧ fs.resolve p = some r ∧ fs.node r = some x ∧ x.isLink = false := by
  obtain ⟨r, hr, hx⟩ := Option.bind_eq_some_iff.1 h
  obtain ⟨x', hx', hlink⟩ := (walks_of_walk hr).node fs.root
  rw [hx] at hx'
  obtain rfl := Option.some.inj hx'
  exact ⟨r, hr, resolve_of_walk hr, hx, hlink⟩

end Realpath

section Listing

variable [LinearOrder α]

theorem mem_names {d : List α} : a ∈ fs.names d ↔ (fs.node (d ++ [a])).isSome = true := by
  rw [names, Finset.mem_filter, and_iff_right_iff_imp]
  intro h
  refine Finset.mem_biUnion.2 ⟨d ++ [a], (fs.mem_places _).2 h, ?_⟩
  rw [List.mem_toFinset]
  exact List.mem_concat_self

theorem mem_listing : a ∈ fs.listing p ↔ (fs.lstat p a).isSome = true := by
  unfold listing lstat
  cases fs.walk fs.limit [] p with
  | none => exact iff_of_false (List.not_mem_nil) (by rw [Option.bind_none]; exact Bool.false_ne_true)
  | some d => rw [Finset.mem_sort, mem_names, Option.bind_some]

theorem listing_nodup (p : List (Component α)) : (fs.listing p).Nodup := by
  unfold listing
  split
  · exact Finset.sort_nodup _ _
  · exact List.nodup_nil

end Listing

end FileSystem
end Symlinks
