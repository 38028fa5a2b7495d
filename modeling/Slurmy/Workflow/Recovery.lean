import Mathlib.Data.Bool.AllAny
import Mathlib.Data.List.AList
import Slurmy.Lib.Machine
import Slurmy.Lib.StableSort
import Slurmy.Text

/-!
# Recovering deleted workflows

A workflow that is deleted goes to the recovery directory, under its name and the time, and can be restored or removed
from there (`delete_workflow` of `workflows.py`, and `recovery.py`).

* `Store`, `Request`, `step`: the two directories, and the requests that the web application accepts, one at a time;
* `nameOf`, `stampOf`, `isArchiveId`: the names in the recovery directory;
* `entry`, `entries`: what `recovery.py` finds there;
* `step_cases`: what a request can do;
* `Archived`, `archived_run`: a deleted workflow stays until its own archive is restored or removed;
* `recoverable`: it is listed, and it comes back as it was.
-/

namespace Slurmy
namespace Workflow
namespace Recovery

/-! ### The names -/

/-- The part before the last hyphen, of `archive_id.rsplit('-', 1)`. -/
def nameOf (id : Text) : Text := (id.rdropWhile (· ≠ '-')).dropLast

/-- The part behind it. -/
def stampOf (id : Text) : Text := id.rtakeWhile (· ≠ '-')

/-- `[^/\\]+-[0-9]{15,20}`; the digits have no hyphen, so the last one is in front of them. -/
def isArchiveId (id : Text) : Bool :=
  decide (nameOf id ≠ []) && (nameOf id).all (fun c => c ≠ '/' && c ≠ '\\') && (stampOf id).all Char.isDigit &&
    decide (15 ≤ (stampOf id).length ∧ (stampOf id).length ≤ 20)

/-- `f'{source.name}-{time.time_ns()}'`. -/
def archiveId (name : Text) (now : ℕ) : Text := name ++ '-' :: decimal now

/-- `name.removeprefix('example-')`. -/
def shown (name : Text) : Text := if "example-".toList <+: name then name.drop "example-".toList.length else name

/-! ### The directories -/

variable {β : Type}

/-- What a directory has: a regular file, or something else. -/
structure Child (β : Type) where
  isFile : Bool
  content : β

/-- An entry of one of the two directories. -/
inductive Item (β : Type)
  | dir (children : List (Text × Child β))
  | other

abbrev Items (β : Type) := AList fun _ : Text => Item β

/-- The recovery directory: a link to a directory is followed by `delete_workflow` only, and `other` is a file. -/
inductive Root (β : Type)
  | absent
  | dir (items : Items β)
  | link (items : Items β)
  | other

/-- `USER_RUNS`, but for the recovery directory in it, and the recovery directory. -/
structure Store (β : Type) where
  runs : Items β
  deleted : Root β

def recoveryName : Text := ".deleted-workflows".toList

/-- A name that is in use in `USER_RUNS`. -/
def Store.taken (s : Store β) (name : Text) : Bool :=
  decide (name ∈ s.runs) || match s.deleted with
    | .absent => false
    | _ => decide (name = recoveryName)

/-- A directory of workflows is one with a `Makefile`. -/
def workflowAt (runs : Items β) (name : Text) : Option (List (Text × Child β)) :=
  match runs.lookup name with
  | some (.dir children) =>
      if (children.lookup "Makefile".toList).any Child.isFile then some children else none
  | _ => none

/-- A directory can be renamed to this path: there is nothing, or an empty directory. -/
def gives (items : Items β) (id : Text) : Bool :=
  match items.lookup id with
  | none => true
  | some (.dir []) => true
  | some _ => false

/-- `entry(archive_id)`: the name, and what is there. -/
def entry (root : Root β) (id : Text) : Option (Text × List (Text × Child β)) :=
  match root with
  | .dir items =>
      match items.lookup id with
      | some (.dir children) =>
          if isArchiveId id ∧ nameOf id ∉ [['.'], ['.', '.']] then some (nameOf id, children) else none
      | _ => none
  | _ => none

/-- `entries()`: the archives with their names, the newest first. -/
def entries : Root β → Option (List (Text × Text))
  | .dir items =>
      some (StableSort.sortBy (fun item => OrderDual.toDual (number (stampOf item.1)))
        (items.keys.filterMap fun id => (entry (.dir items) id).map fun e => (id, e.1)))
  | .absent => some []
  | .link _ => none
  | .other => some []

/-! ### The requests -/

/-- `busy` says that an operation is running for the workflow; `others` is whatever else happens to the workflows. -/
inductive Request (β : Type)
  | delete (name confirm : Text) (permanent busy : Bool) (now : ℕ)
  | restore (id : Text)
  | remove (id confirm : Text)
  | others (runs : Items β)

/-- `delete_workflow`, without `permanent`. -/
def archive (s : Store β) (name : Text) (children : List (Text × Child β)) (now : ℕ) : Option (Store β) :=
  let put (items : Items β) : Option (Items β) :=
    if gives items (archiveId name now) then some (items.insert (archiveId name now) (.dir children)) else none
  match s.deleted with
  | .absent => (put ∅).map fun items => ⟨s.runs.erase name, .dir items⟩
  | .dir items => (put items).map fun items => ⟨s.runs.erase name, .dir items⟩
  | .link items => (put items).map fun items => ⟨s.runs.erase name, .link items⟩
  | .other => none

/-- The recovery directory without an archive. -/
def Root.erase : Root β → Text → Root β
  | .dir items, id => .dir (items.erase id)
  | root, _ => root

/-- A request that is accepted. -/
def step (s : Store β) : Request β → Option (Store β)
  | .delete name confirm permanent busy now =>
      (workflowAt s.runs name).bind fun children =>
        if confirm = shown name ∧ ¬ busy then
          if permanent then some { s with runs := s.runs.erase name } else archive s name children now
        else none
  | .restore id =>
      (entry s.deleted id).bind fun e =>
        if s.taken e.1 then none else some ⟨s.runs.insert e.1 (.dir e.2), s.deleted.erase id⟩
  | .remove id confirm =>
      (entry s.deleted id).bind fun e =>
        if confirm = shown e.1 then some { s with deleted := s.deleted.erase id } else none
  | .others runs => some { s with runs := runs }

/-! ### The names come back -/

variable {name : Text} {now : ℕ}

theorem hyphen_not_mem_decimal (n : ℕ) : ∀ c ∈ decimal n, (decide (c ≠ '-')) = true := by
  intro c hc
  rw [decide_eq_true_eq]
  rintro rfl
  exact absurd (isDigit_of_mem_decimal hc) (by decide)

theorem stampOf_archiveId (name : Text) (now : ℕ) : stampOf (archiveId name now) = decimal now := by
  have hall : ∀ c ∈ (decimal now).reverse, (decide (c ≠ '-')) = true := fun c hc =>
    hyphen_not_mem_decimal now c (List.mem_reverse.mp hc)
  unfold stampOf archiveId List.rtakeWhile
  rw [List.reverse_append, List.reverse_cons, List.append_assoc, List.takeWhile_append_of_pos hall,
    List.singleton_append, List.takeWhile_cons_of_neg (by decide), List.append_nil, List.reverse_reverse]

theorem nameOf_archiveId (name : Text) (now : ℕ) : nameOf (archiveId name now) = name := by
  have hall : ∀ c ∈ (decimal now).reverse, (decide (c ≠ '-')) = true := fun c hc =>
    hyphen_not_mem_decimal now c (List.mem_reverse.mp hc)
  unfold nameOf archiveId List.rdropWhile
  rw [List.reverse_append, List.reverse_cons, List.append_assoc, List.dropWhile_append_of_pos hall,
    List.singleton_append, List.dropWhile_cons_of_neg (by decide), List.reverse_cons, List.reverse_reverse,
    List.dropLast_concat]

/-- The names of workflows that can be recovered. -/
structure Recoverable (name : Text) : Prop where
  ne_nil : name ≠ []
  chars : ∀ c ∈ name, c ≠ '/' ∧ c ≠ '\\'
  ne_dots : name ∉ [['.'], ['.', '.']]

theorem isArchiveId_archiveId (h : Recoverable name) (hnow : 10 ^ 14 ≤ now) (hnow' : now < 10 ^ 20) :
    isArchiveId (archiveId name now) = true := by
  have hlow : 14 < (decimal now).length := by
    by_contra hle
    have hlt := (Nat.length_toDigits_le_iff (by decide) (by decide)).mp (Nat.le_of_not_lt hle)
    omega
  have hhigh : (decimal now).length ≤ 20 := (Nat.length_toDigits_le_iff (by decide) (by decide)).mpr hnow'
  unfold isArchiveId
  rw [nameOf_archiveId, stampOf_archiveId, decide_eq_true h.ne_nil, decide_eq_true ⟨hlow, hhigh⟩, Bool.true_and,
    Bool.and_true, Bool.and_eq_true, List.all_eq_true, List.all_eq_true]
  refine ⟨fun c hc => ?_, fun c hc => isDigit_of_mem_decimal hc⟩
  have hchars := h.chars c hc
  rw [Bool.and_eq_true, decide_eq_true_eq, decide_eq_true_eq]
  exact hchars

/-! ### One request -/

variable {s s' s₁ s'' : Store β} {e : Request β} {id : Text} {children : List (Text × Child β)}

/-- A copy in the recovery directory. -/
def Archived (s : Store β) (id : Text) (children : List (Text × Child β)) : Prop :=
  ∃ items, s.deleted = .dir items ∧ items.lookup id = some (.dir children)

/-- What a request can do. -/
theorem step_cases (h : step s e = some s') :
    (∃ name confirm permanent busy now children, e = .delete name confirm permanent busy now ∧
      workflowAt s.runs name = some children ∧
      (permanent = true ∧ s' = { s with runs := s.runs.erase name } ∨
        permanent = false ∧ archive s name children now = some s')) ∨
    (∃ id found, e = .restore id ∧ entry s.deleted id = some found ∧ s.taken found.1 = false ∧
      s' = ⟨s.runs.insert found.1 (.dir found.2), s.deleted.erase id⟩) ∨
    (∃ id confirm found, e = .remove id confirm ∧ entry s.deleted id = some found ∧
      s' = { s with deleted := s.deleted.erase id }) ∨
    ∃ runs, e = .others runs ∧ s' = { s with runs := runs } := by
  cases e with
  | delete name confirm permanent busy now =>
    obtain ⟨children, hchildren, h⟩ := Option.bind_eq_some_iff.mp h
    refine .inl ⟨name, confirm, permanent, busy, now, children, rfl, hchildren, ?_⟩
    split_ifs at h with haccepted hpermanent
    · exact .inl ⟨hpermanent, (Option.some.inj h).symm⟩
    · exact .inr ⟨Bool.eq_false_iff.mpr hpermanent, h⟩
  | restore id =>
    obtain ⟨found, hfound, h⟩ := Option.bind_eq_some_iff.mp h
    split_ifs at h with htaken
    exact .inr (.inl ⟨id, found, rfl, hfound, Bool.eq_false_iff.mpr htaken, (Option.some.inj h).symm⟩)
  | remove id confirm =>
    obtain ⟨found, hfound, h⟩ := Option.bind_eq_some_iff.mp h
    split_ifs at h
    exact .inr (.inr (.inl ⟨id, confirm, found, rfl, hfound, (Option.some.inj h).symm⟩))
  | others runs => exact .inr (.inr (.inr ⟨runs, rfl, (Option.some.inj h).symm⟩))

theorem archive_cases (h : archive s name children now = some s') :
    s'.runs = s.runs.erase name ∧
      ∃ items, gives items (archiveId name now) = true ∧
        ((s.deleted = .absent ∧ items = ∅ ∨ s.deleted = .dir items) ∧
            s'.deleted = .dir (items.insert (archiveId name now) (.dir children)) ∨
          s.deleted = .link items ∧ s'.deleted = .link (items.insert (archiveId name now) (.dir children))) := by
  unfold archive at h
  dsimp only at h
  split at h
  · next habsent =>
    obtain ⟨items, hitems, rfl⟩ := Option.map_eq_some_iff.mp h
    split_ifs at hitems with hgives
    obtain rfl := Option.some.inj hitems
    exact ⟨rfl, ∅, hgives, .inl ⟨.inl ⟨habsent, rfl⟩, rfl⟩⟩
  · next items' hdir =>
    obtain ⟨items, hitems, rfl⟩ := Option.map_eq_some_iff.mp h
    split_ifs at hitems with hgives
    obtain rfl := Option.some.inj hitems
    exact ⟨rfl, items', hgives, .inl ⟨.inr hdir, rfl⟩⟩
  · next items' hlink =>
    obtain ⟨items, hitems, rfl⟩ := Option.map_eq_some_iff.mp h
    split_ifs at hitems with hgives
    obtain rfl := Option.some.inj hitems
    exact ⟨rfl, items', hgives, .inr ⟨hlink, rfl⟩⟩
  · cases h

theorem ne_nil_of_workflowAt {runs : Items β} (h : workflowAt runs name = some children) :
    runs.lookup name = some (.dir children) ∧ children ≠ [] := by
  unfold workflowAt at h
  split at h
  · next children' hlookup =>
    split_ifs at h with hmakefile
    obtain rfl := Option.some.inj h
    refine ⟨hlookup, ?_⟩
    rintro rfl
    cases hmakefile
  · cases h

/-- An archive is left alone by every request but those that restore or remove it. -/
theorem archived_step (h : step s e = some s') (hne : children ≠ []) (hrestore : e ≠ .restore id)
    (hremove : ∀ confirm, e ≠ .remove id confirm) (harchived : Archived s id children) : Archived s' id children := by
  obtain ⟨items, hitems, hlookup⟩ := harchived
  have herase {id' : Text} (hid : id ≠ id') {runs : Items β} :
      Archived ⟨runs, s.deleted.erase id'⟩ id children := by
    refine ⟨items.erase id', by rw [hitems]; rfl, ?_⟩
    rw [AList.lookup_erase_ne hid, hlookup]
  rcases step_cases h with ⟨name, confirm, permanent, busy, now, children', rfl, -, hcases⟩ |
    ⟨id', found, rfl, -, -, rfl⟩ | ⟨id', confirm, found, rfl, -, rfl⟩ | ⟨runs, rfl, rfl⟩
  · rcases hcases with ⟨-, rfl⟩ | ⟨-, harchive⟩
    · exact ⟨items, hitems, hlookup⟩
    · obtain ⟨-, items', hgives, hcases⟩ := archive_cases harchive
      rw [hitems] at hcases
      rcases hcases with ⟨⟨habsent, -⟩ | hdir, hafter⟩ | ⟨hlink, -⟩
      · cases habsent
      · obtain rfl := Root.dir.inj hdir
        refine ⟨_, hafter, ?_⟩
        by_cases hid : id = archiveId name now
        · -- a directory with files is not replaced
          subst hid
          unfold gives at hgives
          rw [hlookup] at hgives
          obtain ⟨child, rest, rfl⟩ := List.exists_cons_of_ne_nil hne
          cases hgives
        · rw [AList.lookup_insert_ne hid, hlookup]
      · cases hlink
  · exact herase fun hid => hrestore (hid ▸ rfl)
  · exact herase fun hid => hremove confirm (hid ▸ rfl)
  · exact ⟨items, hitems, hlookup⟩

/-! ### Runs -/

/-- A deleted workflow stays in the recovery directory until its own archive is restored or removed. -/
theorem archived_run {es : List (Request β)} (hrun : Machine.run step s es = some s') (hne : children ≠ [])
    (hkept : ∀ e ∈ es, e ≠ .restore id ∧ ∀ confirm, e ≠ .remove id confirm) (harchived : Archived s id children) :
    Archived s' id children :=
  Machine.invariant_along (I := fun s => Archived s id children)
    (fun _ _ _ hI hcond hstep => archived_step hstep hne hcond.1 hcond.2 hI) harchived
    (Machine.along_of_forall hkept s) hrun

theorem entry_of_archived (harchived : Archived s id children) (hid : isArchiveId id = true)
    (hdots : nameOf id ∉ [['.'], ['.', '.']]) : entry s.deleted id = some (nameOf id, children) := by
  obtain ⟨items, hitems, hlookup⟩ := harchived
  rw [hitems]
  unfold entry
  dsimp only
  rw [hlookup]
  exact if_pos ⟨hid, hdots⟩

/-- What is listed: every entry once, the newest first. -/
theorem listed_of_entry {items : Items β} {found : Text × List (Text × Child β)}
    (h : entry (.dir items) id = some found) :
    ∃ listed, entries (.dir items) = some listed ∧ listed.count (id, found.1) = 1 ∧
      listed.Pairwise fun a b => number (stampOf b.1) ≤ number (stampOf a.1) := by
  refine ⟨_, rfl, ?_, ?_⟩
  swap
  · exact (StableSort.pairwise_sortBy (fun item : Text × Text => OrderDual.toDual (number (stampOf item.1))) _).imp
      fun h => OrderDual.toDual_le_toDual.mp h
  rw [(StableSort.perm_sortBy _ _).count_eq]
  refine List.count_eq_one_of_mem (items.keys_nodup.filterMap fun a b c ha hb => ?_) ?_
  · obtain ⟨e, -, rfl⟩ := Option.map_eq_some_iff.mp ha
    obtain ⟨e', -, heq⟩ := Option.map_eq_some_iff.mp hb
    exact (Prod.mk.inj heq).1.symm
  · refine List.mem_filterMap.mpr ⟨id, ?_, by rw [h]; rfl⟩
    rw [← AList.mem_keys, ← AList.lookup_isSome]
    unfold entry at h
    dsimp only at h
    split at h
    · next hlookup => rw [hlookup]; rfl
    · cases h

theorem entry_erase (root : Root β) (id other : Text) :
    entry (root.erase id) other = if other = id then none else entry root other := by
  cases root with
  | dir items =>
    unfold Root.erase entry
    dsimp only
    by_cases hid : other = id
    · subst hid
      rw [AList.lookup_erase, if_pos rfl]
    · rw [AList.lookup_erase_ne hid, if_neg hid]
  | _ => exact (ite_self _).symm

/-- **A deleted workflow can be recovered.** Whatever requests are made after it has been deleted, but to restore or
to remove this archive of it, it is listed once, with its name, and it can be restored exactly if its name is free; then
it is what it was, and the other workflows and archives are as before. -/
theorem recoverable {confirm : Text} {busy : Bool} {es : List (Request β)} (hlink : ∀ items, s.deleted ≠ .link items)
    (hname : Recoverable name) (hnow : 10 ^ 14 ≤ now) (hnow' : now < 10 ^ 20)
    (hdelete : step s (.delete name confirm false busy now) = some s₁) (hrun : Machine.run step s₁ es = some s')
    (hkept : ∀ e ∈ es, e ≠ .restore (archiveId name now) ∧ ∀ confirm, e ≠ .remove (archiveId name now) confirm) :
    ∃ children, s.runs.lookup name = some (.dir children) ∧ s₁.runs.lookup name = none ∧
      entry s'.deleted (archiveId name now) = some (name, children) ∧
      (∃ listed, entries s'.deleted = some listed ∧ listed.count (archiveId name now, name) = 1 ∧
        listed.Pairwise fun a b => number (stampOf b.1) ≤ number (stampOf a.1)) ∧
      (s'.taken name = true → step s' (.restore (archiveId name now)) = none) ∧
      (s'.taken name = false → ∃ s'', step s' (.restore (archiveId name now)) = some s'' ∧
        s''.runs.lookup name = some (.dir children) ∧ entry s''.deleted (archiveId name now) = none ∧
        (∀ other, other ≠ name → s''.runs.lookup other = s'.runs.lookup other) ∧
        ∀ other, other ≠ archiveId name now → entry s''.deleted other = entry s'.deleted other) := by
  obtain ⟨children, hworkflow, hcases⟩ : ∃ children, workflowAt s.runs name = some children ∧
      archive s name children now = some s₁ := by
    rcases step_cases hdelete with ⟨_, _, _, _, _, children, heq, hworkflow, hcases⟩ | ⟨_, _, heq, -⟩ |
      ⟨_, _, _, heq, -⟩ | ⟨_, heq, -⟩
    · cases heq
      exact ⟨children, hworkflow, (hcases.resolve_left fun h => Bool.false_ne_true h.1).2⟩
    · cases heq
    · cases heq
    · cases heq
  obtain ⟨hlookup, hne⟩ := ne_nil_of_workflowAt hworkflow
  obtain ⟨hruns, items, -, hdeleted⟩ := archive_cases hcases
  have harchived : Archived s₁ (archiveId name now) children :=
    ⟨_, (hdeleted.resolve_right fun h => hlink items h.1).2, AList.lookup_insert _⟩
  have hlater := archived_run hrun hne hkept harchived
  have hentry := entry_of_archived hlater (isArchiveId_archiveId hname hnow hnow')
    (by rw [nameOf_archiveId]; exact hname.ne_dots)
  rw [nameOf_archiveId] at hentry
  refine ⟨children, hlookup, by rw [hruns, AList.lookup_erase], hentry, ?_, fun htaken => ?_, fun htaken => ?_⟩
  · obtain ⟨items', hitems', -⟩ := hlater
    rw [hitems'] at hentry ⊢
    exact listed_of_entry hentry
  · show (entry s'.deleted _).bind _ = none
    rw [hentry, Option.bind_some, if_pos htaken]
  · refine ⟨⟨s'.runs.insert name (.dir children), s'.deleted.erase (archiveId name now)⟩, ?_, AList.lookup_insert _, ?_,
      fun other hother => AList.lookup_insert_ne hother, fun other hother => ?_⟩
    · show (entry s'.deleted _).bind _ = _
      rw [hentry, Option.bind_some, if_neg (Bool.eq_false_iff.mp htaken)]
    · rw [entry_erase, if_pos rfl]
    · rw [entry_erase, if_neg hother]

/-- One workflow, with nothing but a `Makefile`. -/
def sampleStore : Store ℕ :=
  ⟨(∅ : Items ℕ).insert ['w'] (.dir [("Makefile".toList, ⟨true, 0⟩)]), .absent⟩

/-- It is deleted, and the other workflows change. -/
theorem recoverable_sample : ∃ s₁ s', step sampleStore (.delete ['w'] ['w'] false false (10 ^ 18)) = some s₁ ∧
    Machine.run step s₁ [.others ∅] = some s' ∧
    ∃ children, entry s'.deleted (archiveId ['w'] (10 ^ 18)) = some (['w'], children) := by
  have hsome : (step sampleStore (.delete ['w'] ['w'] false false (10 ^ 18))).isSome = true := by decide +kernel
  obtain ⟨s₁, hdelete⟩ := Option.isSome_iff_exists.mp hsome
  have hrun : Machine.run step s₁ [.others ∅] = some { s₁ with runs := ∅ } := rfl
  obtain ⟨children, -, -, hentry, -⟩ := recoverable (fun items h => by cases h)
    ⟨by decide, List.all_iff_forall_prop.mp (by decide), by decide⟩ (by decide) (by decide) hdelete hrun fun e he => by
      obtain rfl := List.mem_singleton.mp he
      exact ⟨fun h => (by cases h), fun _ h => (by cases h)⟩
  exact ⟨s₁, _, hdelete, hrun, children, hentry⟩

end Recovery
end Workflow
end Slurmy
