import Slurmy.Lib.NumberedFiles

/-!
# Folders

A file tree as the finite map from its paths, and the folders in it.

* `lay`: entries are written one after the other below a folder;
* `rglob`: what is below a folder, in order, under the relative paths;
* `mem_rglob`, `rglob_congr`: `rglob` says what the tree holds there, and depends on nothing else.
-/

namespace Folder

open NumberedFiles

variable {α : Type*} {β : Type*} [DecidableEq α]

/-- The entries are written below `root`. -/
def lay (root : List α) (files : Dir (List α) β) (entries : List (List α × β)) : Dir (List α) β :=
  entries.foldl (fun files e => files.insert (root ++ e.1) e.2) files

theorem lookup_lay_of_not_mem {root p : List α} {entries : List (List α × β)}
    (h : ∀ e ∈ entries, p ≠ root ++ e.1) (files : Dir (List α) β) :
    (lay root files entries).lookup p = files.lookup p := by
  induction entries generalizing files with
  | nil => rfl
  | cons e entries ih =>
    have hne : p ≠ root ++ e.1 := h e List.mem_cons_self
    calc (lay root files (e :: entries)).lookup p
        = (files.insert (root ++ e.1) e.2).lookup p :=
          ih (fun e' he' => h e' (List.mem_cons_of_mem e he')) _
      _ = files.lookup p := AList.lookup_insert_ne hne

/-- A path for which only one thing is written holds it. -/
theorem lookup_lay_of_mem {root r : List α} {b : β} {entries : List (List α × β)}
    (h : (r, b) ∈ entries) (hunique : ∀ c, (r, c) ∈ entries → c = b) (files : Dir (List α) β) :
    (lay root files entries).lookup (root ++ r) = some b := by
  induction entries generalizing files with
  | nil => cases h
  | cons e entries ih =>
    have hunique' : ∀ c, (r, c) ∈ entries → c = b :=
      fun c hc => hunique c (List.mem_cons_of_mem e hc)
    show (lay root (files.insert (root ++ e.1) e.2) entries).lookup (root ++ r) = some b
    by_cases hlater : (r, b) ∈ entries
    · exact ih hlater hunique' _
    · obtain rfl : (r, b) = e := (List.mem_cons.1 h).resolve_right hlater
      rw [lookup_lay_of_not_mem, AList.lookup_insert]
      intro e he heq
      have hr : r = e.1 := List.append_cancel_left heq
      have hb : e.2 = b := hunique' e.2 (hr ▸ he)
      exact hlater (hr ▸ hb ▸ he)

theorem lay_append (root : List α) (files : Dir (List α) β) (es fs : List (List α × β)) :
    lay root files (es ++ fs) = lay root (lay root files es) fs := List.foldl_append

variable [LinearOrder (List α)]

/-- Everything below the folder `root` whose relative path is to be kept. -/
def rglob (keep : List α → Bool) (files : Dir (List α) β) (root : List α) : List (List α × β) :=
  ((glob files).filter fun p => root <+: p && p != root && keep (p.drop root.length)).filterMap
    fun p => (files.lookup p).map fun b => (p.drop root.length, b)

variable {keep : List α → Bool} {files files' : Dir (List α) β} {root : List α}

theorem mem_rglob {r : List α} {b : β} :
    (r, b) ∈ rglob keep files root ↔
      r ≠ [] ∧ keep r = true ∧ files.lookup (root ++ r) = some b := by
  unfold rglob
  simp only [List.mem_filterMap, List.mem_filter, mem_glob, Bool.and_eq_true, decide_eq_true_eq,
    bne_iff_ne, Option.map_eq_some_iff, Prod.mk.injEq]
  constructor
  · rintro ⟨p, ⟨-, ⟨⟨s, rfl⟩, hne⟩, hkeep⟩, b', hb, hdrop, rfl⟩
    rw [List.drop_left] at hdrop hkeep
    cases hdrop
    refine ⟨?_, hkeep, hb⟩
    rintro rfl
    exact hne (List.append_nil root)
  · rintro ⟨hne, hkeep, hb⟩
    refine ⟨root ++ r, ⟨?_, ⟨List.prefix_append root r, ?_⟩, ?_⟩, b, hb, List.drop_left, rfl⟩
    · exact AList.lookup_isSome.1 (by rw [hb]; rfl)
    · simpa using hne
    · rwa [List.drop_left]

/-- Two trees that agree on what is kept below `root` have the same entries there. -/
theorem rglob_congr
    (h : ∀ r ≠ [], keep r = true → files.lookup (root ++ r) = files'.lookup (root ++ r)) :
    rglob keep files root = rglob keep files' root := by
  have hkeys : ∀ p, (root <+: p && p != root && keep (p.drop root.length)) = true →
      files.lookup p = files'.lookup p := by
    intro p hp
    obtain ⟨⟨⟨r, rfl⟩, hne⟩, hkeep⟩ :
        (root <+: p ∧ p ≠ root) ∧ keep (p.drop root.length) = true := by simpa using hp
    rw [List.drop_left] at hkeep
    refine h r ?_ hkeep
    rintro rfl
    exact hne (List.append_nil root)
  unfold rglob
  rw [filter_glob_congr hkeys]
  apply List.filterMap_congr
  intro p hp
  rw [hkeys p (List.mem_filter.1 hp).2]

end Folder
