import Mathlib.Order.Antichain
import Mathlib.Order.Preorder.Finite
import Slurmy.Monitor.Protocol
import Slurmy.Workflow.Pairs

/-!
# The paths that are packaged

`generate` of `slurmy.py` writes the paths to be packaged into `archive-paths.txt`, without those that lie below
others.

* `resources`, `selected`, `archivePaths`: the paths of a plan, those that are kept, and the file;
* `mem_selected_iff`: the paths that are kept are the minimal ones, where a directory comes before what is in it;
* `CoveringAntichain`: what the file should be;
* `SameSlashes`: paths that lie below one another begin with the same slashes;
* `archivePaths_iff`: then, and only then, the file is as it should be.
-/

namespace Slurmy
namespace Workflow
namespace ArchivePaths

open StableSort

/-- A path as `pathlib` makes it. -/
abbrev Path := {p : PosixPath // p.Valid}

/-- `path.parents`. -/
def parents (p : PosixPath) : List PosixPath :=
  (List.range p.parts.length).reverse.map fun n => ⟨p.slashes, p.parts.take n⟩

/-- The paths of a plan, as they are put together. -/
def resources (roots axioms : List Path) (tasks : List Pair) : List PosixPath :=
  (roots ++ axioms).map Subtype.val ++ tasks.map (fun t => PosixPath.parse t.solverRoot) ++
    (tasks.filter fun t => !t.remoteProblem).map fun t => PosixPath.parse t.problem

/-- `sorted(set(…))`. -/
def entries (paths : List PosixPath) : List PosixPath := sortBy (fun p => p.str.splitOn '/') paths.dedup

/-- The loop over the entries. -/
def selected (paths : List PosixPath) : List PosixPath :=
  (entries paths).filter fun p => !(parents p).any fun q => decide (q ∈ entries paths)

/-- `str(p).lstrip("/")`. -/
def relative (p : PosixPath) : Text := p.str.dropWhile (· = '/')

/-- The paths in `archive-paths.txt`. -/
def written (roots axioms : List Path) (tasks : List Pair) : List Text :=
  (selected (resources roots axioms tasks)).map relative

/-- The bytes of `archive-paths.txt`. -/
def archivePaths (roots axioms : List Path) (tasks : List Pair) : List ℕ :=
  Protocol.encodeFields (written roots axioms tasks)

/-! ### What is wanted -/

/-- The components of a path of the file, which is taken from the directory `/`. -/
def place (t : Text) : List Text := (PosixPath.parse t).parts

structure CoveringAntichain (paths : List PosixPath) (texts : List Text) : Prop where
  /-- Every path is that of a text, or lies below it. -/
  covers : ∀ p ∈ paths, ∃ t ∈ texts, place t <+: p.parts
  isPath : ∀ t ∈ texts, ∃ p ∈ paths, t = relative p
  not_below : ∀ s ∈ texts, ∀ t ∈ texts, place s <+: place t → s = t
  nodup : texts.Nodup

/-- Where one path leads to another or to a directory above it, both begin with one slash or both with two. -/
def SameSlashes (paths : List PosixPath) : Prop :=
  ∀ p ∈ paths, ∀ q ∈ paths, p.parts <+: q.parts → p.slashes = q.slashes

/-! ### The order of paths -/

variable {p q : PosixPath} {paths : List PosixPath}

/-- A directory comes before what is in it. -/
instance : PartialOrder PosixPath where
  le p q := p.slashes = q.slashes ∧ p.parts <+: q.parts
  le_refl p := ⟨rfl, List.prefix_refl p.parts⟩
  le_trans _ _ _ h h' := ⟨h.1.trans h'.1, h.2.trans h'.2⟩
  le_antisymm p q h h' := by
    obtain ⟨slashes, parts⟩ := p
    obtain ⟨slashes', parts'⟩ := q
    obtain rfl : slashes = slashes' := h.1
    obtain rfl : parts = parts' := h.2.eq_of_length (Nat.le_antisymm h.2.length_le h'.2.length_le)
    rfl

theorem mem_parents : q ∈ parents p ↔ q < p := by
  rw [lt_iff_le_not_ge, parents, List.mem_map]
  constructor
  · rintro ⟨n, hn, rfl⟩
    have hlt : n < p.parts.length := by simpa using hn
    refine ⟨⟨rfl, List.take_prefix n p.parts⟩, fun h => ?_⟩
    have hle := h.2.length_le
    rw [List.length_take] at hle
    omega
  · rintro ⟨⟨hslashes, hparts⟩, hnot⟩
    refine ⟨q.parts.length, ?_, ?_⟩
    · have hne : q.parts.length ≠ p.parts.length := fun hlen =>
        hnot ⟨hslashes.symm, (hparts.eq_of_length hlen) ▸ List.prefix_refl _⟩
      have hle := hparts.length_le
      simp only [List.mem_reverse, List.mem_range]
      omega
    · rw [← List.prefix_iff_eq_take.1 hparts, ← hslashes]

theorem mem_entries : p ∈ entries paths ↔ p ∈ paths := by
  rw [entries, mem_sortBy, List.mem_dedup]

/-- The paths that are kept are the minimal ones. -/
theorem mem_selected_iff : p ∈ selected paths ↔ Minimal (· ∈ paths) p := by
  rw [minimal_iff_forall_lt, selected, List.mem_filter, mem_entries]
  refine and_congr_right fun _ => ?_
  simp only [Bool.not_eq_true', List.any_eq_false, decide_eq_true_eq, mem_parents, mem_entries]

theorem exists_selected_le (hp : p ∈ paths) : ∃ q ∈ selected paths, q ≤ p := by
  obtain ⟨q, hle, hmin⟩ := (List.finite_toSet paths).exists_le_minimal hp
  exact ⟨q, mem_selected_iff.2 hmin, hle⟩

theorem eq_of_selected_le (hp : p ∈ selected paths) (hq : q ∈ selected paths) (h : p ≤ q) : p = q :=
  h.antisymm ((mem_selected_iff.1 hq).2 (mem_selected_iff.1 hp).1 h)

theorem nodup_selected (paths : List PosixPath) : (selected paths).Nodup :=
  ((perm_sortBy _ _).nodup_iff.2 (List.nodup_dedup paths)).filter _

/-! ### The texts -/

theorem place_relative (hp : p.Valid) : place (relative p) = p.parts := by
  rw [place, relative, PosixPath.parts_dropWhile, PosixPath.parse_str hp]

section Texts

variable (hvalid : ∀ p ∈ paths, p.Valid)

include hvalid

theorem place_of_selected (hp : p ∈ selected paths) : place (relative p) = p.parts :=
  place_relative (hvalid p (mem_selected_iff.1 hp).1)

/-- As soon as two texts are one path, or one of them is below the other, the slashes tell their paths apart. -/
theorem eq_of_sameSlashes (h : SameSlashes paths) (hp : p ∈ selected paths) (hq : q ∈ selected paths)
    (hpq : place (relative p) <+: place (relative q)) : p = q := by
  rw [place_of_selected hvalid hp, place_of_selected hvalid hq] at hpq
  have hslashes : p.slashes = q.slashes := h p (mem_selected_iff.1 hp).1 q (mem_selected_iff.1 hq).1 hpq
  exact eq_of_selected_le hp hq ⟨hslashes, hpq⟩

theorem covering_of_sameSlashes (h : SameSlashes paths) : CoveringAntichain paths ((selected paths).map relative) where
  covers p hp := by
    obtain ⟨q, hq, hle⟩ := exists_selected_le hp
    exact ⟨relative q, List.mem_map_of_mem hq, (place_of_selected hvalid hq).symm ▸ hle.2⟩
  isPath t ht := by
    obtain ⟨p, hp, rfl⟩ := List.mem_map.1 ht
    exact ⟨p, (mem_selected_iff.1 hp).1, rfl⟩
  not_below s hs t ht hst := by
    obtain ⟨p, hp, rfl⟩ := List.mem_map.1 hs
    obtain ⟨q, hq, rfl⟩ := List.mem_map.1 ht
    rw [eq_of_sameSlashes hvalid h hp hq hst]
  nodup := (List.nodup_map_iff_inj_on (nodup_selected paths)).2 fun p hp q hq heq =>
    eq_of_sameSlashes hvalid h hp hq (heq ▸ List.prefix_refl _)

/-- The paths above two that lie below one another are both kept, so they have to be the same. -/
theorem sameSlashes_of_covering (h : CoveringAntichain paths ((selected paths).map relative)) : SameSlashes paths := by
  have hinj := (List.nodup_map_iff_inj_on (nodup_selected paths)).1 h.nodup
  have heq : ∀ p ∈ selected paths, ∀ q ∈ selected paths, p.parts <+: q.parts → p = q := by
    intro p hp q hq hpq
    rw [← place_of_selected hvalid hp, ← place_of_selected hvalid hq] at hpq
    exact hinj p hp q hq (h.not_below _ (List.mem_map_of_mem hp) _ (List.mem_map_of_mem hq) hpq)
  intro p hp q hq hpq
  obtain ⟨p', hp', hle⟩ := exists_selected_le hp
  obtain ⟨q', hq', hle'⟩ := exists_selected_le hq
  have hsame : p' = q' := by
    rcases List.prefix_or_prefix_of_prefix (hle.2.trans hpq) hle'.2 with hbelow | hbelow
    · exact heq p' hp' q' hq' hbelow
    · exact (heq q' hq' p' hp' hbelow).symm
  rw [← hle.1, ← hle'.1, hsame]

end Texts

theorem valid_of_mem_resources {roots axioms : List Path} {tasks : List Pair} (h : p ∈ resources roots axioms tasks) :
    p.Valid := by
  rw [resources, List.mem_append, List.mem_append] at h
  rcases h with (h | h) | h
  · obtain ⟨path, -, rfl⟩ := List.mem_map.1 h
    exact path.2
  · obtain ⟨t, -, rfl⟩ := List.mem_map.1 h
    exact PosixPath.parse_valid _
  · obtain ⟨t, -, rfl⟩ := List.mem_map.1 h
    exact PosixPath.parse_valid _

/-- The file names paths that cover all paths of the plan, none of them below another, exactly when no path leads to
the same place as another, or to a directory above it, but begins with two slashes in the place of one. -/
theorem archivePaths_iff (roots axioms : List Path) (tasks : List Pair) :
    CoveringAntichain (resources roots axioms tasks) (written roots axioms tasks) ↔
      SameSlashes (resources roots axioms tasks) :=
  ⟨sameSlashes_of_covering fun _ => valid_of_mem_resources, covering_of_sameSlashes fun _ => valid_of_mem_resources⟩

/-- A pair whose solver is in `/opt/solver`. -/
def examplePair : Pair where
  cores := 1
  threadsPerCore := 1
  cpus := 1
  exclusiveCpu := false
  exclusiveNode := false
  solver := "solver".toList
  solverRoot := "/opt/solver".toList
  command := "./solver".toList
  wcLimit := 1
  cpuLimit := 1
  memLimit := 1
  problem := "/share/TPTP/TPTP-v9.2.1/Problems/P.p".toList
  remoteProblem := true

/-- The same directory, as a line `//opt/solver` of `building.txt` gives it. -/
def exampleRoot : Path := ⟨PosixPath.parse "//opt/solver".toList, PosixPath.parse_valid _⟩

/-- Both are kept, and the file has the same text for them. -/
theorem written_twice :
    written [exampleRoot] [] [examplePair] = ["opt/solver".toList, "opt/solver".toList] ∧
      ¬ CoveringAntichain (resources [exampleRoot] [] [examplePair]) (written [exampleRoot] [] [examplePair]) := by
  have htexts : written [exampleRoot] [] [examplePair] = ["opt/solver".toList, "opt/solver".toList] := by
    decide +kernel
  refine ⟨htexts, fun h => ?_⟩
  have hnodup := h.nodup
  rw [htexts] at hnodup
  exact (List.nodup_cons.1 hnodup).1 List.mem_cons_self

end ArchivePaths
end Workflow
end Slurmy
