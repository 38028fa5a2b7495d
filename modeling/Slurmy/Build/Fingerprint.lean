import Slurmy.Lib.JsonString
import Slurmy.Lib.StableSort
import Slurmy.Text
import Mathlib.Data.List.Lex
import Mathlib.Data.List.SplitOn

/-!
# What the fingerprint of a tree tells

`tree_fingerprint` of `slurmy-build.py`, in bytes: the header of an entry holds its name and its mode,
and the contents of a file follow, without their length.

* `Tree`, `treeFingerprint`: a tree without links and special files, and what SHA-256 is fed with;
* `header_append_inj`: a header is read back from the bytes;
* `IsListing`: what the entries of a tree are, apart from the cache files;
* `Told`: the trees that the fingerprint tells from all others.
-/

namespace Slurmy
namespace Fingerprint

open StableSort

/-! ### Trees -/

/-- The code points of a name, with a lone surrogate for a byte that is not UTF-8. -/
abbrev Name := List ℕ

/-- A path relative to the root of the tree. -/
abbrev Path := List Name

inductive Node
  | dir (permissions : Fin 4096)
  | file (permissions : Fin 4096) (contents : List UInt8)
  deriving DecidableEq

/-- `st_mode`. -/
def Node.mode : Node → ℕ
  | .dir permissions => 16384 + permissions
  | .file permissions _ => 32768 + permissions

/-- What follows the header. -/
def Node.contents : Node → List UInt8
  | .dir _ => []
  | .file _ contents => contents

abbrev Entries := List (Path × Node)

/-- A name is neither `.` nor `..`, and has neither a slash nor a NUL. -/
def IsName (name : Name) : Prop :=
  name ≠ [] ∧ name ≠ [46] ∧ name ≠ [46, 46] ∧ ∀ n ∈ name, JsonString.IsPoint n ∧ n ≠ 0 ∧ n ≠ 47

def IsPath (p : Path) : Prop := p ≠ [] ∧ ∀ name ∈ p, IsName name

instance (name : Name) : Decidable (IsName name) := by
  unfold IsName
  infer_instance

instance (p : Path) : Decidable (IsPath p) := by
  unfold IsPath
  infer_instance

/-- The entries below a directory, in any order. -/
structure Tree where
  entries : Entries
  nodup : (entries.map Prod.fst).Nodup
  isPath : ∀ e ∈ entries, IsPath e.1
  parent : ∀ e ∈ entries, ∀ q, q ≠ [] → q <+: e.1 → q ≠ e.1 → ∃ permissions, (q, .dir permissions) ∈ entries

def codes (s : String) : Name := s.toList.map Char.toNat

/-- `CACHE_FILES`. -/
def cacheFiles : List Name := [codes ".slurmy-build-cache.json", codes ".slurmy-build-cache.lock"]

/-- `path.name in CACHE_FILES`. -/
def isCacheFile (p : Path) : Bool := p.getLast?.any (cacheFiles.contains ·)

/-- `as_posix`. -/
def posix (p : Path) : List ℕ := [47].intercalate p

/-- A number in decimal. -/
def digits (n : ℕ) : List UInt8 := (decimal n).map fun c => c.toNat.toUInt8

/-- `json.dumps([relative, stat.st_mode])`. -/
def header (p : Path) (mode : ℕ) : List UInt8 :=
  91 :: (JsonString.string (posix p) ++ 44 :: 32 :: (digits mode ++ [93]))

def entry (e : Path × Node) : List UInt8 := header e.1 e.2.mode ++ e.2.contents

/-- `sorted(root.rglob('*'))`. -/
def Tree.sorted (t : Tree) : Entries := sortBy Prod.fst t.entries

/-- What `tree_fingerprint` feeds to SHA-256. -/
def treeFingerprint (t : Tree) : List UInt8 :=
  t.sorted.flatMap fun e => if isCacheFile e.1 then [] else entry e

/-- The names, the modes and the contents, apart from the cache files. -/
def Tree.visible (t : Tree) : Entries := t.sorted.filter fun e => !isCacheFile e.1

/-- What entries add to the digest. -/
def feed (es : Entries) : List UInt8 := es.flatMap entry

theorem treeFingerprint_eq (t : Tree) : treeFingerprint t = feed t.visible := by
  unfold treeFingerprint feed Tree.visible
  induction t.sorted with
  | nil => rfl
  | cons e es ih =>
    rw [List.flatMap_cons, ih]
    by_cases h : isCacheFile e.1 = true
    · rw [if_pos h, List.filter_cons_of_neg (by simp [h])]
      rfl
    · rw [if_neg h, List.filter_cons_of_pos (by simpa using h), List.flatMap_cons]

/-! ### Headers -/

theorem posix_inj {p q : Path} (hp : IsPath p) (hq : IsPath q) (h : posix p = posix q) : p = q := by
  have hread : ∀ {r : Path}, IsPath r → (posix r).splitOn 47 = r := fun {r} hr =>
    List.splitOn_intercalate 47 (fun name hname hslash => ((hr.2 name hname).2.2.2 47 hslash).2.2 rfl) hr.1
  rw [← hread hp, h, hread hq]

theorem isPoint_of_mem_posix {p : Path} (hp : ∀ name ∈ p, IsName name) : ∀ n ∈ posix p, JsonString.IsPoint n := by
  unfold posix
  induction p with
  | nil => exact fun n hn => absurd hn List.not_mem_nil
  | cons name p ih =>
    have hname : ∀ n ∈ name, JsonString.IsPoint n := fun n hn => ((hp name List.mem_cons_self).2.2.2 n hn).1
    cases p with
    | nil => simpa using hname
    | cons name' p =>
      rw [List.intercalate_cons_cons]
      intro n hn
      rcases List.mem_append.mp hn with hn | hn
      · rcases List.mem_append.mp hn with hn | hn
        · exact hname n hn
        · rw [List.mem_singleton.mp hn]
          decide
      · exact ih (fun name hname => hp name (List.mem_cons_of_mem _ hname)) n hn

theorem digit_toUInt8 {c : Char} (hc : c.isDigit = true) : 48 ≤ c.toNat ∧ c.toNat ≤ 57 := by
  simp only [Char.isDigit, Bool.and_eq_true, decide_eq_true_eq, UInt32.le_iff_toNat_le] at hc
  exact hc

theorem digits_injective {m n : ℕ} (h : digits m = digits n) : m = n := by
  have hread : ∀ k, (digits k).map (fun b => Char.ofNat b.toNat) = decimal k := by
    intro k
    unfold digits
    rw [List.map_map]
    conv_rhs => rw [← List.map_id (decimal k)]
    apply List.map_congr_left
    intro c hc
    have hdigit := digit_toUInt8 (isDigit_of_mem_decimal hc)
    have hbyte : c.toNat.toUInt8.toNat = c.toNat := by
      rw [Nat.toUInt8, UInt8.toNat_ofNat']
      omega
    rw [Function.comp_apply, hbyte, Char.ofNat_toNat]
    rfl
  apply decimal_injective
  rw [← hread m, h, hread n]

/-- A digit is not a closing bracket. -/
theorem not_mem_digits (n : ℕ) : 93 ∉ digits n := by
  intro h
  obtain ⟨c, hc, hbyte⟩ := List.mem_map.mp h
  have hdigit := digit_toUInt8 (isDigit_of_mem_decimal hc)
  have := congrArg UInt8.toNat hbyte
  rw [Nat.toUInt8, UInt8.toNat_ofNat'] at this
  change c.toNat % 256 = 93 at this
  omega

/-- Where a byte comes first is known. -/
theorem append_cons_inj {b : UInt8} {s t x y : List UInt8} (hs : b ∉ s) (ht : b ∉ t)
    (h : s ++ b :: x = t ++ b :: y) : s = t ∧ x = y := by
  rcases List.append_eq_append_iff.mp h with ⟨u, rfl, hu⟩ | ⟨u, rfl, hu⟩
  · cases u with
    | nil => exact ⟨(List.append_nil s).symm, (List.cons.inj hu).2⟩
    | cons c u =>
      rw [(List.cons.inj hu).1] at ht
      exact absurd (List.mem_append_right s List.mem_cons_self) ht
  · cases u with
    | nil => exact ⟨List.append_nil t, (List.cons.inj hu).2.symm⟩
    | cons c u =>
      rw [(List.cons.inj hu).1] at hs
      exact absurd (List.mem_append_right t List.mem_cons_self) hs

/-- A header is read back from the bytes. -/
theorem header_append_inj {p q : Path} {m n : ℕ} {x y : List UInt8} (hp : IsPath p) (hq : IsPath q)
    (h : header p m ++ x = header q n ++ y) : p = q ∧ m = n ∧ x = y := by
  have htail : JsonString.string (posix p) ++ (44 :: 32 :: (digits m ++ [93]) ++ x) =
      JsonString.string (posix q) ++ (44 :: 32 :: (digits n ++ [93]) ++ y) := by
    rw [← List.append_assoc, ← List.append_assoc]
    exact (List.cons.inj h).2
  obtain ⟨hposix, hrest⟩ := JsonString.string_append_inj (isPoint_of_mem_posix hp.2) (isPoint_of_mem_posix hq.2) htail
  have hdigits : digits m ++ 93 :: x = digits n ++ 93 :: y := by
    have hdrop := congrArg (List.drop 2) hrest
    simpa using hdrop
  obtain ⟨hm, hxy⟩ := append_cons_inj (not_mem_digits m) (not_mem_digits n) hdigits
  exact ⟨posix_inj hp hq hposix, digits_injective hm, hxy⟩

theorem entry_ne_nil (e : Path × Node) : entry e ≠ [] := List.cons_ne_nil _ _

theorem feed_eq_nil {es : Entries} (h : feed es = []) : es = [] := by
  cases es with
  | nil => rfl
  | cons e es =>
    rw [feed, List.flatMap_cons, List.append_eq_nil_iff] at h
    exact absurd h.1 (entry_ne_nil e)

/-- The mode tells a file from a directory. -/
theorem Node.mode_inj {n n' : Node} (h : n.mode = n'.mode) :
    n = n' ∨ ∃ permissions c c', n = .file permissions c ∧ n' = .file permissions c' := by
  cases n with
  | dir a =>
    cases n' with
    | dir b =>
      have : a = b := Fin.ext (by simp only [mode] at h; omega)
      exact .inl (congrArg dir this)
    | file b c =>
      have := a.isLt
      simp only [mode] at h
      omega
  | file a c =>
    cases n' with
    | dir b =>
      have := b.isLt
      simp only [mode] at h
      omega
    | file b c' =>
      have : a = b := Fin.ext (by simp only [mode] at h; omega)
      exact .inr ⟨a, c, c', rfl, by rw [this]⟩

/-- Two streams are of the same entries up to a file whose contents differ. -/
theorem feed_inj {es es' : Entries} (hes : ∀ e ∈ es, IsPath e.1) (hes' : ∀ e ∈ es', IsPath e.1)
    (h : feed es = feed es') :
    es = es' ∨ ∃ before p permissions c c' rest rest', es = before ++ (p, .file permissions c) :: rest ∧
      es' = before ++ (p, .file permissions c') :: rest' ∧ c ≠ c' ∧ c ++ feed rest = c' ++ feed rest' := by
  induction es generalizing es' with
  | nil => exact .inl (feed_eq_nil h.symm).symm
  | cons e es ih =>
    cases es' with
    | nil => exact .inl (feed_eq_nil h)
    | cons e' es' =>
      obtain ⟨p, n⟩ := e
      obtain ⟨p', n'⟩ := e'
      have hentry : header p n.mode ++ (n.contents ++ feed es) = header p' n'.mode ++ (n'.contents ++ feed es') := by
        rw [← List.append_assoc, ← List.append_assoc]
        exact h
      obtain ⟨rfl, hmode, hrest⟩ :=
        header_append_inj (hes _ List.mem_cons_self) (hes' _ List.mem_cons_self) hentry
      have hsame : n = n' → (p, n) :: es = (p, n') :: es' ∨
          ∃ before q permissions c c' rest rest', (p, n) :: es = before ++ (q, .file permissions c) :: rest ∧
            (p, n') :: es' = before ++ (q, .file permissions c') :: rest' ∧ c ≠ c' ∧
            c ++ feed rest = c' ++ feed rest' := by
        rintro rfl
        rcases ih (fun e he => hes e (List.mem_cons_of_mem _ he)) (fun e he => hes' e (List.mem_cons_of_mem _ he))
          (List.append_cancel_left hrest) with rfl | ⟨before, q, k, c, c', rest, rest', rfl, rfl, hne, heq⟩
        · exact .inl rfl
        · exact .inr ⟨(p, n) :: before, q, k, c, c', rest, rest', rfl, rfl, hne, heq⟩
      rcases Node.mode_inj hmode with hn | ⟨k, c, c', rfl, rfl⟩
      · exact hsame hn
      · by_cases hc : c = c'
        · exact hsame (congrArg (Node.file k) hc)
        · exact .inr ⟨[], p, k, c, c', es, es', rfl, rfl, hc, hrest⟩

/-! ### Listings -/

/-- The entries of a tree in their order, apart from the cache files. -/
structure IsListing (es : Entries) : Prop where
  sorted : es.Pairwise fun e e' => e.1 < e'.1
  isPath : ∀ e ∈ es, IsPath e.1
  noCache : ∀ e ∈ es, isCacheFile e.1 = false
  parent : ∀ e ∈ es, ∀ q, q ≠ [] → q <+: e.1 → q ≠ e.1 →
    isCacheFile q = true ∨ ∃ permissions, (q, .dir permissions) ∈ es

theorem pairwise_sortBy_lt {es : Entries} (h : (es.map Prod.fst).Nodup) :
    (sortBy Prod.fst es).Pairwise fun e e' => e.1 < e'.1 := by
  have hnodup : (sortBy Prod.fst es).Pairwise fun e e' => e.1 ≠ e'.1 :=
    List.pairwise_map.mp (((perm_sortBy Prod.fst es).map Prod.fst).nodup_iff.mpr h)
  exact ((pairwise_sortBy Prod.fst es).and hnodup).imp fun hlt => lt_of_le_of_ne hlt.1 hlt.2

theorem Tree.visible_isListing (t : Tree) : IsListing t.visible := by
  have hmem : ∀ {e}, e ∈ t.visible ↔ e ∈ t.entries ∧ isCacheFile e.1 = false := by
    intro e
    unfold Tree.visible Tree.sorted
    rw [List.mem_filter, mem_sortBy, Bool.not_eq_true']
  constructor
  · exact (pairwise_sortBy_lt t.nodup).filter _
  · exact fun e he => t.isPath e (hmem.mp he).1
  · exact fun e he => (hmem.mp he).2
  · intro e he q hq hqe hne
    obtain ⟨permissions, hparent⟩ := t.parent e (hmem.mp he).1 q hq hqe hne
    cases hcache : isCacheFile q with
    | true => exact .inl rfl
    | false => exact .inr ⟨permissions, hmem.mpr ⟨hparent, hcache⟩⟩

/-- The directories that are left out of a listing. -/
def hidden (es : Entries) : List Path :=
  (es.flatMap fun e => e.1.inits.filter fun q => !q.isEmpty && q ≠ e.1 && isCacheFile q).dedup

theorem mem_hidden {es : Entries} {q : Path} :
    q ∈ hidden es ↔ isCacheFile q = true ∧ q ≠ [] ∧ ∃ e ∈ es, q <+: e.1 ∧ q ≠ e.1 := by
  unfold hidden
  simp only [List.mem_dedup, List.mem_flatMap, List.mem_filter, List.mem_inits, Bool.and_eq_true,
    Bool.not_eq_true', List.isEmpty_eq_false_iff, decide_eq_true_eq]
  constructor
  · rintro ⟨e, he, hpre, ⟨hne, hne'⟩, hcache⟩
    exact ⟨hcache, hne, e, he, hpre, hne'⟩
  · rintro ⟨hcache, hne, e, he, hpre, hne'⟩
    exact ⟨e, he, hpre, ⟨hne, hne'⟩, hcache⟩

theorem IsPath.of_isPrefix {p q : Path} (hp : IsPath p) (hq : q ≠ []) (h : q <+: p) : IsPath q :=
  ⟨hq, fun name hname => hp.2 name (h.subset hname)⟩

/-- Every listing is that of a tree. -/
theorem IsListing.exists_tree {es : Entries} (h : IsListing es) : ∃ t : Tree, t.visible = es := by
  have hnodup : (es.map Prod.fst).Nodup := List.pairwise_map.mpr (h.sorted.imp fun hlt => ne_of_lt hlt)
  let dirs : Entries := (hidden es).map fun q => (q, .dir 493)
  have hdirs : ∀ e ∈ dirs, e.1 ∈ hidden es := by
    intro e he
    obtain ⟨q, hq, rfl⟩ := List.mem_map.mp he
    exact hq
  let t : Tree :=
    { entries := es ++ dirs
      nodup := by
        rw [List.map_append, List.nodup_append]
        refine ⟨hnodup, ?_, ?_⟩
        · rw [List.map_map]
          exact (List.map_id (hidden es)).symm ▸ List.nodup_dedup _
        · intro p hp q hq hpq
          obtain ⟨e, he, rfl⟩ := List.mem_map.mp hp
          obtain ⟨d, hd, rfl⟩ := List.mem_map.mp hq
          have hcache := (mem_hidden.mp (hdirs d hd)).1
          rw [← hpq, h.noCache e he] at hcache
          cases hcache
      isPath := by
        intro e he
        rcases List.mem_append.mp he with he | he
        · exact h.isPath e he
        · obtain ⟨-, hne, e', he', hpre, -⟩ := mem_hidden.mp (hdirs e he)
          exact (h.isPath e' he').of_isPrefix hne hpre
      parent := by
        have hparent : ∀ e ∈ es, ∀ q, q ≠ [] → q <+: e.1 → q ≠ e.1 →
            ∃ permissions, (q, .dir permissions) ∈ es ++ dirs := by
          intro e he q hq hpre hne
          rcases h.parent e he q hq hpre hne with hcache | ⟨permissions, hmem⟩
          · exact ⟨493, List.mem_append_right _
              (List.mem_map.mpr ⟨q, mem_hidden.mpr ⟨hcache, hq, e, he, hpre, hne⟩, rfl⟩)⟩
          · exact ⟨permissions, List.mem_append_left _ hmem⟩
        intro e he q hq hpre hne
        rcases List.mem_append.mp he with he | he
        · exact hparent e he q hq hpre hne
        · -- a directory that is left out is above an entry of the listing
          obtain ⟨-, -, e', he', hpre', hne'⟩ := mem_hidden.mp (hdirs e he)
          refine hparent e' he' q hq (hpre.trans hpre') ?_
          rintro rfl
          exact hne (hpre.eq_of_length_le hpre'.length_le) }
  refine ⟨t, ?_⟩
  have hvisible : t.visible.Perm es := by
    have hperm : t.visible.Perm (t.entries.filter fun e => !isCacheFile e.1) :=
      (perm_sortBy Prod.fst t.entries).filter _
    have hes : es.filter (fun e => !isCacheFile e.1) = es := by
      apply List.filter_eq_self.mpr
      intro e he
      rw [h.noCache e he]
      rfl
    have hnone : dirs.filter (fun e => !isCacheFile e.1) = [] := by
      apply List.filter_eq_nil_iff.mpr
      intro e he
      rw [(mem_hidden.mp (hdirs e he)).1]
      exact Bool.false_ne_true
    rw [show t.entries = es ++ dirs from rfl, List.filter_append, hes, hnone, List.append_nil] at hperm
    exact hperm
  exact hvisible.eq_of_pairwise (fun _ _ _ _ hlt hgt => absurd hgt (lt_asymm hlt)) t.visible_isListing.sorted
    h.sorted

/-- The parents of an entry come before it. -/
theorem lt_of_isPrefix {p q : Path} (h : q <+: p) (hne : q ≠ p) : q < p := by
  have hle : ¬ p < q := h.le
  exact lt_of_le_of_ne (not_lt.mp hle) hne

/-- A listing that ends with a file may end there with other contents. -/
theorem IsListing.cut {before rest : Entries} {p : Path} {permissions : Fin 4096} {c : List UInt8}
    (h : IsListing (before ++ (p, .file permissions c) :: rest)) (c' : List UInt8) :
    IsListing (before ++ [(p, .file permissions c')]) := by
  have hkeys : ∀ e ∈ before ++ [(p, Node.file permissions c')],
      ∃ e' ∈ before ++ (p, Node.file permissions c) :: rest, e'.1 = e.1 ∧ ∀ r ∈ rest, e.1 < r.1 := by
    intro e he
    obtain ⟨-, hrest, hbefore⟩ := List.pairwise_append.mp h.sorted
    rcases List.mem_append.mp he with he | he
    · exact ⟨e, List.mem_append_left _ he, rfl, fun r hr => hbefore e he r (List.mem_cons_of_mem _ hr)⟩
    · rw [List.mem_singleton.mp he]
      exact ⟨_, List.mem_append_right _ List.mem_cons_self, rfl, (List.pairwise_cons.mp hrest).1⟩
  constructor
  · obtain ⟨hbefore, -, hcross⟩ := List.pairwise_append.mp h.sorted
    refine List.pairwise_append.mpr ⟨hbefore, List.pairwise_singleton _ _, ?_⟩
    intro e he e' he'
    rw [List.mem_singleton.mp he']
    exact hcross e he (p, .file permissions c) List.mem_cons_self
  · intro e he
    obtain ⟨e', he', hkey, -⟩ := hkeys e he
    exact hkey ▸ h.isPath e' he'
  · intro e he
    obtain ⟨e', he', hkey, -⟩ := hkeys e he
    exact hkey ▸ h.noCache e' he'
  · intro e he q hq hpre hne
    obtain ⟨e', he', hkey, hlt⟩ := hkeys e he
    rcases h.parent e' he' q hq (hkey ▸ hpre) (hkey ▸ hne) with hcache | ⟨k, hmem⟩
    · exact .inl hcache
    · refine .inr ⟨k, ?_⟩
      rcases List.mem_append.mp hmem with hmem | hmem
      · exact List.mem_append_left _ hmem
      · rcases List.mem_cons.mp hmem with heq | hmem
        · cases heq
        · exact absurd (lt_of_isPrefix hpre hne) (lt_asymm (hlt _ hmem))

/-! ### The trees that are told from all others -/

/-- The only regular file is the last entry, and no end of its contents reads as entries that could stand
after it. -/
def Told (es : Entries) : Prop :=
  ∀ before p permissions c rest, es = before ++ (p, .file permissions c) :: rest → rest = [] ∧
    ∀ c' more, more ≠ [] → IsListing (before ++ (p, .file permissions c') :: more) → c ≠ c' ++ feed more

/-- A file takes up the entries after it. -/
theorem feed_file (before rest : Entries) (p : Path) (permissions : Fin 4096) (c : List UInt8) :
    feed (before ++ (p, .file permissions c) :: rest) =
      feed (before ++ [(p, .file permissions (c ++ feed rest))]) := by
  unfold feed
  rw [List.flatMap_append, List.flatMap_append, List.flatMap_cons, List.flatMap_singleton]
  exact congrArg _ (List.append_assoc _ _ _)

/-- A tree has its fingerprint alone if and only if its only file is its last entry and does not end like
entries. -/
theorem treeFingerprint_tells_iff (t : Tree) :
    (∀ t' : Tree, treeFingerprint t = treeFingerprint t' → t.visible = t'.visible) ↔ Told t.visible := by
  simp only [treeFingerprint_eq]
  constructor
  · intro h before p permissions c rest hes
    have hlisting := t.visible_isListing
    rw [hes] at hlisting
    -- otherwise the file takes up what follows
    have hrest : rest = [] := by
      obtain ⟨t', ht'⟩ := (hlisting.cut (c ++ feed rest)).exists_tree
      have heq := h t' (by rw [hes, ht', feed_file])
      rw [hes, ht'] at heq
      exact (List.cons.inj (List.append_cancel_left heq)).2
    subst hrest
    refine ⟨rfl, ?_⟩
    -- otherwise the end of the file becomes entries
    rintro c' more hmore hlisting' rfl
    obtain ⟨t', ht'⟩ := hlisting'.exists_tree
    have heq := h t' (by rw [hes, ht', feed_file before more])
    rw [hes, ht'] at heq
    exact hmore (List.cons.inj (List.append_cancel_left heq)).2.symm
  · intro h t' hfeed
    rcases feed_inj t.visible_isListing.isPath t'.visible_isListing.isPath hfeed with
      heq | ⟨before, p, k, c, c', rest, rest', hes, hes', hne, hstream⟩
    · exact heq
    · obtain ⟨rfl, hend⟩ := h before p k c rest hes
      have hc : c = c' ++ feed rest' := by
        rw [← hstream]
        exact (List.append_nil c).symm
      have hlisting := t'.visible_isListing
      rw [hes'] at hlisting
      refine absurd hc (hend c' rest' ?_ hlisting)
      rintro rfl
      exact hne (hc.trans (List.append_nil c'))

/-- Entries in the root itself. -/
theorem isListing_of_length {es : Entries} (hsorted : es.Pairwise fun e e' => e.1 < e'.1)
    (hpath : ∀ e ∈ es, IsPath e.1 ∧ isCacheFile e.1 = false) (hlen : ∀ e ∈ es, e.1.length = 1) : IsListing es where
  sorted := hsorted
  isPath e he := (hpath e he).1
  noCache e he := (hpath e he).2
  parent := by
    intro e he q hq hpre hne
    have hpos := List.length_pos_iff.mpr hq
    have hone := hlen e he
    exact absurd (hpre.eq_of_length_le (by omega)) hne

/-- A file that ends like an entry, and the two files. -/
theorem treeFingerprint_collides :
    ¬ ∀ t t' : Tree, treeFingerprint t = treeFingerprint t' → t.visible = t'.visible := by
  have hone : IsListing [([codes "a"], .file 420 (entry ([codes "b"], .file 420 [120])))] :=
    isListing_of_length (List.pairwise_singleton _ _) (by decide) (by decide)
  have htwo : IsListing [([codes "a"], .file 420 []), ([codes "b"], .file 420 [120])] :=
    isListing_of_length (by decide) (by decide) (by decide)
  obtain ⟨t, ht⟩ := hone.exists_tree
  obtain ⟨t', ht'⟩ := htwo.exists_tree
  intro h
  have heq := h t t' (by rw [treeFingerprint_eq, treeFingerprint_eq, ht, ht']; rfl)
  rw [ht, ht'] at heq
  cases (List.cons.inj heq).2

end Fingerprint
end Slurmy
