import Slurmy.Lib.PosixPath
import Slurmy.Lib.Symlinks
import Slurmy.Text

/-!
# Files and directories in a bundle

`add_tree` of `portable.py` puts what is at a path into an archive, with files and directories in the place of
symbolic links.

* `addTree`: the function, with a bound on the depth of its calls;
* `Leads`, `Circular`: the paths to what is below a source, and those that come back to a directory on the way;
* `Shallow`: the calls have room on the stack;
* `Covers`: what has been put into the archive for some of the paths;
* `addTree_covers`: one call, and with it all calls inside it;
* `addTree_correct`: when the function fails, and what it puts into the archive, as long as the calls have room;
* `addTree_too_deep`: directories inside one another for which they have not.
-/

namespace Slurmy
namespace Portable
namespace AddTree

open Symlinks

/-- The name of an entry of a directory. -/
structure FileName where
  text : Text
  ne_nil : text ≠ []
  no_slash : '/' ∉ text
  ne_dots : text ≠ ['.'] ∧ text ≠ ['.', '.']

theorem text_injective : Function.Injective FileName.text := by
  rintro ⟨s, _, _, _⟩ ⟨t, _, _, _⟩ rfl
  rfl

instance : LinearOrder FileName := LinearOrder.lift' FileName.text text_injective

/-- A regular file. -/
structure File where
  content : List UInt8
  mode : ℕ

abbrev Files := FileSystem FileName File

/-- An absolute path. -/
abbrev Path := List (Component FileName)

def componentText : Component FileName → Text
  | .here => ['.']
  | .up => ['.', '.']
  | .name a => a.text

/-- `str(source)`. -/
def pathText (p : Path) : Text := '/' :: ['/'].intercalate (p.map componentText)

inductive Member
  | dir (name : Text) (mode : ℕ)
  | regular (name : Text) (mode : ℕ) (content : List UInt8)

def Member.isRegular : Member → Bool
  | .dir _ _ => false
  | .regular _ _ _ => true

def Member.name : Member → Text
  | .dir name _ => name
  | .regular name _ _ => name

/-- The errors of `add_tree`: that of `resolve`, and those that it raises itself. -/
inductive Failure
  | os
  | value (message : Text)

def isExcluded (a : FileName) : Bool :=
  decide (a.text ∈ [".git".toList, "__pycache__".toList, "submit.sh.files".toList])

/-- The loop over the entries of a directory. -/
def addChildren (add : List Member → FileName → Option (Except Failure (List Member))) :
    List Member → List FileName → Option (Except Failure (List Member))
  | archive, [] => some (.ok archive)
  | archive, child :: children =>
      if isExcluded child then addChildren add archive children
      else
        match add archive child with
        | some (.ok archive') => addChildren add archive' children
        | stopped => stopped

variable (fs : Files)

/-- `add_tree`.  Python has room for calls inside one another to the depth given first, and `none` is its
`RecursionError`. -/
def addTree : ℕ → List Member → Path → Text → Finset (List FileName) → Option (Except Failure (List Member))
  | 0, _, _, _, _ => none
  | n + 1, archive, source, name, ancestors =>
      match fs.resolve source with
      | none => some (.error .os)
      | some real =>
          if real ∈ ancestors then
            some (.error (.value ("Circular symlink in workflow resource: ".toList ++ pathText source)))
          else
            match fs.stat source with
            | some .dir =>
                addChildren
                  (fun archive child =>
                    addTree n archive (source ++ [.name child]) (name ++ '/' :: child.text) (insert real ancestors))
                  (archive ++ [.dir (name ++ ['/']) 0o755]) (fs.listing source)
            | some (.file f) =>
                -- `gettarinfo` takes the slashes in front of the name away
                some (.ok (archive ++ [.regular (name.dropWhile (· = '/')) (f.mode % 0o1000) f.content]))
            | _ => some (.error (.value ("Unsupported resource file: ".toList ++ pathText source)))

/-! ### Paths below the source -/

def below (p : Path) (ns : List FileName) : Path := p ++ ns.map .name

/-- The ways from a path over directories and entries that are not left out. -/
inductive Leads : Path → List FileName → Prop
  | here {p} : Leads p []
  | child {p a ns} (hdir : fs.isDir p = true) (ha : a ∈ fs.listing p) (hkept : isExcluded a = false) :
      Leads (p ++ [.name a]) ns → Leads p (a :: ns)

/-- The path leads to a directory on the way to it. -/
def Circular (p : Path) (ns : List FileName) : Prop :=
  ∃ ms d, ms <+: ns ∧ ms ≠ ns ∧ fs.resolve (below p ms) = some d ∧ fs.resolve (below p ns) = some d ∧
    fs.node d = some .dir

/-- The system finds nothing at the path: a link of a directory that leads nowhere, or a source that is not there. -/
def Unresolvable (p : Path) (ns : List FileName) : Prop :=
  fs.stat (below p ns) = none ∧ ∀ ms a, ns = ms ++ [a] → (fs.lstat (below p ms) a).any Node.isLink = true

def Special (p : Path) (ns : List FileName) : Prop := fs.stat (below p ns) = some .special

/-- A path leads to an ancestor. -/
def Returns (ancestors : Finset (List FileName)) (p : Path) (ns : List FileName) : Prop :=
  ∃ d, fs.resolve (below p ns) = some d ∧
    (d ∈ ancestors ∨ ∃ ms, ms <+: ns ∧ ms ≠ ns ∧ fs.resolve (below p ms) = some d)

/-- A path leads to an ancestor, or to nothing that can be put into the archive. -/
def Stopped (ancestors : Finset (List FileName)) (p : Path) (ns : List FileName) : Prop :=
  Returns fs ancestors p ns ∨ fs.stat (below p ns) = none ∨ fs.stat (below p ns) = some .special

/-- The paths below the source that do not go on behind a directory that they have been to have fewer than `limit`
entries. -/
def Shallow (limit : ℕ) (p : Path) : Prop :=
  ∀ ns, Leads fs p ns → (∀ ms, ms <+: ns → ms ≠ ns → ¬ Circular fs p ms) → ns.length < limit

/-- The same for a call with ancestors. -/
def Fits (limit : ℕ) (p : Path) (ancestors : Finset (List FileName)) : Prop :=
  ∀ ns, Leads fs p ns → (∀ ms, ms <+: ns → ms ≠ ns → ¬ Returns fs ancestors p ms) → ns.length < limit

/-- The name of a member before the slashes in front are taken away. -/
def memberName (name : Text) (ns : List FileName) : Text := name ++ ns.flatMap fun a => '/' :: a.text

/-- The member for a path to a regular file. -/
def member (name : Text) (e : List FileName × File) : Member :=
  .regular ((memberName name e.1).dropWhile (· = '/')) (e.2.mode % 0o1000) e.2.content

/-- What a call adds to any archive, or the error that it raises. -/
def Adds (f : List Member → Option (Except Failure (List Member))) : Except Failure (List Member) → Prop
  | .ok added => ∀ archive, f archive = some (.ok (archive ++ added))
  | .error e => ∀ archive, f archive = some (.error e)

/-- For the paths in `S`: a path at which the function stops, or the regular members for all of them. -/
def Covers (p : Path) (name : Text) (ancestors : Finset (List FileName)) (S : Set (List FileName)) :
    Except Failure (List Member) → Prop
  | .error _ => ∃ ns ∈ S, Leads fs p ns ∧ Stopped fs ancestors p ns
  | .ok added => (∀ ns ∈ S, Leads fs p ns → ¬ Stopped fs ancestors p ns) ∧
      ∃ files : List (List FileName × File), files.Nodup ∧
        (∀ ns f, (ns, f) ∈ files ↔ ns ∈ S ∧ Leads fs p ns ∧ fs.stat (below p ns) = some (.file f)) ∧
        added.filter Member.isRegular = files.map (member name)

variable {fs} {p : Path} {name : Text} {ancestors : Finset (List FileName)} {S T : Set (List FileName)}
  {a : FileName} {ns : List FileName} {real : List FileName}

theorem below_nil (p : Path) : below p [] = p := List.append_nil p

theorem below_child (p : Path) (a : FileName) (ns : List FileName) :
    below (p ++ [.name a]) ns = below p (a :: ns) := by
  unfold below
  rw [List.append_assoc]
  rfl

theorem memberName_child (name : Text) (a : FileName) (ns : List FileName) :
    memberName (name ++ '/' :: a.text) ns = memberName name (a :: ns) := by
  unfold memberName
  rw [List.append_assoc, List.flatMap_cons]

theorem leads_cons : Leads fs p (a :: ns) ↔
    fs.isDir p = true ∧ a ∈ fs.listing p ∧ isExcluded a = false ∧ Leads fs (p ++ [.name a]) ns := by
  constructor
  · intro h
    cases h with
    | child hdir ha hkept hns => exact ⟨hdir, ha, hkept, hns⟩
  · rintro ⟨hdir, ha, hkept, hns⟩
    exact .child hdir ha hkept hns

/-- What lies below an entry leads to the same ancestors as it does from the directory. -/
theorem returns_child (hreal : fs.resolve p = some real) :
    Returns fs (insert real ancestors) (p ++ [.name a]) ns ↔ Returns fs ancestors p (a :: ns) := by
  have hback : ∀ d, (d ∈ insert real ancestors ∨
        ∃ ms, ms <+: ns ∧ ms ≠ ns ∧ fs.resolve (below (p ++ [.name a]) ms) = some d) ↔
      (d ∈ ancestors ∨ ∃ ms, ms <+: a :: ns ∧ ms ≠ a :: ns ∧ fs.resolve (below p ms) = some d) := by
    intro d
    rw [Finset.mem_insert]
    constructor
    · rintro ((rfl | hmem) | ⟨ms, hms, hne, hd⟩)
      · exact .inr ⟨[], List.nil_prefix, (List.cons_ne_nil a ns).symm, by rw [below_nil, hreal]⟩
      · exact .inl hmem
      · exact .inr ⟨a :: ms, List.cons_prefix_cons.2 ⟨rfl, hms⟩, fun heq => hne (List.cons.inj heq).2,
          by rw [← below_child, hd]⟩
    · rintro (hmem | ⟨ms, hms, hne, hd⟩)
      · exact .inl (.inr hmem)
      · rcases List.prefix_cons_iff.1 hms with rfl | ⟨ms, rfl, htail⟩
        · rw [below_nil, hreal] at hd
          exact .inl (.inl (Option.some.inj hd).symm)
        · exact .inr ⟨ms, htail, fun heq => hne (by rw [heq]), by rw [below_child, hd]⟩
  unfold Returns
  simp only [below_child] at hback ⊢
  simp only [hback]

theorem stopped_child (hreal : fs.resolve p = some real) :
    Stopped fs (insert real ancestors) (p ++ [.name a]) ns ↔ Stopped fs ancestors p (a :: ns) := by
  unfold Stopped
  rw [returns_child hreal, below_child]

theorem returns_nil (hreal : fs.resolve p = some real) : Returns fs ancestors p [] ↔ real ∈ ancestors := by
  unfold Returns
  rw [below_nil, hreal]
  constructor
  · rintro ⟨d, hd, hmem | ⟨ms, hms, hne, -⟩⟩
    · exact Option.some.inj hd ▸ hmem
    · exact absurd (List.prefix_nil.1 hms) hne
  · exact fun hmem => ⟨real, rfl, .inl hmem⟩

/-! ### Room for the calls -/

/-- A call for an entry has room when the one for its directory has room for one more. -/
theorem Fits.child {n : ℕ} (h : Fits fs (n + 1) p ancestors) (hreal : fs.resolve p = some real)
    (hmem : real ∉ ancestors) (hdir : fs.isDir p = true) (ha : a ∈ fs.listing p) (hkept : isExcluded a = false) :
    Fits fs n (p ++ [.name a]) (insert real ancestors) := by
  intro ns hns hfree
  refine Nat.lt_of_succ_lt_succ (h (a :: ns) (.child hdir ha hkept hns) fun ms hms hne => ?_)
  rcases List.prefix_cons_iff.1 hms with rfl | ⟨ms, rfl, htail⟩
  · rwa [returns_nil hreal]
  · rw [← returns_child hreal]
    exact hfree ms htail fun heq => hne (by rw [heq])

/-- There are no more calls inside one another than there are directories that are no ancestors, and one. -/
theorem fits_of_card {n : ℕ} (hn : (fs.places \ ancestors).card < n) : Fits fs n p ancestors := by
  intro ns hns hfree
  induction hns generalizing n ancestors with
  | here => exact Nat.zero_lt_of_lt hn
  | @child p a ns hdir ha hkept hns ih =>
    obtain ⟨x, hstat, hx⟩ := (Option.any_eq_true _ _).1 hdir
    obtain ⟨real, -, hreal, hnode, -⟩ := fs.exists_place hstat
    have hplace : real ∈ fs.places := (fs.mem_places real).2 (by rw [hnode]; rfl)
    have hmem : real ∉ ancestors := by
      rw [← returns_nil hreal]
      exact hfree [] List.nil_prefix (List.cons_ne_nil a ns).symm
    cases n with
    | zero => exact absurd hn (Nat.not_lt_zero _)
    | succ n =>
      have hless : (fs.places \ insert real ancestors).card < n :=
        Nat.lt_of_lt_of_le (card_sdiff_insert_lt hplace hmem) (Nat.le_of_lt_succ hn)
      refine Nat.succ_lt_succ (ih hless fun ms hms hne => ?_)
      rw [returns_child hreal]
      exact hfree (a :: ms) (List.cons_prefix_cons.2 ⟨rfl, hms⟩) fun heq => hne (List.cons.inj heq).2

/-! ### Parts of the archive -/

theorem Covers.congr {o : Except Failure (List Member)} (h : Covers fs p name ancestors S o)
    (hiff : ∀ ns, Leads fs p ns → (ns ∈ T ↔ ns ∈ S)) : Covers fs p name ancestors T o := by
  cases o with
  | error e =>
    obtain ⟨ns, hns, hleads, hstop⟩ := h
    exact ⟨ns, (hiff ns hleads).2 hns, hleads, hstop⟩
  | ok added =>
    obtain ⟨hgood, files, hnodup, hmem, hadded⟩ := h
    refine ⟨fun ns hns hleads => hgood ns ((hiff ns hleads).1 hns) hleads, files, hnodup, fun ns f => ?_, hadded⟩
    rw [hmem]
    exact ⟨fun ⟨hns, hleads, hf⟩ => ⟨(hiff ns hleads).2 hns, hleads, hf⟩,
      fun ⟨hns, hleads, hf⟩ => ⟨(hiff ns hleads).1 hns, hleads, hf⟩⟩

theorem covers_empty : Covers fs p name ancestors ∅ (.ok []) :=
  ⟨fun _ h => absurd h (Set.notMem_empty _), [], List.nodup_nil,
    fun _ _ => iff_of_false List.not_mem_nil fun h => Set.notMem_empty _ h.1, rfl⟩

theorem Covers.append {s t : List Member} (hs : Covers fs p name ancestors S (.ok s))
    (ht : Covers fs p name ancestors T (.ok t)) (hdisjoint : ∀ ns ∈ S, ns ∉ T) :
    Covers fs p name ancestors (S ∪ T) (.ok (s ++ t)) := by
  obtain ⟨hgood, files, hnodup, hmem, hadded⟩ := hs
  obtain ⟨hgood', files', hnodup', hmem', hadded'⟩ := ht
  refine ⟨fun ns hns => hns.elim (hgood ns) (hgood' ns), files ++ files', ?_, fun ns f => ?_, ?_⟩
  · refine List.nodup_append'.2 ⟨hnodup, hnodup', fun e he he' => ?_⟩
    exact hdisjoint _ ((hmem e.1 e.2).1 he).1 ((hmem' e.1 e.2).1 he').1
  · rw [List.mem_append, hmem, hmem', ← or_and_right, Set.mem_union]
  · rw [List.filter_append, List.map_append, hadded, hadded']

theorem Covers.error_mono {e : Failure} (h : Covers fs p name ancestors S (.error e)) (hsub : S ⊆ T) :
    Covers fs p name ancestors T (.error e) := by
  obtain ⟨ns, hns, hrest⟩ := h
  exact ⟨ns, hsub hns, hrest⟩

/-- The paths that begin with the entry `a`. -/
def beginning (a : FileName) : Set (List FileName) := {ns | ns.head? = some a}

/-- What a call for an entry covers, seen from the directory. -/
theorem Covers.child {o : Except Failure (List Member)} (hreal : fs.resolve p = some real)
    (hdir : fs.isDir p = true) (ha : a ∈ fs.listing p) (hkept : isExcluded a = false)
    (h : Covers fs (p ++ [.name a]) (name ++ '/' :: a.text) (insert real ancestors) Set.univ o) :
    Covers fs p name ancestors (beginning a) o := by
  have hleads : ∀ ns, Leads fs p (a :: ns) ↔ Leads fs (p ++ [.name a]) ns := fun ns =>
    leads_cons.trans ⟨fun h => h.2.2.2, fun h => ⟨hdir, ha, hkept, h⟩⟩
  have hbegin : ∀ ns ∈ beginning a, ∃ ms, ns = a :: ms := fun ns hns => by
    cases ns with
    | nil => cases hns
    | cons b ms => exact ⟨ms, by rw [Option.some.inj hns]⟩
  cases o with
  | error e =>
    obtain ⟨ns, -, hns, hstop⟩ := h
    exact ⟨a :: ns, rfl, (hleads ns).2 hns, (stopped_child hreal).1 hstop⟩
  | ok added =>
    obtain ⟨hgood, files, hnodup, hmem, hadded⟩ := h
    refine ⟨fun ns hns hway hstop => ?_, files.map fun e => (a :: e.1, e.2), ?_, fun ns f => ?_, ?_⟩
    · obtain ⟨ms, rfl⟩ := hbegin ns hns
      exact hgood ms (Set.mem_univ ms) ((hleads ms).1 hway) ((stopped_child hreal).2 hstop)
    · refine hnodup.map fun e e' heq => ?_
      obtain ⟨hfst, hsnd⟩ := Prod.mk.inj heq
      exact Prod.ext (List.cons.inj hfst).2 hsnd
    · rw [List.mem_map]
      constructor
      · rintro ⟨⟨ms, f'⟩, he, heq⟩
        obtain ⟨rfl, rfl⟩ := Prod.mk.inj heq
        obtain ⟨-, hway, hf⟩ := (hmem ms f').1 he
        exact ⟨rfl, (hleads ms).2 hway, below_child p a ms ▸ hf⟩
      · rintro ⟨hns, hway, hf⟩
        obtain ⟨ms, rfl⟩ := hbegin ns hns
        exact ⟨(ms, f), (hmem ms f).2 ⟨Set.mem_univ ms, (hleads ms).1 hway, (below_child p a ms).symm ▸ hf⟩, rfl⟩
    · rw [hadded, List.map_map]
      refine List.map_congr_left fun e _ => ?_
      rw [Function.comp_apply, member, member, memberName_child]

/-! ### One call -/

section Loop

variable {add : List Member → FileName → Option (Except Failure (List Member))} {children : List FileName}

theorem addChildren_excluded (h : isExcluded a = true) (archive : List Member) :
    addChildren add archive (a :: children) = addChildren add archive children := by
  rw [addChildren, if_pos h]

theorem addChildren_ok {archive archive' : List Member} (hkept : isExcluded a = false)
    (h : add archive a = some (.ok archive')) :
    addChildren add archive (a :: children) = addChildren add archive' children := by
  rw [addChildren, if_neg (by rw [hkept]; exact Bool.false_ne_true), h]

theorem addChildren_error {archive : List Member} {e : Failure} (hkept : isExcluded a = false)
    (h : add archive a = some (.error e)) : addChildren add archive (a :: children) = some (.error e) := by
  rw [addChildren, if_neg (by rw [hkept]; exact Bool.false_ne_true), h]

theorem mem_beginnings_cons {b : FileName} :
    {ns | ∃ c ∈ b :: children, ns ∈ beginning c} = beginning b ∪ {ns | ∃ c ∈ children, ns ∈ beginning c} := by
  ext ns
  show (∃ c ∈ b :: children, ns ∈ beginning c) ↔ ns ∈ beginning b ∨ ∃ c ∈ children, ns ∈ beginning c
  simp only [List.mem_cons, exists_eq_or_imp]

theorem addChildren_covers (hnodup : children.Nodup)
    (hadd : ∀ b ∈ children, isExcluded b = false →
      ∃ o, Adds (fun archive => add archive b) o ∧ Covers fs p name ancestors (beginning b) o) :
    ∃ o, Adds (fun archive => addChildren add archive children) o ∧
      Covers fs p name ancestors {ns | ∃ b ∈ children, ns ∈ beginning b} o := by
  induction children with
  | nil =>
    refine ⟨.ok [], fun archive => ?_, covers_empty.congr fun ns _ => ?_⟩
    · rw [List.append_nil]
      rfl
    · exact iff_of_false (fun ⟨b, hb, _⟩ => List.not_mem_nil hb) (Set.notMem_empty ns)
  | cons b children ih =>
    obtain ⟨hb, hnodup⟩ := List.nodup_cons.1 hnodup
    obtain ⟨o, ho, hcovers⟩ := ih hnodup fun c hc => hadd c (List.mem_cons_of_mem b hc)
    rw [mem_beginnings_cons]
    cases hkept : isExcluded b with
    | true =>
      -- no path goes through an excluded name
      have hskip : ∀ archive, addChildren add archive (b :: children) = addChildren add archive children :=
        addChildren_excluded hkept
      refine ⟨o, ?_, hcovers.congr fun ns hns => ?_⟩
      · simpa only [hskip] using ho
      · refine or_iff_right fun hbegin => ?_
        cases hns with
        | here => cases hbegin
        | child _ _ hkept' _ =>
          obtain rfl := Option.some.inj hbegin
          rw [hkept] at hkept'
          cases hkept'
    | false =>
      obtain ⟨o', ho', hcovers'⟩ := hadd b List.mem_cons_self hkept
      cases o' with
      | error e =>
        exact ⟨.error e, fun archive => addChildren_error hkept (ho' archive),
          hcovers'.error_mono Set.subset_union_left⟩
      | ok s =>
        have hgo : ∀ archive, addChildren add archive (b :: children) = addChildren add (archive ++ s) children :=
          fun archive => addChildren_ok hkept (ho' archive)
        cases o with
        | error e =>
          exact ⟨.error e, fun archive => (hgo archive).trans (ho (archive ++ s)),
            hcovers.error_mono Set.subset_union_right⟩
        | ok t =>
          -- what the entry adds, and what the others add
          refine ⟨.ok (s ++ t), fun archive => (hgo archive).trans ?_, hcovers'.append hcovers ?_⟩
          · rw [← List.append_assoc]
            exact ho (archive ++ s)
          · refine fun ns hns ⟨c, hc, hns'⟩ => hb ?_
            obtain rfl : b = c := Option.some.inj (Eq.trans (Eq.symm hns) hns')
            exact hc

end Loop

theorem stopped_nil : Stopped fs ancestors p [] ↔
    (∃ d ∈ ancestors, fs.resolve p = some d) ∨ fs.stat p = none ∨ fs.stat p = some .special := by
  unfold Stopped Returns
  rw [below_nil]
  refine or_congr (exists_congr fun d => ?_) Iff.rfl
  constructor
  · rintro ⟨hd, hmem | ⟨ms, hms, hne, -⟩⟩
    · exact ⟨hmem, hd⟩
    · exact absurd (List.prefix_nil.1 hms) hne
  · rintro ⟨hmem, hd⟩
    exact ⟨hd, .inl hmem⟩

theorem covers_stopped {e : Failure} (h : Stopped fs ancestors p []) :
    Covers fs p name ancestors Set.univ (.error e) :=
  ⟨[], Set.mem_univ _, .here, h⟩

section Here

variable (hres : fs.resolve p = some real) (hmem : real ∉ ancestors)

include hres hmem

theorem not_stopped_here {x : Node FileName File} (hstat : fs.stat p = some x) (hx : x ≠ .special) :
    ¬ Stopped fs ancestors p [] := by
  rw [stopped_nil, hstat, hres]
  rintro (⟨d, hd, heq⟩ | hnone | hspecial)
  · exact hmem (Option.some.inj heq ▸ hd)
  · cases hnone
  · exact hx (Option.some.inj hspecial)

theorem covers_file {f : File} (hstat : fs.stat p = some (.file f)) :
    Covers fs p name ancestors {[]} (.ok [member name ([], f)]) := by
  refine ⟨fun ns hns _ => ?_, [([], f)], List.nodup_singleton _, fun ns g => ?_, rfl⟩
  · obtain rfl := hns
    exact not_stopped_here hres hmem hstat nofun
  · rw [List.mem_singleton]
    constructor
    · intro heq
      obtain ⟨rfl, rfl⟩ := Prod.mk.inj heq
      exact ⟨rfl, .here, (below_nil p).symm ▸ hstat⟩
    · rintro ⟨rfl, -, hg⟩
      rw [below_nil, hstat] at hg
      rw [Node.file.inj (Option.some.inj hg)]

theorem covers_dir {m : Member} (hm : m.isRegular = false) (hstat : fs.stat p = some .dir) :
    Covers fs p name ancestors {[]} (.ok [m]) := by
  refine ⟨fun ns hns _ => ?_, [], List.nodup_nil, fun ns g => iff_of_false List.not_mem_nil ?_, ?_⟩
  · obtain rfl := hns
    exact not_stopped_here hres hmem hstat nofun
  · rintro ⟨rfl, -, hg⟩
    rw [below_nil, hstat] at hg
    cases hg
  · rw [List.filter_cons_of_neg (by rw [hm]; exact Bool.false_ne_true)]
    rfl

end Here

theorem addTree_unresolved (hres : fs.resolve p = none) (n : ℕ) (archive : List Member) :
    addTree fs (n + 1) archive p name ancestors = some (.error .os) := by
  rw [addTree]
  rw [hres]

theorem addTree_circular (hres : fs.resolve p = some real) (hmem : real ∈ ancestors) (n : ℕ)
    (archive : List Member) : addTree fs (n + 1) archive p name ancestors =
      some (.error (.value ("Circular symlink in workflow resource: ".toList ++ pathText p))) := by
  rw [addTree]
  rw [hres]
  exact if_pos hmem

theorem addTree_dir (hres : fs.resolve p = some real) (hmem : real ∉ ancestors) (hstat : fs.stat p = some .dir)
    (n : ℕ) (archive : List Member) : addTree fs (n + 1) archive p name ancestors =
      addChildren (fun archive child =>
          addTree fs n archive (p ++ [.name child]) (name ++ '/' :: child.text) (insert real ancestors))
        (archive ++ [.dir (name ++ ['/']) 0o755]) (fs.listing p) := by
  rw [addTree]
  simp only [hres, if_neg hmem, hstat]

theorem addTree_file {f : File} (hres : fs.resolve p = some real) (hmem : real ∉ ancestors)
    (hstat : fs.stat p = some (.file f)) (n : ℕ) (archive : List Member) :
    addTree fs (n + 1) archive p name ancestors = some (.ok (archive ++ [member name ([], f)])) := by
  rw [addTree]
  simp only [hres, if_neg hmem, hstat, member, memberName, List.flatMap_nil, List.append_nil]

theorem addTree_unsupported (hres : fs.resolve p = some real) (hmem : real ∉ ancestors)
    (hstat : fs.stat p = none ∨ fs.stat p = some .special) (n : ℕ) (archive : List Member) :
    addTree fs (n + 1) archive p name ancestors =
      some (.error (.value ("Unsupported resource file: ".toList ++ pathText p))) := by
  rw [addTree]
  rcases hstat with hstat | hstat <;> simp only [hres, if_neg hmem, hstat]

/-- One call gives an outcome that does not depend on the archive, and one for every path below it. The calls inside
have the directory among their ancestors. -/
theorem addTree_covers {n : ℕ} (hn : Fits fs n p ancestors) :
    ∃ o, Adds (fun archive => addTree fs n archive p name ancestors) o ∧ Covers fs p name ancestors Set.univ o := by
  induction n generalizing p name ancestors with
  | zero =>
    -- this call is one already
    have hnot := hn [] .here fun ms hms hne => absurd (List.prefix_nil.1 hms) hne
    exact absurd hnot (Nat.not_lt_zero _)
  | succ n ih =>
    cases hres : fs.resolve p with
    | none =>
      refine ⟨.error .os, addTree_unresolved hres n, covers_stopped (stopped_nil.2 (.inr (.inl ?_)))⟩
      cases hstat : fs.stat p with
      | none => rfl
      | some x =>
        obtain ⟨r, -, hr, -⟩ := fs.exists_place hstat
        rw [hres] at hr
        cases hr
    | some real =>
      by_cases hmem : real ∈ ancestors
      · exact ⟨.error _, addTree_circular hres hmem n, covers_stopped (stopped_nil.2 (.inl ⟨real, hmem, hres⟩))⟩
      by_cases hbad : fs.stat p = none ∨ fs.stat p = some .special
      · exact ⟨.error _, addTree_unsupported hres hmem hbad n, covers_stopped (stopped_nil.2 (.inr hbad))⟩
      obtain ⟨x, hstat⟩ := Option.ne_none_iff_exists'.1 fun h => hbad (.inl h)
      obtain ⟨r, -, hr, hx, hlink⟩ := fs.exists_place hstat
      obtain rfl : real = r := Option.some.inj (hres.symm.trans hr)
      cases x with
      | link absolute target => cases hlink
      | special => exact absurd (.inr hstat) hbad
      | file f =>
        refine ⟨.ok [member name ([], f)], addTree_file hres hmem hstat n,
          (covers_file hres hmem hstat).congr fun ns hns => iff_of_true (Set.mem_univ ns) ?_⟩
        cases hns with
        | here => rfl
        | child hdir _ _ _ =>
          rw [FileSystem.isDir, hstat] at hdir
          cases hdir
      | dir =>
        have hdir : fs.isDir p = true := by rw [FileSystem.isDir, hstat]; rfl
        -- the calls for the entries, with the directory among their ancestors
        have hchild : ∀ b ∈ fs.listing p, isExcluded b = false → ∃ o,
            Adds (fun archive =>
              addTree fs n archive (p ++ [.name b]) (name ++ '/' :: b.text) (insert real ancestors)) o ∧
            Covers fs p name ancestors (beginning b) o := by
          intro b hb hkept
          obtain ⟨o, ho, hcovers⟩ := ih (hn.child hres hmem hdir hb hkept)
          exact ⟨o, ho, hcovers.child hres hdir hb hkept⟩
        obtain ⟨o, ho, hcovers⟩ := addChildren_covers (fs.listing_nodup p) hchild
        -- the directory itself comes first
        have hhere : Covers fs p name ancestors {[]} (.ok [.dir (name ++ ['/']) 0o755]) :=
          covers_dir hres hmem rfl hstat
        cases o with
        | error e =>
          exact ⟨.error e, fun archive => (addTree_dir hres hmem hstat n archive).trans (ho _),
            hcovers.error_mono (Set.subset_univ _)⟩
        | ok added =>
          refine ⟨.ok (.dir (name ++ ['/']) 0o755 :: added), fun archive => ?_,
            (hhere.append hcovers ?_).congr fun ns hns => iff_of_true (Set.mem_univ ns) ?_⟩
          · refine (addTree_dir hres hmem hstat n archive).trans ((ho _).trans ?_)
            rw [List.append_assoc, List.singleton_append]
          · refine fun ns hnil ⟨b, _, hbegin⟩ => ?_
            obtain rfl := hnil
            cases hbegin
          · cases hns with
            | here => exact .inl rfl
            | child _ hb _ _ => exact .inr ⟨_, hb, rfl⟩

/-! ### Names of members -/

theorem parts_memberName (name : Text) (ns : List FileName) :
    (PosixPath.parse (memberName name ns)).parts = (PosixPath.parse name).parts ++ ns.map FileName.text := by
  induction ns generalizing name with
  | nil => rw [memberName, List.flatMap_nil, List.append_nil, List.map_nil, List.append_nil]
  | cons a ns ih =>
    have ha : (PosixPath.parse a.text).parts = [a.text] := by
      have hsplit : a.text.splitOn '/' = [a.text] := List.splitOn_eq_singleton a.no_slash
      rw [PosixPath.parse, hsplit]
      exact List.filter_eq_self.2 fun s hs => decide_eq_true (List.mem_singleton.1 hs ▸ ⟨a.ne_nil, a.ne_dots.1⟩)
    rw [← memberName_child, ih, PosixPath.parts_append_slash, ha, List.append_assoc, List.map_cons,
      List.singleton_append]

/-- Different paths have different names in the archive. -/
theorem memberName_injective {ms : List FileName}
    (h : (memberName name ns).dropWhile (· = '/') = (memberName name ms).dropWhile (· = '/')) : ns = ms := by
  have hparts := congrArg (fun t => (PosixPath.parse t).parts) h
  simp only [PosixPath.parts_dropWhile, parts_memberName] at hparts
  exact List.map_injective_iff.2 text_injective (List.append_cancel_left hparts)

/-! ### All calls -/

theorem isDir_on_way {ms : List FileName} (h : Leads fs p ns) (hms : ms <+: ns) (hne : ms ≠ ns) :
    fs.isDir (below p ms) = true := by
  induction h generalizing ms with
  | here => exact absurd (List.prefix_nil.1 hms) hne
  | @child p a ns hdir ha hkept hns ih =>
    rcases List.prefix_cons_iff.1 hms with rfl | ⟨ms, rfl, htail⟩
    · rwa [below_nil]
    · rw [← below_child]
      exact ih htail fun heq => hne (by rw [heq])

theorem exists_entry (h : Leads fs p ns) {ms : List FileName} (hns : ns = ms ++ [a]) : a ∈ fs.listing (below p ms) := by
  induction h generalizing ms with
  | here => exact absurd hns.symm (List.append_ne_nil_of_right_ne_nil ms (List.cons_ne_nil a []))
  | @child p b ns hdir hb hkept _ ih =>
    cases ms with
    | nil =>
      obtain rfl := (List.cons.inj hns).1
      rwa [below_nil]
    | cons c ms =>
      obtain ⟨rfl, htail⟩ := List.cons.inj hns
      rw [← below_child]
      exact ih htail

/-- Without ancestors, a path leads round in a circle. -/
theorem returns_iff (h : Leads fs p ns) : Returns fs ∅ p ns ↔ Circular fs p ns := by
  constructor
  · rintro ⟨d, hd, hempty | ⟨ms, hms, hne, hms'⟩⟩
    · exact absurd hempty (Finset.notMem_empty d)
    · obtain ⟨x, hstat, hx⟩ := (Option.any_eq_true _ _).1 (isDir_on_way h hms hne)
      obtain ⟨r, -, hr, hnode, -⟩ := fs.exists_place hstat
      obtain rfl : d = r := Option.some.inj (hms'.symm.trans hr)
      cases x with
      | dir => exact ⟨ms, d, hms, hne, hms', hd, hnode⟩
      | _ => cases hx
  · rintro ⟨ms, d, hms, hne, hms', hd, -⟩
    exact ⟨d, hd, .inr ⟨ms, hms, hne, hms'⟩⟩

theorem Leads.of_prefix {ms : List FileName} (h : Leads fs p ns) (hms : ms <+: ns) : Leads fs p ms := by
  induction h generalizing ms with
  | here =>
    rw [List.prefix_nil.1 hms]
    exact .here
  | child hdir ha hkept _ ih =>
    rcases List.prefix_cons_iff.1 hms with rfl | ⟨ms, rfl, htail⟩
    · exact .here
    · exact .child hdir ha hkept (ih htail)

theorem fits_iff {limit : ℕ} : Fits fs limit p ∅ ↔ Shallow fs limit p := by
  refine forall₂_congr fun ns hns => imp_congr_left ?_
  refine forall₃_congr fun ms hms _ => not_congr ?_
  exact returns_iff (hns.of_prefix hms)

theorem stopped_iff (h : Leads fs p ns) :
    Stopped fs ∅ p ns ↔ Circular fs p ns ∨ Unresolvable fs p ns ∨ Special fs p ns := by
  unfold Stopped
  rw [returns_iff h]
  constructor
  · rintro (hcircular | hnone | hspecial)
    · exact .inl hcircular
    · refine .inr (.inl ⟨hnone, fun ms a hns => ?_⟩)
      obtain ⟨x, hx⟩ := Option.isSome_iff_exists.1 (FileSystem.mem_listing.1 (exists_entry h hns))
      have hpath : below p ns = below p ms ++ [.name a] := by
        rw [hns, below, below, List.map_append, List.append_assoc]
        rfl
      rw [hx, Option.any_some]
      exact FileSystem.isLink_of_lstat hx (hpath ▸ hnone)
    · exact .inr (.inr hspecial)
  · rintro (hcircular | ⟨hnone, -⟩ | hspecial)
    · exact .inl hcircular
    · exact .inr (.inl hnone)
    · exact .inr (.inr hspecial)

theorem addChildren_mono {add add' : List Member → FileName → Option (Except Failure (List Member))}
    (h : ∀ archive b r, add archive b = some r → add' archive b = some r) {archive : List Member}
    {children : List FileName} {r : Except Failure (List Member)} (hr : addChildren add archive children = some r) :
    addChildren add' archive children = some r := by
  induction children generalizing archive with
  | nil => exact hr
  | cons b children ih =>
    cases hkept : isExcluded b with
    | true =>
      rw [addChildren_excluded hkept] at hr ⊢
      exact ih hr
    | false =>
      cases hb : add archive b with
      | none => rw [addChildren, if_neg (by rw [hkept]; exact Bool.false_ne_true), hb] at hr; cases hr
      | some o =>
        cases o with
        | error e => rwa [addChildren_error hkept (h archive b _ hb), ← addChildren_error hkept hb]
        | ok archive' =>
          rw [addChildren_ok hkept hb] at hr
          rw [addChildren_ok hkept (h archive b _ hb)]
          exact ih hr

/-- A larger bound on the depth changes no outcome. -/
theorem addTree_succ {n : ℕ} {archive : List Member} {r : Except Failure (List Member)}
    (h : addTree fs n archive p name ancestors = some r) : addTree fs (n + 1) archive p name ancestors = some r := by
  induction n generalizing archive p name ancestors r with
  | zero => cases h
  | succ n ih =>
    rw [addTree] at h ⊢
    split at h
    · exact h
    · split at h
      · next hmem => rwa [if_pos hmem]
      · next hmem =>
        rw [if_neg hmem]
        split at h
        · exact addChildren_mono (fun _ _ _ hchild => ih hchild) h
        · exact h
        · exact h

theorem addTree_mono {n m : ℕ} (hnm : n ≤ m) {archive : List Member} {r : Except Failure (List Member)}
    (h : addTree fs n archive p name ancestors = some r) : addTree fs m archive p name ancestors = some r := by
  induction hnm with
  | refl => exact h
  | step _ ih => exact addTree_succ ih

/-- What is added is the same, when the results are. -/
theorem Adds.unique {f g : List Member → Option (Except Failure (List Member))} {o o' : Except Failure (List Member)}
    (h : Adds f o) (h' : Adds g o') (hsame : ∀ archive r r', f archive = some r → g archive = some r' → r = r') :
    o = o' := by
  cases o with
  | error e =>
    cases o' with
    | error e' => exact congrArg _ (Except.error.inj (hsame [] _ _ (h []) (h' [])))
    | ok added' => cases hsame [] _ _ (h []) (h' [])
  | ok added =>
    cases o' with
    | error e' => cases hsame [] _ _ (h []) (h' [])
    | ok added' => exact congrArg _ (Except.ok.inj (hsame [] _ _ (h []) (h' [])))

theorem names_nodup {files : List (List FileName × File)} (hnodup : files.Nodup)
    (hmem : ∀ ns f, (ns, f) ∈ files → fs.stat (below p ns) = some (.file f)) :
    ((files.map (member name)).map Member.name).Nodup := by
  rw [List.map_map]
  refine (List.nodup_map_iff_inj_on hnodup).2 ?_
  rintro ⟨ns, f⟩ he ⟨ms, g⟩ he' heq
  obtain rfl : ns = ms := memberName_injective heq
  have hf := (hmem ns f he).symm.trans (hmem ns g he')
  rw [Node.file.inj (Option.some.inj hf)]

/-- As long as the calls have room there is an outcome, whatever is in the archive, and one more than the number of
places is room enough. It is an error exactly when a path from the source leads round in a circle, to a link that leads
nowhere, or to a special file. Otherwise there is one regular member for each path to a regular file, and their names
are different. -/
theorem addTree_correct (fs : Files) (source : Path) (name : Text) :
    Shallow fs (fs.places.card + 1) source ∧
      ∃ o, (∀ limit, Shallow fs limit source → Adds (fun archive => addTree fs limit archive source name ∅) o) ∧
        ((∃ e, o = .error e) ↔ ∃ ns, Leads fs source ns ∧
          (Circular fs source ns ∨ Unresolvable fs source ns ∨ Special fs source ns)) ∧
        ∀ added, o = .ok added → ∃ files : List (List FileName × File), files.Nodup ∧
          (∀ ns f, (ns, f) ∈ files ↔ Leads fs source ns ∧ fs.stat (below source ns) = some (.file f)) ∧
          added.filter Member.isRegular = files.map (member name) ∧
          ((added.filter Member.isRegular).map Member.name).Nodup := by
  have hstart : Fits fs (fs.places.card + 1) source ∅ := fits_of_card (by
    rw [Finset.sdiff_empty]
    exact Nat.lt_succ_self _)
  obtain ⟨o, ho, hcovers⟩ : ∃ o, Adds (fun archive => addTree fs (fs.places.card + 1) archive source name ∅) o ∧
      Covers fs source name ∅ Set.univ o := addTree_covers hstart
  refine ⟨fits_iff.1 hstart, o, fun limit hlimit => ?_, ?_, ?_⟩
  · -- the outcome with this limit and the one above are both that with the larger limit
    obtain ⟨o', ho', -⟩ : ∃ o', Adds (fun archive => addTree fs limit archive source name ∅) o' ∧
        Covers fs source name ∅ Set.univ o' := addTree_covers (fits_iff.2 hlimit)
    have hsame : o' = o := ho'.unique ho fun archive r r' hr hr' => Option.some.inj
      ((addTree_mono (Nat.le_max_left _ _) hr).symm.trans (addTree_mono (Nat.le_max_right limit _) hr'))
    exact hsame ▸ ho'
  · cases o with
    | error e =>
      obtain ⟨ns, -, hns, hstop⟩ := hcovers
      exact iff_of_true ⟨e, rfl⟩ ⟨ns, hns, (stopped_iff hns).1 hstop⟩
    | ok added =>
      refine iff_of_false (fun ⟨e, he⟩ => by cases he) fun ⟨ns, hns, hstop⟩ => ?_
      exact hcovers.1 ns (Set.mem_univ ns) hns ((stopped_iff hns).2 hstop)
  · rintro added rfl
    obtain ⟨-, files, hnodup, hmem, hadded⟩ := hcovers
    refine ⟨files, hnodup, fun ns f => ?_, hadded, ?_⟩
    · rw [hmem, and_iff_right (Set.mem_univ ns)]
    · rw [hadded]
      exact names_nodup hnodup fun ns f he => ((hmem ns f).1 he).2.2

/-! ### Directories inside one another -/

/-- A directory with the name `a`, in it another one of this name, and so on to a depth. -/
def nested (a : FileName) (depth : ℕ) : Files where
  node d := if d ∈ (Finset.range (depth + 1)).image fun k => List.replicate k a then some .dir else none
  places := (Finset.range (depth + 1)).image fun k => List.replicate k a
  mem_places d := by
    split
    · next h => exact iff_of_true h rfl
    · next h => exact iff_of_false h Bool.false_ne_true
  root := if_pos (Finset.mem_image.2 ⟨0, Finset.mem_range.2 (Nat.succ_pos depth), rfl⟩)
  parent d b h := by
    obtain ⟨k, hk, hd⟩ := Finset.mem_image.1 (Option.isSome_ite.1 h)
    cases k with
    | zero => exact absurd hd.symm (List.append_ne_nil_of_right_ne_nil d (List.cons_ne_nil b []))
    | succ k =>
      rw [List.replicate_succ'] at hd
      obtain ⟨rfl, -⟩ := List.append_inj' hd rfl
      exact if_pos (Finset.mem_image.2 ⟨k, Finset.mem_range.2 (Nat.lt_of_succ_lt (Finset.mem_range.1 hk)), rfl⟩)
  limit := 40

section Nested

variable {depth i j n : ℕ} {b : FileName}

theorem nested_node (hj : j ≤ depth) : (nested a depth).node (List.replicate j a) = some .dir :=
  if_pos (Finset.mem_image.2 ⟨j, Finset.mem_range.2 (Nat.lt_succ_of_le hj), rfl⟩)

theorem nested_walk (hij : i + j ≤ depth) : (nested a depth).walk n (List.replicate i a) (List.replicate j (.name a)) =
    some (List.replicate (i + j) a) := by
  induction j generalizing i with
  | zero => cases n <;> rfl
  | succ j ih =>
    have hnode : (nested a depth).node (List.replicate i a ++ [a]) = some .dir := by
      rw [← List.replicate_succ']
      exact nested_node (by omega)
    have hrest := @ih (i + 1) (by omega)
    rw [List.replicate_succ', show i + 1 + j = i + (j + 1) by omega] at hrest
    rw [List.replicate_succ]
    cases n with
    | zero =>
      rw [FileSystem.walk, FileSystem.along] at *
      simpa only [hnode] using hrest
    | succ n =>
      rw [FileSystem.walk, FileSystem.along] at *
      simpa only [hnode] using hrest

theorem nested_resolve (hj : j ≤ depth) :
    (nested a depth).resolve (List.replicate j (.name a)) = some (List.replicate j a) := by
  have hwalk : (nested a depth).walk 40 (List.replicate 0 a) (List.replicate j (.name a)) = _ :=
    nested_walk (by rwa [Nat.zero_add])
  rw [Nat.zero_add] at hwalk
  exact FileSystem.resolve_of_walk hwalk

theorem nested_stat (hj : j ≤ depth) : (nested a depth).stat (List.replicate j (.name a)) = some .dir := by
  have hwalk : (nested a depth).walk 40 (List.replicate 0 a) (List.replicate j (.name a)) = _ :=
    nested_walk (by rwa [Nat.zero_add])
  rw [Nat.zero_add] at hwalk
  exact (congrArg (·.bind (nested a depth).node) hwalk).trans (nested_node hj)

theorem mem_nested_listing (hj : j ≤ depth) :
    b ∈ (nested a depth).listing (List.replicate j (.name a)) ↔ b = a ∧ j < depth := by
  have hwalk : (nested a depth).walk 40 (List.replicate 0 a) (List.replicate j (.name a)) = _ :=
    nested_walk (by rwa [Nat.zero_add])
  rw [Nat.zero_add] at hwalk
  have hlstat : (nested a depth).lstat (List.replicate j (.name a)) b =
      (nested a depth).node (List.replicate j a ++ [b]) :=
    congrArg (·.bind fun d => (nested a depth).node (d ++ [b])) hwalk
  rw [FileSystem.mem_listing, hlstat]
  constructor
  · intro h
    obtain ⟨k, hk, hd⟩ := Finset.mem_image.1 (Option.isSome_ite.1 h)
    cases k with
    | zero => exact absurd hd.symm (List.append_ne_nil_of_right_ne_nil _ (List.cons_ne_nil b []))
    | succ k =>
      rw [List.replicate_succ'] at hd
      obtain ⟨hfront, hlast⟩ := List.append_inj' hd rfl
      obtain rfl : k = j := by simpa using congrArg List.length hfront
      exact ⟨(List.cons.inj hlast).1.symm, Nat.lt_of_succ_lt_succ (Finset.mem_range.1 hk)⟩
  · rintro ⟨rfl, hlt⟩
    rw [← List.replicate_succ', nested_node hlt]
    rfl

theorem nested_listing (hj : j < depth) : (nested a depth).listing (List.replicate j (.name a)) = [a] := by
  refine List.perm_singleton.1 ((List.perm_ext_iff_of_nodup (FileSystem.listing_nodup _) (List.nodup_singleton a)).2 ?_)
  intro b
  rw [mem_nested_listing hj.le, and_iff_left hj, List.mem_singleton]

/-- Below such a directory there are only directories of this kind. -/
theorem nested_leads {p : Path} (h : Leads (nested a depth) p ns) (hp : p = List.replicate j (.name a))
    (hj : j ≤ depth) : ∃ k, ns = List.replicate k a ∧ j + k ≤ depth := by
  induction h generalizing j with
  | here => exact ⟨0, rfl, hj⟩
  | @child p b ns hdir hb hkept hns ih =>
    subst hp
    obtain ⟨rfl, hlt⟩ := (mem_nested_listing hj).1 hb
    obtain ⟨k, rfl, hk⟩ := ih (List.replicate_succ' (n := j)).symm hlt
    exact ⟨k + 1, rfl, by omega⟩

/-- Nothing below such a directory makes the function raise an error of its own. -/
theorem nested_sound (hj : j ≤ depth) (h : Leads (nested a depth) (List.replicate j (.name a)) ns) :
    ¬ (Circular (nested a depth) (List.replicate j (.name a)) ns ∨
      Unresolvable (nested a depth) (List.replicate j (.name a)) ns ∨
      Special (nested a depth) (List.replicate j (.name a)) ns) := by
  have hbelow : ∀ k, below (List.replicate j (.name a)) (List.replicate k a) = List.replicate (j + k) (.name a) :=
    fun k => by rw [below, List.map_replicate, List.replicate_append_replicate]
  obtain ⟨k, rfl, hk⟩ := nested_leads h rfl hj
  unfold Circular Unresolvable Special
  rw [hbelow, nested_stat hk, nested_resolve hk]
  rintro (⟨ms, d, hms, hne, hd, hd', -⟩ | ⟨hnone, -⟩ | hspecial)
  · obtain ⟨hlen, hreplicate⟩ := List.prefix_replicate_iff.1 hms
    rw [hreplicate, hbelow, nested_resolve (by omega)] at hd
    have hlength := congrArg List.length (Option.some.inj (hd.trans hd'.symm))
    rw [List.length_replicate, List.length_replicate] at hlength
    exact hne (by rw [hreplicate, Nat.add_left_cancel hlength])
  · cases hnone
  · cases hspecial

/-- With as many directories inside one another as calls have room, there is no outcome. -/
theorem addTree_nested (hkept : isExcluded a = false) (hroom : j + n ≤ depth)
    (hancestors : ∀ k, j ≤ k → List.replicate k a ∉ ancestors) (archive : List Member) :
    addTree (nested a depth) n archive (List.replicate j (.name a)) name ancestors = none := by
  induction n generalizing j archive name ancestors with
  | zero => rfl
  | succ n ih =>
    have hnone := @ih (name ++ '/' :: a.text) (insert (List.replicate j a) ancestors) (j + 1) (by omega)
      (fun k hk hmem => by
        rcases Finset.mem_insert.1 hmem with heq | hmem
        · have hlength := congrArg List.length heq
          rw [List.length_replicate, List.length_replicate] at hlength
          omega
        · exact hancestors k (by omega) hmem)
    rw [addTree_dir (nested_resolve (by omega)) (hancestors j le_rfl) (nested_stat (by omega)),
      nested_listing (by omega)]
    rw [List.replicate_succ'] at hnone
    rw [addChildren, if_neg (by rw [hkept]; exact Bool.false_ne_true), hnone]

end Nested

/-- A thousand directories inside one another, and the limit of Python: there is an error without a circle, a link that
leads nowhere or a special file. -/
theorem addTree_too_deep : ∃ (fs : Files) (source : Path),
    (∀ ns, Leads fs source ns → ¬ (Circular fs source ns ∨ Unresolvable fs source ns ∨ Special fs source ns)) ∧
      ∀ archive name, addTree fs 1000 archive source name ∅ = none := by
  refine ⟨nested ⟨['d'], by decide, by decide, by decide⟩ 1001, [.name ⟨['d'], by decide, by decide, by decide⟩],
    fun ns h => ?_, fun archive name => ?_⟩
  · exact nested_sound (j := 1) (by decide) h
  · exact addTree_nested (j := 1) (by decide +kernel) (by decide) (fun k _ => Finset.notMem_empty _) archive

end AddTree
end Portable
end Slurmy
