import Slurmy.Lib.TemplateSub
import Slurmy.Lib.Utf8Sub
import Slurmy.Workflow.Remap
import Slurmy.Workflow.Renamed

/-!
# The texts of a renamed workflow

`rename_workflow` replaces the directory in the bytes of the files, without the slash it begins with, and in the data
with it; in either case only before certain characters.

* `Place`: the directory of a workflow;
* `rewrite`, `renamedData`: the replacements;
* `Place.request`: the renaming with them;
* `rewrite_iff`, `data_relocated_iff`: where exactly the paths at and below the directory are relocated;
* `renamed_relocated_iff`: the files of a workflow that has been renamed.
-/

namespace Slurmy
namespace Workflow
namespace RenameTexts

open Attempt Disk Generated Relocating
open Remap (Dictionary Form Renaming previousKey)
open Saving (Bytes Files)

/-- The components of a path. -/
abbrev Path := Saving.Path

/-! ### The directories -/

/-- `str(path)`. -/
def pathText (p : Path) : Text := p.flatMap fun part => '/' :: part

/-- `str.lstrip('/')`. -/
def lstrip (t : Text) : Text := t.dropWhile (· == '/')

/-- A workflow in `USER_RUNS`. -/
structure Place where
  home : Path
  former : Text
  home_ne : home ≠ []
  parts : ∀ part ∈ home, part ≠ [] ∧ '/' ∉ part
  slash : '/' ∉ former

def Place.source (p : Place) : Path := p.home ++ [p.former]

/-! ### The replacements -/

/-- `[/\x00\s\x22\x27]|$`. -/
def isEndByte : Option ℕ → Bool
  | none => true
  | some b => b ∈ [47, 0, 9, 10, 11, 12, 13, 32, 34, 39]

/-- `[/\s\x22\x27]|$`. -/
def isEndChar : Option Char → Bool
  | none => true
  | some c => c == '/' || Lines.isSpace c || c == '"' || c == '\''

/-- The bytes of a text. -/
def utf8 (t : Text) : Bytes := (Utf8.encode t).map UInt8.ofNat

/-- `rewrite(body)`. -/
def rewrite (old new : Text) (body : Bytes) : Bytes :=
  (Replace.sub (Utf8.encode (lstrip old)) (Utf8.encode (lstrip new)) isEndByte 0 (body.map UInt8.toNat)).map UInt8.ofNat

/-- `remap(value)` of a string. -/
def remap (old new t : Text) : Text := Replace.sub old new isEndChar 0 t

structure Member where
  name : Text
  isFile : Bool
  body : Bytes
  deriving DecidableEq

def Member.rewrite (old new : Text) (m : Member) : Member :=
  if m.isFile then { m with body := RenameTexts.rewrite old new m.body } else m

/-- What comes from other modules: `decisions` of a workflow, `json.dumps`, and reading and writing archives. -/
structure Library where
  decisions : Files → Option (Dictionary Value)
  dumps : Dictionary Text → Bytes
  unpack : Bytes → Option (List Member)
  pack : List Member → Bytes

/-- A new archive, when one of its files changes. -/
def rewriteBundle (lib : Library) (old new : Text) (body : Bytes) : Option (Option Bytes) :=
  (lib.unpack body).map fun members =>
    if members.map (Member.rewrite old new) = members then none
    else some (lib.pack (members.map (Member.rewrite old new)))

def nameKey : Text := "name".toList

def textOf : Form Text → Option Text
  | .text t => some t
  | _ => none

/-- `data.get('_previous_directories', [])`, a list of strings. -/
def previousOf : Option (Form Text) → Option (List Text)
  | none => some []
  | some (.list items) => items.mapM textOf
  | some _ => none

/-- The data of the renamed workflow. -/
def renamedData (old new name : Text) (data : Dictionary Value) : Option (Dictionary Text) :=
  let remapped := Dict.put (Dict.mapValues (Form.map fun v => remap old new (Value.text v)) data) nameKey (.text name)
  (previousOf (Dict.get remapped previousKey)).map fun previous =>
    Dict.put remapped previousKey (.list ((previous ++ [old]).eraseDups.map .text))

/-- `rename_workflow` for a new name. -/
def Place.request (p : Place) (name : Text) (lib : Library) (listing : ∀ t, Listing p.source t) : Request p.source where
  name := name
  manifest t := do
    let data ← lib.decisions t
    let renamed ← renamedData (pathText p.source) (pathText (p.home ++ [name])) name data
    return lib.dumps renamed
  rewrite := rewrite (pathText p.source) (pathText (p.home ++ [name]))
  rewriteBundle := rewriteBundle lib (pathText p.source) (pathText (p.home ++ [name]))
  listing := listing

/-! ### Bytes -/

variable {t u : Text} {body : Bytes}

theorem encode_lt (t : Text) : ∀ b ∈ Utf8.encode t, b < 256 := by
  intro b hb
  obtain ⟨c, -, hc⟩ := List.mem_flatMap.mp hb
  have hbounds := Utf8.toNat_bounds c
  unfold Utf8.encodeChar at hc
  dsimp only at hc
  split_ifs at hc
  all_goals
    simp only [List.mem_cons, List.not_mem_nil, or_false] at hc
    omega

theorem toNat_utf8 (t : Text) : (utf8 t).map UInt8.toNat = Utf8.encode t := by
  have hback : ∀ b ∈ Utf8.encode t, (UInt8.toNat ∘ UInt8.ofNat) b = b := fun b hb =>
    UInt8.toNat_ofNat_of_lt' (encode_lt t b hb)
  unfold utf8
  rw [List.map_map, List.map_congr_left hback, List.map_id']

theorem utf8_inj (h : utf8 t = utf8 u) : t = u := by
  have hbytes := congrArg (List.map UInt8.toNat) h
  rw [toNat_utf8, toNat_utf8] at hbytes
  rw [← Utf8.decode_encode t, hbytes, Utf8.decode_encode]

/-- What may follow the directory in a text. -/
def isEnd (c : Option Char) : Bool := isEndByte (Utf8.firstByte c)

/-- Replacing in the bytes replaces in the text. -/
theorem rewrite_utf8 {old new : Text} (hold : lstrip old ≠ []) (t : Text) :
    rewrite old new (utf8 t) = utf8 (Replace.sub (lstrip old) (lstrip new) isEnd 0 t) := by
  unfold rewrite
  rw [toNat_utf8, Utf8.sub_encode hold]
  rfl

/-! ### The directory's text -/

section

variable (p : Place) {name : Text}

/-- `USER_RUNS`, with a slash behind it. -/
def Place.runs : Text := pathText p.home ++ ['/']

theorem pathText_concat (path : Path) (part : Text) : pathText (path ++ [part]) = pathText path ++ ['/'] ++ part := by
  unfold pathText
  rw [List.flatMap_append, List.append_assoc]
  exact congrArg (_ ++ ·) (List.flatMap_singleton _ _)

/-- The text begins with one slash only. -/
theorem Place.runs_cons : ∃ c rest, p.runs = '/' :: c :: rest ∧ c ≠ '/' := by
  obtain ⟨part, home, hhome⟩ := List.exists_cons_of_ne_nil p.home_ne
  obtain ⟨hne, hslash⟩ := p.parts part (hhome ▸ List.mem_cons_self)
  obtain ⟨c, part, rfl⟩ := List.exists_cons_of_ne_nil hne
  refine ⟨c, part ++ pathText home ++ ['/'], ?_, fun heq => hslash (heq ▸ List.mem_cons_self)⟩
  show pathText p.home ++ ['/'] = _
  rw [hhome]
  rfl

theorem lstrip_of_ne {c : Char} (hc : c ≠ '/') (t : Text) : lstrip ('/' :: c :: t) = c :: t := by
  have hslash : ('/' == '/') = true := rfl
  unfold lstrip
  rw [List.dropWhile_cons, if_pos hslash, List.dropWhile_cons, if_neg (by simpa using hc)]

theorem Place.lstrip_runs (t : Text) : lstrip (p.runs ++ t) = p.runs.tail ++ t := by
  obtain ⟨c, rest, hruns, hc⟩ := p.runs_cons
  rw [hruns]
  exact lstrip_of_ne hc (rest ++ t)

/-- The two directories, as texts. -/
def Place.renaming (hname : Portable.isWorkflowName name = true) (hdiffer : p.former ≠ name) : Renaming where
  runs := p.runs
  former := p.former
  name := name
  first := by
    obtain ⟨c, rest, hruns, -⟩ := p.runs_cons
    rw [hruns]
    rfl
  last := List.getLast?_concat
  slash := p.slash
  isName := hname
  differ := hdiffer

/-- The directory's spellings, for the word with its first slash. -/
theorem Place.spelled (hname : Portable.isWorkflowName name = true) (hdiffer : p.former ≠ name) :
    Template.Spelled '/' p.runs p.former name (p.runs.count '/') (fun e : Escape => e.spell p.runs)
      fun e => e.spell p.former := by
  have h := (p.renaming hname hdiffer).spelling
  exact {
    count := by
      obtain ⟨c, rest, hruns, -⟩ := p.runs_cons
      rw [hruns, List.tail_cons, List.count_cons_self]
    last := h.last
    former := h.former
    latter := h.latter
    differ := h.differ
    first_spelled := h.first_spelled
    last_spelled := h.last_spelled
    count_spelled := h.count_spelled
    former_spelled := h.former_spelled
    differ_spelled := h.differ_spelled }

/-- And for the word without it. -/
theorem Place.spelled_tail (hname : Portable.isWorkflowName name = true) (hdiffer : p.former ≠ name) :
    Template.Spelled '/' p.runs.tail p.former name (p.runs.count '/') (fun e : Escape => e.spell p.runs)
      fun e => e.spell p.former := by
  have h := p.spelled hname hdiffer
  obtain ⟨c, rest, hruns, hc⟩ := p.runs_cons
  refine { h with count := ?_, last := ?_ }
  · rw [hruns, List.tail_cons, List.tail_cons, List.count_cons_self, List.count_cons_of_ne (by simpa using hc)]
  · have hlast := h.last
    rw [hruns, List.getLast?_cons_cons] at hlast
    rw [hruns, List.tail_cons, hlast]

/-- Where the paths of a file are relocated: the directory ends every hole, before the right characters, and begins
nowhere else. -/
theorem Place.rewrite_iff (hname : Portable.isWorkflowName name = true) (hdiffer : p.former ≠ name) (m : Marked) :
    rewrite (pathText p.source) (pathText (p.home ++ [name])) (utf8 (Marked.text m)) =
        utf8 (Marked.textWith (relocate (pathText p.source) (pathText (p.home ++ [name]))) m) ↔
      Template.Right (lstrip (pathText p.source)) isEnd (fun e => e.spell (pathText p.source))
        (Marked.holes (pathText p.source) m) := by
  have hsource : pathText p.source = p.runs ++ p.former := pathText_concat p.home p.former
  have hdestination : pathText (p.home ++ [name]) = p.runs ++ name := pathText_concat p.home name
  have hword := (p.spelled_tail hname hdiffer).word_ne_nil
  have hspell : (fun e : Escape => e.spell p.runs ++ e.spell p.former) = fun e => e.spell (pathText p.source) := by
    rw [hsource]
    exact funext fun e => (spell_append e p.runs p.former).symm
  have hspell' : (fun e : Escape => e.spell p.runs ++ name) = fun e => e.spell (pathText (p.home ++ [name])) := by
    funext e
    rw [hdestination, spell_append, Remap.spell_name hname]
  have hiff := (p.spelled_tail hname hdiffer).sub_fill_iff isEnd (Marked.holes (pathText p.source) m)
  rw [hspell, hspell', Marked.fill_holes_self, Marked.fill_holes] at hiff
  have hold : lstrip (pathText p.source) = p.runs.tail ++ p.former := by rw [hsource, p.lstrip_runs]
  have hnew : lstrip (pathText (p.home ++ [name])) = p.runs.tail ++ name := by rw [hdestination, p.lstrip_runs]
  rw [rewrite_utf8 (hold ▸ hword), hold, hnew, ← hiff]
  exact ⟨utf8_inj, congrArg utf8⟩

/-- Where the paths in a string of the data are. -/
theorem Place.remap_iff (hname : Portable.isWorkflowName name = true) (hdiffer : p.former ≠ name) (v : Value) :
    remap (pathText p.source) (pathText (p.home ++ [name])) v.text =
        Marked.textWith (relocate (pathText p.source) (pathText (p.home ++ [name]))) (under .plain v) ↔
      Template.Right (pathText p.source) isEndChar (fun e => e.spell (pathText p.source))
        (Marked.holes (pathText p.source) (under .plain v)) := by
  have hsource : pathText p.source = p.runs ++ p.former := pathText_concat p.home p.former
  have hdestination : pathText (p.home ++ [name]) = p.runs ++ name := pathText_concat p.home name
  have hspell : (fun e : Escape => e.spell p.runs ++ e.spell p.former) = fun e => e.spell (pathText p.source) := by
    rw [hsource]
    exact funext fun e => (spell_append e p.runs p.former).symm
  have hspell' : (fun e : Escape => e.spell p.runs ++ name) = fun e => e.spell (pathText (p.home ++ [name])) := by
    funext e
    rw [hdestination, spell_append, Remap.spell_name hname]
  have hiff := (p.spelled hname hdiffer).sub_fill_iff isEndChar
    (Marked.holes (pathText p.source) (under .plain v))
  rw [hspell, hspell', Marked.fill_holes_self, Marked.fill_holes, text_under, spell_plain, ← hsource, ← hdestination] at hiff
  exact hiff

/-- The path, at its new place. -/
def Place.relocated (name : Text) : Text → Text := relocate (pathText p.source) (pathText (p.home ++ [name]))

/-- The strings of the data, but for the name and the former directories, have exactly their paths at and below the
directory relocated if and only if the directory ends every one of these before the right characters, and begins
nowhere else; the directory is one of the former ones. -/
theorem data_relocated_iff (hname : Portable.isWorkflowName name = true) (hdiffer : p.former ≠ name)
    {data : Dictionary Value} {out : Dictionary Text}
    (h : renamedData (pathText p.source) (pathText (p.home ++ [name])) name data = some out) :
    ((∀ key, key ≠ nameKey → key ≠ previousKey → Dict.get out key =
        (Dict.get data key).map (Form.map fun v => Marked.textWith (p.relocated name) (under .plain v))) ↔
      ∀ key, key ≠ nameKey → key ≠ previousKey → ∀ value, Dict.get data key = some value → ∀ v ∈ value.texts,
        Template.Right (pathText p.source) isEndChar (fun e => e.spell (pathText p.source))
          (Marked.holes (pathText p.source) (under .plain v))) ∧
      Dict.get out nameKey = some (.text name) ∧
      ∃ previous : List Text, Dict.get out previousKey = some (.list (previous.map .text)) ∧
        pathText p.source ∈ previous := by
  have hkeys : nameKey ≠ previousKey := by decide +kernel
  unfold renamedData at h
  obtain ⟨previous, -, rfl⟩ := Option.map_eq_some_iff.mp h
  refine ⟨?_, ?_, _, Dict.get_put_self _ _ _, ?_⟩
  · refine forall_congr' fun key => forall_congr' fun hkey => forall_congr' fun hkey' => ?_
    have hmapped (f : Form Value → Form Text) : Dict.get (Dict.mapValues f data) key = (Dict.get data key).map f :=
      Dict.lookup_mapValues f data key
    rw [Dict.get_put, if_neg hkey', Dict.get_put, if_neg hkey, hmapped]
    cases Dict.get data key with
    | none => simp
    | some value =>
      rw [Option.map_some, Option.map_some, Option.some.injEq, Remap.Form.map_eq_iff]
      simp only [Option.some.injEq, forall_eq']
      exact forall₂_congr fun v _ => p.remap_iff hname hdiffer v
  · rw [Dict.get_put, if_neg hkeys, Dict.get_put_self]
  · exact List.mem_eraseDups.mpr (List.mem_append_right _ List.mem_cons_self)

/-- **Renaming a workflow.** When it succeeds, the workflow is in the new directory: its data are the renamed ones; a
file that names the directory has exactly the paths at and below it relocated if and only if the directory, without its
first slash, ends every one of these before the right bytes and begins nowhere else; the bundles are made of files
rewritten in the same way; and everything else is as before. -/
theorem renamed_relocated_iff (lib : Library) (listing : ∀ t, Listing p.source t) {t : Files} {faults : List (Option ℕ)}
    {found : Path} {w : World Text UInt8} (hdiffer : p.former ≠ name) (hrooted : Rooted (p.home ++ [name]) t)
    (hrun : renameWorkflow p.home p.source (p.request name lib listing) (World.start t faults) = .ok found w) :
    found = p.home ++ [name] ∧
      (∀ q, p.source <+: q → Dict.get w.tree q = none) ∧
      (∃ data renamed, lib.decisions t = some data ∧
        renamedData (pathText p.source) (pathText found) name data = some renamed ∧
        w.tree.bytesAt (found ++ manifest) = some (lib.dumps renamed)) ∧
      (∀ rel m, IsCandidate p.source t rel → rel ≠ manifest → t.bytesAt (p.source ++ rel) = some (utf8 (Marked.text m)) →
        (w.tree.bytesAt (found ++ rel) = some (utf8 (Marked.textWith (p.relocated name) m)) ↔
          Template.Right (lstrip (pathText p.source)) isEnd (fun e => e.spell (pathText p.source))
            (Marked.holes (pathText p.source) m))) ∧
      (∀ rel body members, IsBundle p.source t rel → t.bytesAt (p.source ++ rel) = some body →
        lib.unpack body = some members → ∀ rewritten,
        rewritten = members.map (Member.rewrite (pathText p.source) (pathText found)) →
        w.tree.bytesAt (found ++ rel) = some (if rewritten = members then body else lib.pack rewritten)) ∧
      ∀ rel, (∀ rel', Writes p.source t rel' → rel ≠ temporary rel') →
        ¬ Writes p.source t rel →
        Dict.get w.tree (found ++ rel) = Dict.get t (p.source ++ rel) := by
  have hplaces : p.home ++ [name] ≠ p.source := fun heq =>
    hdiffer (List.cons.inj (List.append_cancel_left heq)).1.symm
  obtain ⟨hname, hfound, hrenamed⟩ := renameWorkflow_renamed hrooted hplaces hrun
  replace hname : Portable.isWorkflowName name = true := hname
  replace hfound : found = p.home ++ [name] := hfound
  replace hrenamed : Renamed p.source (p.home ++ [name]) (p.request name lib listing) t w.tree := hrenamed
  subst hfound
  have hfiles {rel : Path} (hlasting : Lasting rel) := hrenamed.files rel fun rel' _ => hlasting.ne_temporary rel'
  refine ⟨rfl, hrenamed.gone, ?_, fun rel m hcandidate hmanifest hbody => ?_, ?_, hrenamed.rest⟩
  · obtain ⟨bytes, hbytes⟩ := hrenamed.data
    have hmanifest := hfiles lasting_manifest
    rw [Request.after, if_pos rfl, hbytes] at hmanifest
    obtain ⟨data, hdata, hrest⟩ := Option.bind_eq_some_iff.mp hbytes
    obtain ⟨renamed, hdata', hdumps⟩ := Option.bind_eq_some_iff.mp hrest
    exact ⟨data, renamed, hdata, hdata', hmanifest.trans hdumps.symm⟩
  · have hafter := hfiles hcandidate.lasting
    rw [Request.after, if_neg hmanifest, hbody, Option.map_some, if_neg fun h => h.not_isCandidate hcandidate,
      if_pos hcandidate] at hafter
    have hiff := p.rewrite_iff hname hdiffer m
    rw [hafter, ← hiff]
    exact ⟨Option.some.inj, congrArg some⟩
  · rintro rel body members hbundle hbody hunpack rewritten rfl
    have hafter := hfiles hbundle.lasting
    have hmanifest : rel ≠ manifest := fun heq => not_isBundle_manifest (heq ▸ hbundle)
    rw [Request.after, if_neg hmanifest, hbody, Option.map_some, if_pos hbundle] at hafter
    have hbytes : ((p.request name lib listing).rewriteBundle body).join =
        if members.map (Member.rewrite (pathText p.source) (pathText (p.home ++ [name]))) = members then none
        else some (lib.pack (members.map (Member.rewrite (pathText p.source) (pathText (p.home ++ [name]))))) := by
      show (rewriteBundle lib _ _ body).join = _
      unfold rewriteBundle
      rw [hunpack]
      rfl
    rw [hafter, hbytes]
    split <;> rfl

end

/-! ### A list of pairs -/

/-- `/r/w`. -/
def samplePlace : Place where
  home := [['r']]
  former := ['w']
  home_ne := List.cons_ne_nil _ _
  parts := by decide
  slash := by decide

def sampleName : Text := "new".toList

theorem isWorkflowName_sampleName : Portable.isWorkflowName sampleName = true := by decide +kernel

/-- A problem of the workflow, one of another workflow, and the workflow itself. -/
def sampleMarks : Marked :=
  [.path .plain "/r/w/p.p".toList, .raw [' '], .path .plain "/r/w2/q.p".toList, .raw [' '], .path .csv "/r/w".toList,
    .raw ['\n']]

def sampleFiles : Files :=
  [([], .dir), ([['r']], .dir), (samplePlace.source, .dir),
    (samplePlace.source ++ ["pairs.txt".toList], .file 420 (utf8 (Marked.text sampleMarks)))]

def sampleData : Dictionary Value := [("limiter".toList, .text [.path "/r/w/limit".toList, .text " -t 3".toList])]

def sampleLibrary : Library where
  decisions _ := some sampleData
  dumps _ := [3]
  unpack _ := none
  pack _ := []

theorem data_relocated_iff_sample :
    ∃ out, renamedData (pathText samplePlace.source) (pathText (samplePlace.home ++ [sampleName])) sampleName sampleData =
        some out ∧ Dict.get out nameKey = some (.text sampleName) := by
  have hsome : (renamedData (pathText samplePlace.source) (pathText (samplePlace.home ++ [sampleName])) sampleName
      sampleData).isSome = true := by decide +kernel
  obtain ⟨out, hout⟩ := Option.isSome_iff_exists.mp hsome
  exact ⟨out, hout, (data_relocated_iff samplePlace (by decide +kernel) (by decide +kernel) hout).2.1⟩

theorem renamed_relocated_iff_sample :
    ∃ found w, renameWorkflow samplePlace.home samplePlace.source
        (samplePlace.request sampleName sampleLibrary (Listing.ofTree samplePlace.source)) (World.start sampleFiles []) =
          .ok found w ∧
      w.tree.bytesAt (found ++ ["pairs.txt".toList]) =
        some (utf8 (Marked.textWith (samplePlace.relocated sampleName) sampleMarks)) := by
  obtain ⟨found, hrun⟩ := exists_of_not_isError (r := renameWorkflow samplePlace.home samplePlace.source
    (samplePlace.request sampleName sampleLibrary (Listing.ofTree samplePlace.source)) (World.start sampleFiles []))
    (by decide +kernel)
  have hright := (samplePlace.rewrite_iff isWorkflowName_sampleName (by decide +kernel) sampleMarks).mp
    (by decide +kernel)
  obtain ⟨-, -, -, hfiles, -⟩ := renamed_relocated_iff samplePlace sampleLibrary (Listing.ofTree samplePlace.source)
    (by decide +kernel) (rooted_of_forall (by decide +kernel)) hrun
  exact ⟨found, _, hrun, (hfiles ["pairs.txt".toList] sampleMarks (by decide +kernel) (by decide +kernel)
    (by decide +kernel)).mpr hright⟩

/-- Before a comma, the directory stays. -/
example : rewrite "/r/w".toList "/r/new".toList (utf8 "/r/w,./run".toList) = utf8 "/r/w,./run".toList := by decide +kernel

end RenameTexts
end Workflow
end Slurmy
