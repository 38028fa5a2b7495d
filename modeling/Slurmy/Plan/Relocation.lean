import Slurmy.Lib.PosixPath
import Slurmy.Lib.ShellCommand
import Slurmy.Lib.StableSort
import Slurmy.Plan.Limiter

/-!
# Packaged paths in commands

`relocate` puts the packaged paths of a command below the directory of the job.

* `found`, `passes`, `applyPass`, `relocate`: the paths of a command, and the passes over it;
* `relocateWord`: what becomes of a word;
* `turned`, `AllWhole`, `Relocatable`: the commands that the passes get right;
* `relocate_words`: exactly the words that are packaged paths are replaced in them.
-/

namespace Slurmy
namespace Relocation

open StableSort
open Limiter (remotePath remoteWord rootfs)
open Scan (joined Quiet Becomes BecomeAll)
open ShellWords (isBlank isOperator isSeparator quote words Piece PieceWords)

abbrev Text := List Char

/-! ### The passes -/

/-- The packaged paths among the words of a command, as `generate` finds them. -/
def found (problems roots : List PosixPath) (ws : List Text) : List PosixPath :=
  ((ws.filter fun w => w.head? = some '/').map PosixPath.parse).filter fun p =>
    decide (p ∈ problems) || roots.any fun root => p.isRelativeTo root

/-- One pass: a path in one of its spellings. -/
structure Pass where
  path : PosixPath
  spelling : Text
  deriving DecidableEq

/-- `dict.fromkeys((shlex.quote(raw), '"' + raw + '"', raw))`. -/
def spellings (p : PosixPath) : List Pass :=
  (firsts [quote p.str, '"' :: (p.str ++ ['"']), p.str]).map fun spelling => ⟨p, spelling⟩

/-- The passes in their order; `paths` lists the set of paths in the order of an iteration. -/
def passes (paths : List PosixPath) : List Pass :=
  (sortBy (fun p => OrderDual.toDual p.str.length) paths).flatMap spellings

/-- The spelling, and then the end or a separator. -/
def matchAt (p : Pass) (t : Text) : Option (Unit × ℕ) :=
  if p.spelling <+: t ∧ (t.drop p.spelling.length).head?.all isSeparator = true then some ((), p.spelling.length)
  else none

/-- `re.sub` with the spelling between separators. -/
def applyPass (t : Text) (p : Pass) : Text :=
  (Scan.scan isSeparator (matchAt p) (fun _ => remotePath p.path.str) 0 0 true t).1

/-- `relocate`. -/
def relocate (paths : List PosixPath) (command : Text) : Text := (passes paths).foldl applyPass command

/-! ### What is wanted -/

/-- The word is a packaged path. -/
def IsPath (paths : List PosixPath) (w : Text) : Prop := w.head? = some '/' ∧ PosixPath.parse w ∈ paths

instance (paths : List PosixPath) (w : Text) : Decidable (IsPath paths w) := by
  unfold IsPath
  infer_instance

def relocateWord (paths : List PosixPath) (w : Text) : Text :=
  if IsPath paths w then remoteWord (PosixPath.parse w).str else w

/-! ### The commands that the passes get right -/

/-- What a pass makes of a piece that it replaces as a whole, or not at all. -/
def turned (p : Pass) (s : Text) : Text := if s = p.spelling then remotePath p.path.str else s

/-- In a pass, the spelling is a whole piece of the command wherever it stands between separators. -/
def WholePieces (p : Pass) : Text → List (Char × Text) → Prop
  | r, [] => r = p.spelling ∨ Quiet isSeparator (matchAt p) true r []
  | r, (c, s) :: rest =>
      (r = p.spelling ∨ Quiet isSeparator (matchAt p) true r (c :: joined s rest)) ∧ WholePieces p s rest

/-- In every pass, over what the passes before it have left. -/
def AllWhole : List Pass → Text → List (Char × Text) → Prop
  | [], _, _ => True
  | p :: ps, r, rest => WholePieces p r rest ∧ AllWhole ps (turned p r) (rest.map fun x => (x.1, turned p x.2))

/-- A piece that is a spelling of a packaged path is this path to the shell, and another piece has no packaged path among
its words. -/
def Understood (paths : List PosixPath) (s : Text) : Prop :=
  ∃ ws, Piece s ws ∧
    (∀ p ∈ passes paths, s = p.spelling → ∃ w, ws = [w] ∧ IsPath paths w ∧ PosixPath.parse w = p.path) ∧
    ((∀ p ∈ passes paths, s ≠ p.spelling) → ∀ w ∈ ws, ¬ IsPath paths w)

/-- Pieces between blanks and those operators that the patterns know. -/
def Relocatable (paths : List PosixPath) (command : Text) : Prop :=
  ∃ r rest, command = joined r rest ∧
    (∀ c ∈ rest.map Prod.fst, isSeparator c = true ∧ (isBlank c = true ∨ isOperator c = true)) ∧
    AllWhole (passes paths) r rest ∧ ∀ s ∈ r :: rest.map Prod.snd, Understood paths s

instance decidableWholePieces (p : Pass) : ∀ r rest, Decidable (WholePieces p r rest)
  | r, [] => inferInstanceAs (Decidable (r = p.spelling ∨ Quiet isSeparator (matchAt p) true r []))
  | _, (_, s) :: rest => @instDecidableAnd _ _ inferInstance (decidableWholePieces p s rest)

instance decidableAllWhole : ∀ ps r rest, Decidable (AllWhole ps r rest)
  | [], _, _ => inferInstanceAs (Decidable True)
  | p :: ps, r, rest => @instDecidableAnd _ _ (decidableWholePieces p r rest) (decidableAllWhole ps _ _)

variable {paths : List PosixPath} {p : Pass} {r : Text} {c : Char}

/-! ### The spellings -/

/-- What a spelling begins with. -/
structure IsPass (p : Pass) : Prop where
  head : ∃ d o, p.spelling = d :: o ∧ (d = '\'' ∨ d = '"' ∧ o.head? = some '/' ∨ d = '/')

theorem isPass_of_mem (habsolute : ∀ p ∈ paths, p.slashes ≠ 0) (hp : p ∈ passes paths) : IsPass p := by
  obtain ⟨path, hpath, hspelling⟩ := List.mem_flatMap.mp hp
  obtain ⟨spelling, hmem, rfl⟩ := List.mem_map.mp hspelling
  have hhead := PosixPath.head?_str (habsolute path (mem_sortBy.mp hpath))
  obtain ⟨o, ho⟩ := List.head?_eq_some_iff.mp hhead
  have hcases := (mem_foldl_note.mp hmem).resolve_left List.not_mem_nil
  simp only [List.mem_cons, List.not_mem_nil, or_false] at hcases
  refine ⟨?_⟩
  rcases hcases with rfl | rfl | rfl
  · unfold quote
    rw [if_neg (by rw [ho]; exact List.cons_ne_nil _ _)]
    split
    · exact ⟨'/', o, ho, .inr (.inr rfl)⟩
    · exact ⟨'\'', _, List.cons_append, .inl rfl⟩
  · exact ⟨'"', _, rfl, .inr (.inl ⟨rfl, by rw [ho]; rfl⟩)⟩
  · exact ⟨'/', o, ho, .inr (.inr rfl)⟩

theorem matchAt_separator (hp : IsPass p) (hc : isSeparator c = true) (t : Text) : matchAt p (c :: t) = none := by
  obtain ⟨d, o, hspelling, hd⟩ := hp.head
  unfold matchAt
  rw [if_neg]
  rintro ⟨h, -⟩
  rw [hspelling] at h
  have hdc : d = c := (List.cons_prefix_cons.mp h).1
  rw [← hdc] at hc
  rcases hd with rfl | ⟨rfl, -⟩ | rfl <;> exact absurd hc (by decide)

/-- What has been replaced is no spelling. -/
theorem remotePath_ne_spelling (hp : IsPass p) (path : Text) : remotePath path ≠ p.spelling := by
  obtain ⟨d, o, hspelling, hd⟩ := hp.head
  obtain ⟨t, ht⟩ : ∃ t, remotePath path = '"' :: '$' :: t := ⟨_, rfl⟩
  rw [ht, hspelling]
  intro heq
  obtain ⟨rfl, htail⟩ := List.cons.inj heq
  rcases hd with hd | ⟨-, hd⟩ | hd
  · exact absurd hd (by decide)
  · rw [← htail] at hd
    exact absurd (Option.some.inj hd) (by decide)
  · exact absurd hd (by decide)

/-- The remote path is one word. -/
theorem piece_remotePath (path : Text) : Piece (remotePath path) [remoteWord path] := by
  have hfront : ('"' :: rootfs ++ ['"', '/']) ≠ [] := List.append_ne_nil_of_left_ne_nil (List.cons_ne_nil _ _) _
  have hsolid : ShellWords.solid .blank ('"' :: rootfs ++ ['"', '/']) = true := by decide +kernel
  have hrun : ShellWords.run .blank ('"' :: rootfs ++ ['"', '/']) = .word := by decide +kernel
  obtain ⟨hsolid', hrun'⟩ := ShellWords.solid_quote (path.dropWhile (· = '/'))
  refine ShellWords.piece_of_closed (List.append_ne_nil_of_left_ne_nil hfront _) ?_ ?_ ?_
  · have hplain : (rootfs.all fun c => decide (c ≠ '"' ∧ c ≠ '\\')) = true := by decide +kernel
    have hrootfs : ShellWords.Closed ('"' :: (rootfs ++ ['"'])) rootfs :=
      ShellWords.closed_double fun c hc => of_decide_eq_true (List.all_eq_true.mp hplain c hc)
    have hslash : ShellWords.Closed ['/'] ['/'] := ShellWords.closed_plain (by decide)
    have hall := (hrootfs.append hslash).append (ShellWords.closed_quote (path.dropWhile (· = '/')))
    have heq : '"' :: (rootfs ++ ['"']) ++ ['/'] = '"' :: rootfs ++ ['"', '/'] := by simp
    rw [heq] at hall
    have hword : rootfs ++ ['/'] ++ path.dropWhile (· = '/') = remoteWord path := by
      unfold remoteWord
      rw [List.append_assoc]
      rfl
    rw [hword] at hall
    exact hall
  · show ShellWords.solid .blank ('"' :: rootfs ++ ['"', '/'] ++ quote _) = true
    rw [ShellWords.solid_append, hsolid, hrun, hsolid']
    rfl
  · show ShellWords.run .blank ('"' :: rootfs ++ ['"', '/'] ++ quote _) = .word
    rw [ShellWords.run_append, hrun, hrun']

/-! ### A pass -/

/-- A piece in a pass, in front of the text that follows it. -/
theorem becomes_turned (hp : IsPass p) {s u : Text} (hu : ∀ c ∈ u.head?, isSeparator c = true)
    (h : s = p.spelling ∨ Quiet isSeparator (matchAt p) true s u) (n : ℕ) :
    ∃ bs, Becomes isSeparator (matchAt p) (fun _ => remotePath p.path.str) n s u (turned p s) bs := by
  unfold turned
  by_cases hs : s = p.spelling
  · subst hs
    obtain ⟨d, o, hspelling, -⟩ := hp.head
    have hne : p.spelling ≠ [] := by
      rw [hspelling]
      exact List.cons_ne_nil d o
    have hfound : matchAt p (p.spelling ++ ([] ++ u)) = some ((), p.spelling.length) := by
      unfold matchAt
      rw [List.nil_append, List.drop_left, if_pos]
      refine ⟨List.prefix_append _ _, ?_⟩
      cases hhead : u.head? with
      | none => rfl
      | some c => exact hu c hhead
    have hmatch : Becomes isSeparator (matchAt p) (fun _ => remotePath p.path.str) n (p.spelling ++ []) u
        (remotePath p.path.str ++ []) [()] :=
      Scan.becomes_of_match hne hfound fun a b hr hb _ => absurd (List.append_eq_nil_iff.mp hr.symm).2 hb
    rw [List.append_nil, List.append_nil] at hmatch
    rw [if_pos rfl]
    exact ⟨[()], hmatch⟩
  · rw [if_neg hs]
    exact ⟨[], Scan.becomes_of_quiet (h.resolve_left hs)⟩

/-- All pieces in a pass. -/
theorem becomeAll_turned (hp : IsPass p) {rest : List (Char × Text)} (hrest : ∀ c ∈ rest.map Prod.fst, isSeparator c = true)
    (h : WholePieces p r rest) (n : ℕ) :
    ∃ bs, BecomeAll isSeparator (matchAt p) (fun _ => remotePath p.path.str) n r rest (turned p r)
      (rest.map fun x => (x.1, turned p x.2)) bs := by
  induction rest generalizing r n with
  | nil =>
    obtain ⟨bs, hbecomes⟩ := becomes_turned hp (fun c hc => by cases hc) h n
    exact ⟨bs, .last hbecomes⟩
  | cons x rest ih =>
    obtain ⟨c, s⟩ := x
    have hc : ∀ d ∈ (c :: joined s rest).head?, isSeparator d = true := by
      intro d hd
      obtain rfl := Option.some.inj hd
      exact hrest c List.mem_cons_self
    obtain ⟨bs, hbecomes⟩ := becomes_turned hp hc h.1 n
    obtain ⟨bss, hall⟩ := ih (fun d hd => hrest d (List.mem_cons_of_mem c hd)) h.2 (n + bs.length)
    exact ⟨bs ++ bss, .cons hbecomes hall⟩

theorem applyPass_joined (hp : IsPass p) {rest : List (Char × Text)} (hrest : ∀ c ∈ rest.map Prod.fst, isSeparator c = true)
    (h : WholePieces p r rest) : applyPass (joined r rest) p = joined (turned p r) (rest.map fun x => (x.1, turned p x.2)) := by
  obtain ⟨bs, hall⟩ := becomeAll_turned hp hrest h 0
  unfold applyPass
  rw [Scan.scan_joined (fun c hc => ⟨hrest c hc, matchAt_separator hp (hrest c hc)⟩) hall]

/-! ### All passes -/

/-- What the passes make of a piece. -/
def turnedAll (ps : List Pass) (s : Text) : Text := ps.foldl (fun s p => turned p s) s

variable {ps : List Pass} {s : Text}

theorem foldl_applyPass_joined (hps : ∀ p ∈ ps, IsPass p) {rest : List (Char × Text)}
    (hrest : ∀ c ∈ rest.map Prod.fst, isSeparator c = true) (h : AllWhole ps r rest) :
    ps.foldl applyPass (joined r rest) = joined (turnedAll ps r) (rest.map fun x => (x.1, turnedAll ps x.2)) := by
  induction ps generalizing r rest with
  | nil =>
    show joined r rest = joined r (rest.map id)
    rw [List.map_id]
  | cons p ps ih =>
    have hfst : (rest.map fun x => (x.1, turned p x.2)).map Prod.fst = rest.map Prod.fst := by
      rw [List.map_map]
      rfl
    rw [List.foldl_cons, applyPass_joined (hps p List.mem_cons_self) hrest h.1,
      ih (fun q hq => hps q (List.mem_cons_of_mem p hq)) (by rwa [hfst]) h.2, List.map_map]
    rfl

theorem turnedAll_of_ne (h : ∀ p ∈ ps, s ≠ p.spelling) : turnedAll ps s = s := by
  induction ps with
  | nil => rfl
  | cons p ps ih =>
    show turnedAll ps (turned p s) = s
    unfold turned
    rw [if_neg (h p List.mem_cons_self)]
    exact ih fun q hq => h q (List.mem_cons_of_mem p hq)

/-- The first pass for a spelling replaces it, and what it has become is none. -/
theorem turnedAll_of_mem (hps : ∀ p ∈ ps, IsPass p) (h : ∃ p ∈ ps, s = p.spelling) :
    ∃ p ∈ ps, s = p.spelling ∧ turnedAll ps s = remotePath p.path.str := by
  induction ps with
  | nil =>
    obtain ⟨p, hp, -⟩ := h
    cases hp
  | cons q ps ih =>
    by_cases hq : s = q.spelling
    · refine ⟨q, List.mem_cons_self, hq, ?_⟩
      show turnedAll ps (turned q s) = _
      unfold turned
      rw [if_pos hq]
      exact turnedAll_of_ne fun p hp => remotePath_ne_spelling (hps p (List.mem_cons_of_mem q hp)) _
    · have hlater : ∃ p ∈ ps, s = p.spelling := by
        obtain ⟨p, hp, hs⟩ := h
        rcases List.mem_cons.mp hp with rfl | hp
        · exact absurd hs hq
        · exact ⟨p, hp, hs⟩
      obtain ⟨p, hp, hs, hturned⟩ := ih (fun p hp => hps p (List.mem_cons_of_mem q hp)) hlater
      refine ⟨p, List.mem_cons_of_mem q hp, hs, ?_⟩
      show turnedAll ps (turned q s) = _
      unfold turned
      rw [if_neg hq]
      exact hturned

/-! ### The words -/

theorem relocateWord_of_isOperator (h : isOperator c = true) : relocateWord paths [c] = [c] := by
  refine if_neg fun hpath => ?_
  have hc : c = '/' := Option.some.inj hpath.1
  rw [hc] at h
  exact absurd h (by decide)

/-- A piece before the first pass and after the last one. -/
theorem piece_turnedAll (hps : ∀ p ∈ passes paths, IsPass p) (h : Understood paths s) :
    ∃ ws, Piece s ws ∧ Piece (turnedAll (passes paths) s) (ws.map (relocateWord paths)) := by
  obtain ⟨ws, hpiece, hspelled, hother⟩ := h
  refine ⟨ws, hpiece, ?_⟩
  by_cases hmem : ∃ p ∈ passes paths, s = p.spelling
  · obtain ⟨p, hp, hs, hturned⟩ := turnedAll_of_mem hps hmem
    obtain ⟨w, rfl, hpath, hparse⟩ := hspelled p hp hs
    have hword : relocateWord paths w = remoteWord p.path.str := by
      unfold relocateWord
      rw [if_pos hpath, hparse]
    rw [hturned, List.map_singleton, hword]
    exact piece_remotePath _
  · have hne : ∀ p ∈ passes paths, s ≠ p.spelling := fun p hp hs => hmem ⟨p, hp, hs⟩
    have heach : ∀ w ∈ ws, relocateWord paths w = w := fun w hw => if_neg (hother hne w hw)
    rw [turnedAll_of_ne hne, List.map_congr_left heach, List.map_id']
    exact hpiece

/-- Exactly the words that are packaged paths are replaced, in every command in which no pass matches but a whole piece
that is the path to the shell, and no packaged path is left out. -/
theorem relocate_words {command : Text} {ws : List Text} (habsolute : ∀ p ∈ paths, p.slashes ≠ 0)
    (hwords : words command = some ws) (h : Relocatable paths command) :
    words (relocate paths command) = some (ws.map (relocateWord paths)) := by
  obtain ⟨r, rest, rfl, hrest, hwhole, hpieces⟩ := h
  have hps : ∀ p ∈ passes paths, IsPass p := fun p hp => isPass_of_mem habsolute hp
  obtain ⟨ws', hbefore, hafter⟩ := ShellWords.exists_pieceWords (fun c hc => relocateWord_of_isOperator hc)
    (fun c hc => (hrest c hc).2) fun s hs => piece_turnedAll hps (hpieces s hs)
  obtain rfl : ws = ws' := Option.some.inj (hwords.symm.trans (ShellWords.words_joined hbefore))
  unfold relocate
  rw [foldl_applyPass_joined hps (fun c hc => (hrest c hc).1) hwhole]
  exact ShellWords.words_joined hafter

def samplePath : PosixPath := ⟨1, ["data".toList, "x".toList]⟩

theorem relocate_words_sample :
    words (relocate [samplePath] "./run \"/data/x\"; echo done".toList) =
      some ["./run".toList, "${JOB_DIR}/rootfs/data/x".toList, [';'], "echo".toList, "done".toList] := by
  have hwords : words "./run \"/data/x\"; echo done".toList =
      some ["./run".toList, "/data/x".toList, [';'], "echo".toList, "done".toList] := by decide +kernel
  have hplain {s : Text} (hs : s ≠ [])
      (h : (s.all ShellWords.isSafe && ShellWords.solid .blank s && decide (ShellWords.run .blank s = .word)) = true)
      (hpath : (decide (¬ IsPath [samplePath] s) && (passes [samplePath]).all fun p => decide (s ≠ p.spelling)) = true) :
      Understood [samplePath] s := by
    rw [Bool.and_eq_true, Bool.and_eq_true] at h
    rw [Bool.and_eq_true, decide_eq_true_eq] at hpath
    refine ⟨[s], ShellWords.piece_of_closed hs (ShellWords.closed_safe h.1.1) h.1.2 (of_decide_eq_true h.2), ?_, ?_⟩
    · exact fun p hp heq => absurd heq (of_decide_eq_true (List.all_eq_true.mp hpath.2 p hp))
    · exact fun _ => List.forall_mem_singleton.mpr hpath.1
  have hseparators : ∀ c ∈ [' ', ';', ' ', ' '], isSeparator c = true ∧ (isBlank c = true ∨ isOperator c = true) := by
    intro c hc
    simp only [List.mem_cons, List.not_mem_nil, or_false] at hc
    rcases hc with rfl | rfl | rfl | rfl <;> decide
  refine (relocate_words (by decide) hwords ⟨"./run".toList, [(' ', "\"/data/x\"".toList), (';', []),
    (' ', "echo".toList), (' ', "done".toList)], by decide +kernel, hseparators, by decide +kernel, fun s hs => ?_⟩).trans
    (by decide +kernel)
  simp only [List.map_cons, List.map_nil, List.mem_cons, List.not_mem_nil, or_false] at hs
  rcases hs with rfl | rfl | rfl | rfl | rfl
  · exact hplain (by decide +kernel) (by decide +kernel) (by decide +kernel)
  · have hclosed : ShellWords.Closed "\"/data/x\"".toList "/data/x".toList := by
      have hall : ("/data/x".toList.all fun c => decide (c ≠ '"' ∧ c ≠ '\\')) = true := by decide +kernel
      exact ShellWords.closed_double (t := "/data/x".toList) fun c hc => of_decide_eq_true (List.all_eq_true.mp hall c hc)
    refine ⟨["/data/x".toList],
      ShellWords.piece_of_closed (by decide +kernel) hclosed (by decide +kernel) (by decide +kernel), fun p hp _ => ?_,
      fun hne => ?_⟩
    · -- all passes are for the one path
      have hall : ((passes [samplePath]).all fun p => decide (PosixPath.parse "/data/x".toList = p.path)) = true := by
        decide +kernel
      exact ⟨_, rfl, by decide +kernel, of_decide_eq_true (List.all_eq_true.mp hall p hp)⟩
    · exact absurd rfl (hne ⟨samplePath, "\"/data/x\"".toList⟩ (by decide +kernel))
  · refine ⟨[], ShellWords.piece_nil, fun p hp heq => ?_, fun _ => List.forall_mem_nil _⟩
    have hall : ((passes [samplePath]).all fun p => decide ([] ≠ p.spelling)) = true := by decide +kernel
    exact absurd heq (of_decide_eq_true (List.all_eq_true.mp hall p hp))
  · exact hplain (by decide +kernel) (by decide +kernel) (by decide +kernel)
  · exact hplain (by decide +kernel) (by decide +kernel) (by decide +kernel)

/-- A path between blanks is replaced inside of a quoted word. -/
theorem quoted_word_changed :
    words "sh -c 'cat /data/x now' /data/x".toList =
        some ["sh".toList, "-c".toList, "cat /data/x now".toList, "/data/x".toList] ∧
      found [samplePath] [] ["sh".toList, "-c".toList, "cat /data/x now".toList, "/data/x".toList] = [samplePath] ∧
      words (relocate [samplePath] "sh -c 'cat /data/x now' /data/x".toList) =
        some ["sh".toList, "-c".toList, "cat \"${JOB_DIR}/rootfs\"/data/x now".toList,
          "${JOB_DIR}/rootfs/data/x".toList] := by
  decide +kernel

end Relocation
end Slurmy
