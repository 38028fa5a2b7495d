import Mathlib.Data.List.Infix
import Slurmy.Lib.Lines
import Slurmy.Lib.ShellWords

/-!
# The limiter template

`generate` reads the first word of the template twice: with `shlex` for the path of the executable, and with
a regular expression for the text that `remote_path` replaces.

* `matched`: what the regular expression takes;
* `generateLimiter`: the line of the call scripts, before the placeholders are filled;
* `Aligned`: the two readings end at the same place;
* `replaced_iff_aligned`: exactly then only the first word is replaced;
* `aligned_written_iff`: `specification` writes such a template unless the path has a single quote.
-/

namespace Slurmy
namespace Limiter

open ShellWords

/-! ### The code -/

/-- `[^q]*q`: what it takes, and what follows. -/
def closing (q : Char) : List Char → Option (List Char × List Char)
  | [] => none
  | c :: t => if c = q then some ([q], t) else (closing q t).map fun r => (c :: r.1, r.2)

/-- `\S+`. -/
def bare (t : List Char) : List Char × List Char :=
  (t.takeWhile (fun c => !Lines.isSpace c), t.dropWhile (fun c => !Lines.isSpace c))

/-- `'[^']*'|"[^"]*"|\S+` at the beginning of a text. -/
def matched : List Char → List Char × List Char
  | [] => ([], [])
  | c :: t =>
      if c = '\'' ∨ c = '"' then
        match closing c t with
        | some r => (c :: r.1, r.2)
        | none => bare (c :: t)
      else bare (c :: t)

/-- The directory of the job, as the shell writes it. -/
def rootfs : List Char := "${JOB_DIR}/rootfs".toList

/-- `remote_path`. -/
def remotePath (path : List Char) : List Char :=
  '"' :: rootfs ++ ['"', '/'] ++ quote (path.dropWhile (· = '/'))

/-- The word that the shell reads there. -/
def remoteWord (path : List Char) : List Char := rootfs ++ '/' :: path.dropWhile (· = '/')

/-- What `generate` knows of the paths. -/
structure Files where
  /-- `path_at`, from the directory of the template. -/
  pathAt : List Char → List Char
  /-- The path is inside a resource root. -/
  inRoot : List Char → Bool
  /-- It is a file. -/
  isFile : List Char → Bool
  /-- It is inside a resource root that has a recipe. -/
  built : List Char → Bool

inductive Error
  | noCommand
  | noClosing
  | outside
  | missing (path : List Char)
  deriving DecidableEq

/-- The limiter part of `generate`. The text is stripped, so nothing is left for `^\s*`. -/
def generateLimiter (files : Files) (text : List Char) : Except Error (List Char) :=
  let limiter := Lines.strip text
  if limiter = [] ∨ ¬ "{{solver_command}}".toList <:+: limiter then .error .noCommand
  else
    match split limiter with
    | none => .error .noClosing
    | some [] => .error .noCommand
    | some (word :: _) =>
        let path := files.pathAt word
        if ¬ files.inRoot path then .error .outside
        else if ¬ files.isFile path ∧ ¬ files.built path then .error (.missing path)
        else .ok (remotePath path ++ (matched limiter).2)

/-- The template that `specification` writes for an executable, with the rest of what was entered. -/
def written (executable rest : List Char) : List Char := quote executable ++ ' ' :: rest ++ ['\n']

/-- The first word of the line is the remote path, and the others are those of the template. -/
def Replaced (files : Files) (text line : List Char) : Prop :=
  ∃ word words, split (Lines.strip text) = some (word :: words) ∧
    split line = some (remoteWord (files.pathAt word) :: words)

/-- A blank, and then the end or another blank. -/
def endsAtBlank : List Char → Bool
  | [] => false
  | [c] => isBlank c
  | c :: d :: _ => isBlank c && isBlank d

/-- The match ends where the word ends, or at most before empty quotes; or it ends after the backslash of a blank
that is the last character of the word. -/
def Aligned (t : List Char) : Prop :=
  match run .blank (matched t).1 with
  | .word => addsNothing (matched t).2 = true
  | .escape => endsAtBlank (matched t).2 = true
  | _ => False

instance (t : List Char) : Decidable (Aligned t) := by
  unfold Aligned
  split <;> infer_instance

variable {q c : Char} {t u a r path : List Char} {words : List (List Char)}

/-! ### The match -/

theorem isSpace_of_isBlank (h : isBlank c = true) : Lines.isSpace c = true := by
  unfold isBlank at h
  rcases of_decide_eq_true h with rfl | rfl | rfl | rfl <;> decide

theorem isBlank_of_not_isSpace (h : Lines.isSpace c = false) : isBlank c = false := by
  by_contra hblank
  rw [isSpace_of_isBlank (Bool.not_eq_false _ ▸ hblank)] at h
  exact nomatch h

/-- A part of a word that ends outside quotes, inside them, or before whitespace. -/
structure Part (t a r : List Char) : Prop where
  split : t = a ++ r
  nonempty : a ≠ []
  stays : Stays .blank a
  space : run .blank a = .escape ∨ run .blank a = .escapeDouble → ∀ d ∈ r.head?, Lines.isSpace d = true

theorem part_bare (hc : Lines.isSpace c = false) (t : List Char) : Part (c :: t) (bare (c :: t)).1 (bare (c :: t)).2 where
  split := by
    dsimp only [bare]
    exact List.takeWhile_append_dropWhile.symm
  nonempty := by
    have htake : (c :: t).takeWhile (fun c => !Lines.isSpace c) = c :: t.takeWhile (fun c => !Lines.isSpace c) :=
      List.takeWhile_cons_of_pos (by rw [hc]; rfl)
    unfold bare
    rw [htake]
    exact List.cons_ne_nil _ _
  stays := by
    refine stays_of_not_blank (fun d hd => isBlank_of_not_isSpace ?_) _
    have hspace := List.mem_takeWhile_imp hd
    rwa [Bool.not_eq_true'] at hspace
  space := by
    intro _ d hd
    have hspace := List.head?_dropWhile_not (fun c => !Lines.isSpace c) (c :: t)
    rw [show (List.dropWhile (fun c => !Lines.isSpace c) (c :: t)).head? = some d from hd] at hspace
    simpa using hspace

/-- Inside double quotes. -/
def InDouble (m : Mode) : Prop := m = .double ∨ m = .escapeDouble

theorem closing_eq_some (h : closing q t = some (a, r)) : ∃ b, a = b ++ [q] ∧ q ∉ b ∧ t = b ++ q :: r := by
  induction t generalizing a with
  | nil => exact nomatch h
  | cons c t ih =>
    unfold closing at h
    split at h
    · next hc =>
      cases h
      exact ⟨[], rfl, List.not_mem_nil, by rw [hc]; rfl⟩
    · next hc =>
      obtain ⟨⟨a', r'⟩, hclosing, heq⟩ := Option.map_eq_some_iff.mp h
      cases heq
      obtain ⟨b, rfl, hb, rfl⟩ := ih hclosing
      exact ⟨c :: b, rfl, List.not_mem_cons_of_ne_of_not_mem (Ne.symm hc) hb, rfl⟩

theorem closing_append (hq : q ∉ t) (u : List Char) : closing q (t ++ q :: u) = some (t ++ [q], u) := by
  induction t with
  | nil => exact if_pos rfl
  | cons c t ih =>
    have hc : c ≠ q := fun heq => hq (heq ▸ List.mem_cons_self)
    rw [List.cons_append, closing, if_neg hc, ih fun hmem => hq (List.mem_cons_of_mem c hmem)]
    rfl

/-- The text in single quotes. -/
theorem run_single (h : '\'' ∉ t) : Stays .single (t ++ ['\'']) ∧ run .single (t ++ ['\'']) = .word := by
  induction t with
  | nil => exact ⟨⟨nofun, trivial⟩, rfl⟩
  | cons c t ih =>
    have hc : c ≠ '\'' := fun heq => h (heq ▸ List.mem_cons_self)
    have ht := ih fun hmem => h (List.mem_cons_of_mem c hmem)
    refine ⟨⟨?_, ?_⟩, ?_⟩
    · rw [next_single_of_ne hc]
      exact nofun
    · rw [next_single_of_ne hc]
      exact ht.1
    · show run (Mode.single.next c).1 _ = _
      rw [next_single_of_ne hc]
      exact ht.2

/-- The text in double quotes: the last one may be escaped. -/
theorem run_double {m : Mode} (hm : InDouble m) (h : '"' ∉ t) :
    Stays m (t ++ ['"']) ∧ (run m (t ++ ['"']) = .word ∨ run m (t ++ ['"']) = .double) := by
  induction t generalizing m with
  | nil =>
    rcases hm with rfl | rfl
    · exact ⟨⟨nofun, trivial⟩, .inl rfl⟩
    · exact ⟨⟨nofun, trivial⟩, .inr rfl⟩
  | cons c t ih =>
    have hc : c ≠ '"' := fun heq => h (heq ▸ List.mem_cons_self)
    have hnext : InDouble (m.next c).1 := by
      rcases hm with rfl | rfl
      · by_cases hescape : c = '\\'
        · subst hescape
          exact .inr rfl
        · rw [next_double hc hescape]
          exact .inl rfl
      · exact .inl rfl
    have ht := ih hnext fun hmem => h (List.mem_cons_of_mem c hmem)
    refine ⟨⟨?_, ht.1⟩, ht.2⟩
    rcases hnext with hnext | hnext
    all_goals
      rw [hnext]
      exact nofun

theorem part_closing (hq : q = '\'' ∨ q = '"') (h : closing q t = some (a, r)) : Part (q :: t) (q :: a) r := by
  obtain ⟨b, rfl, hb, rfl⟩ := closing_eq_some h
  have hsplit : q :: (b ++ q :: r) = q :: (b ++ [q]) ++ r := by
    rw [List.cons_append, List.append_assoc]
    rfl
  rcases hq with rfl | rfl
  · obtain ⟨hstays, hrun⟩ := run_single hb
    refine ⟨hsplit, List.cons_ne_nil _ _, ⟨nofun, hstays⟩, fun hmode => ?_⟩
    have hword : run .blank ('\'' :: (b ++ ['\''])) = .word := hrun
    rw [hword] at hmode
    rcases hmode with hmode | hmode <;> exact nomatch hmode
  · obtain ⟨hstays, hrun⟩ := run_double (.inl rfl) hb
    refine ⟨hsplit, List.cons_ne_nil _ _, ⟨nofun, hstays⟩, fun hmode => ?_⟩
    have hmode' : run .double (b ++ ['"']) = .escape ∨ run .double (b ++ ['"']) = .escapeDouble := hmode
    rcases hrun with hrun | hrun
    all_goals
      rw [hrun] at hmode'
      rcases hmode' with hmode' | hmode' <;> exact nomatch hmode'

theorem part_matched (ht : t ≠ []) (hhead : ∀ c ∈ t.head?, Lines.isSpace c = false) :
    Part t (matched t).1 (matched t).2 := by
  cases t with
  | nil => exact absurd rfl ht
  | cons c t =>
    have hspace := hhead c rfl
    rw [matched]
    split
    · next hc =>
      split
      · next hclosing => exact part_closing hc hclosing
      · exact part_bare hspace t
    · exact part_bare hspace t

/-! ### The line -/

theorem split_remotePath (path u : List Char) :
    split (remotePath path ++ u) = (read .word u).map (extend (remoteWord path)) := by
  have hopen : Mode.blank.next '"' = (.double, []) := rfl
  have hslash : Mode.word.next '/' = (.word, ['/']) := by decide
  have hall : (rootfs.all fun c => c ≠ '"' ∧ c ≠ '\\') = true := by decide +kernel
  have hrootfs : ∀ c ∈ rootfs, c ≠ '"' ∧ c ≠ '\\' := fun c hc => of_decide_eq_true (List.all_eq_true.mp hall c hc)
  have hpath : remotePath path ++ u =
      '"' :: (rootfs ++ '"' :: ('/' :: (quote (path.dropWhile (· = '/')) ++ u))) := by
    simp [remotePath]
  rw [hpath, split, read_step hopen nofun, read_double hrootfs, read_step hslash nofun, read_quote]
  simp only [map_extend_extend]
  simp [remoteWord]

/-- The first word is the remote path when nothing is read behind it. -/
theorem map_extend_eq_iff (o : Option (List (List Char))) :
    o.map (extend t) = some (t :: words) ↔ o = some ([] :: words) := by
  constructor
  · intro h
    obtain ⟨l, rfl, hl⟩ := Option.map_eq_some_iff.mp h
    cases l with
    | nil => exact nomatch hl
    | cons w l =>
      have hw : w = [] := List.append_right_eq_self.mp (List.cons.inj hl).1
      rw [hw, (List.cons.inj hl).2]
  · rintro rfl
    show some ((t ++ []) :: words) = _
    rw [List.append_nil]

/-- After the backslash of a whitespace character. -/
theorem read_escape_iff {y : List Char} (hspace : ∀ d ∈ r.head?, Lines.isSpace d = true)
    (h : read .escape r = some (y :: words)) :
    read .word r = some ([] :: words) ↔ endsAtBlank r = true := by
  cases r with
  | nil => exact nomatch h
  | cons c t =>
    have hescape : Mode.escape.next c = (.word, [c]) := rfl
    rw [read_step hescape nofun] at h
    obtain ⟨l, hl, hwords⟩ := Option.map_eq_some_iff.mp h
    obtain ⟨z, l', rfl⟩ := List.exists_cons_of_ne_nil (read_ne_nil (m := .word) nofun hl)
    have hl' : l' = words := (List.cons.inj hwords).2
    subst hl'
    by_cases hblank : isBlank c = true
    · rw [(read_blank hblank t).1]
      have hcons : (read .blank t).map ([] :: ·) = some ([] :: l') ↔ read .blank t = some l' := by
        rw [Option.map_eq_some_iff]
        constructor
        · rintro ⟨l, hread, heq⟩
          rw [hread, (List.cons.inj heq).2]
        · intro hread
          exact ⟨l', hread, rfl⟩
      rw [hcons]
      cases t with
      | nil =>
        cases hl
        exact iff_of_true rfl hblank
      | cons d t =>
        by_cases hnext : isBlank d = true
        · rw [(read_blank hnext t).1] at hl
          obtain ⟨l, hread, heq⟩ := Option.map_eq_some_iff.mp hl
          rw [(read_blank hnext t).2, hread, (List.cons.inj heq).2]
          exact iff_of_true rfl (by simp [endsAtBlank, hblank, hnext])
        · -- the next word begins at once
          rw [read_of_not_blank (Bool.eq_false_iff.mpr hnext), hl]
          refine iff_of_false (fun heq => ?_) (by simp [endsAtBlank, hnext])
          have hlength := congrArg List.length (Option.some.inj heq)
          rw [List.length_cons] at hlength
          omega
    · refine iff_of_false (fun heq => ?_) ?_
      · have hne : c ≠ '\\' ∧ c ≠ '\'' ∧ c ≠ '"' := by
          have hc := hspace c rfl
          refine ⟨?_, ?_, ?_⟩
          all_goals
            rintro rfl
            exact absurd hc (by decide)
        have hadd : Mode.word.next c = (.word, [c]) := nextOutside_plain ⟨Bool.eq_false_iff.mpr hblank, hne⟩
        exact ne_nil_of_step hadd nofun heq rfl
      · cases t with
        | nil => exact hblank
        | cons d t => simp [endsAtBlank, hblank]

/-- Inside double quotes the match does not end where the word ends. -/
theorem read_escapeDouble_ne {y : List Char} (hspace : ∀ d ∈ r.head?, Lines.isSpace d = true)
    (h : read .escapeDouble r = some (y :: words)) : read .word r ≠ some ([] :: words) := by
  intro hread
  cases r with
  | nil => exact nomatch h
  | cons c t =>
    have hc := hspace c rfl
    have hplain : (nextOutside c).1 = .blank ∨ (nextOutside c).1 = .word := by
      unfold nextOutside
      split_ifs with hblank hescape hsingle hdouble
      · exact .inl rfl
      · subst hescape
        exact absurd hc (by decide)
      · subst hsingle
        exact absurd hc (by decide)
      · subst hdouble
        exact absurd hc (by decide)
      · exact .inr rfl
    have hapart : Apart Mode.double (nextOutside c).1 := by
      rcases hplain with hplain | hplain
      all_goals
        rw [hplain]
        decide
    obtain ⟨l, hl, heq⟩ := read_cons_eq h
    obtain ⟨l', hl', heq'⟩ := read_cons_eq hread
    have hdisagree := (hapart.disagree hl hl').join .escapeDouble .word (Mode.escapeDouble.next c) (Mode.word.next c)
    rw [← heq, ← heq'] at hdisagree
    exact not_disagree_tail hdisagree.symm

/-- The rest after a match, read behind the remote path. -/
theorem read_word_iff {y : List Char} (hpart : Part t (matched t).1 (matched t).2)
    (h : read (run .blank (matched t).1) (matched t).2 = some (y :: words)) :
    read .word (matched t).2 = some ([] :: words) ↔ Aligned t := by
  have hspace := hpart.space
  have hrun := run_ne_blank hpart.stays (.inl hpart.nonempty)
  unfold Aligned
  revert h hspace hrun
  cases run .blank (matched t).1 with
  | blank =>
    intro _ _ hrun
    exact absurd rfl hrun
  | word =>
    intro h _ _
    have hnil := eq_nil_iff_addsNothing h
    rw [h, ← hnil]
    constructor
    · intro heq
      exact (List.cons.inj (Option.some.inj heq)).1
    · rintro rfl
      rfl
  | single =>
    intro h _ _
    have hapart : Apart Mode.single Mode.word := by decide
    exact iff_of_false (fun heq => not_disagree_tail (hapart.disagree h heq).symm) id
  | double =>
    intro h _ _
    have hapart : Apart Mode.double Mode.word := by decide
    exact iff_of_false (fun heq => not_disagree_tail (hapart.disagree h heq).symm) id
  | escape =>
    intro h hspace _
    exact read_escape_iff (hspace (.inl rfl)) h
  | escapeDouble =>
    intro h hspace _
    exact iff_of_false (read_escapeDouble_ne (hspace (.inr rfl)) h) id

/-- What an accepted template has been checked for. -/
theorem generateLimiter_eq_ok {files : Files} {text line : List Char} (h : generateLimiter files text = .ok line) :
    ∃ word words, split (Lines.strip text) = some (word :: words) ∧
      line = remotePath (files.pathAt word) ++ (matched (Lines.strip text)).2 := by
  unfold generateLimiter at h
  dsimp only at h
  split at h
  · exact nomatch h
  split at h
  · exact nomatch h
  · exact nomatch h
  · next word words hsplit =>
    split at h
    · exact nomatch h
    split at h
    · exact nomatch h
    · cases h
      exact ⟨word, words, hsplit, rfl⟩

/-- Only the first word is replaced exactly when the two readings end at the same place. -/
theorem replaced_iff_aligned {files : Files} {text line : List Char} (h : generateLimiter files text = .ok line) :
    Replaced files text line ↔ Aligned (Lines.strip text) := by
  obtain ⟨word, words, hsplit, rfl⟩ := generateLimiter_eq_ok h
  have hne : Lines.strip text ≠ [] := by
    intro hnil
    rw [hnil] at hsplit
    exact nomatch hsplit
  have hpart := part_matched hne (Lines.head_strip text)
  obtain ⟨front, hfront⟩ := exists_read_append hpart.stays
  have hread : (read (run .blank (matched (Lines.strip text)).1) (matched (Lines.strip text)).2).map (extend front) =
      some (word :: words) := by
    rw [← hfront, ← hpart.split]
    exact hsplit
  obtain ⟨l, hl, hwords⟩ := Option.map_eq_some_iff.mp hread
  cases l with
  | nil => exact nomatch hwords
  | cons y l =>
    have hl' : l = words := (List.cons.inj hwords).2
    subst hl'
    rw [← read_word_iff hpart hl, ← map_extend_eq_iff (t := remoteWord (files.pathAt word)), ← split_remotePath]
    constructor
    · rintro ⟨word', words', hsplit', hline⟩
      rw [hsplit] at hsplit'
      cases hsplit'
      exact hline
    · intro hline
      exact ⟨word, l, hsplit, hline⟩

/-! ### Templates of `specification` -/

theorem rdropWhile_append {p : Char → Bool} (ha : ∀ c ∈ a.getLast?, p c = false) (u : List Char) :
    (a ++ u).rdropWhile p = a ++ u.rdropWhile p := by
  induction u using List.reverseRecOn with
  | nil =>
    rw [List.rdropWhile_nil, List.append_nil, List.rdropWhile_eq_self_iff]
    intro hne hlast
    rw [ha _ (List.getLast?_eq_some_getLast hne)] at hlast
    exact nomatch hlast
  | append_singleton u c ih =>
    rw [← List.append_assoc, List.rdropWhile_concat, List.rdropWhile_concat, ih]
    split
    · rfl
    · exact List.append_assoc _ _ _

theorem not_isSpace_of_isSafe (h : isSafe c = true) : Lines.isSpace c = false := by
  have hspaces : ∀ n ∈ [9, 10, 11, 12, 13, 28, 29, 30, 31, 32, 133, 160, 5760, 8192, 8193, 8194, 8195, 8196, 8197,
      8198, 8199, 8200, 8201, 8202, 8232, 8233, 8239, 8287, 12288], isSafe (Char.ofNat n) = false := by
    decide
  by_contra hspace
  rw [Bool.not_eq_false, Lines.isSpace, decide_eq_true_eq] at hspace
  have hc := hspaces c.toNat hspace
  rw [Char.ofNat_toNat, h] at hc
  exact nomatch hc

/-- The forms of a quoted text. -/
theorem quote_cases (t : List Char) :
    (t = [] ∧ quote t = ['\'', '\'']) ∨ (t ≠ [] ∧ (∀ c ∈ t, isSafe c = true) ∧ quote t = t) ∨
      quote t = '\'' :: t.flatMap (fun c => if c = '\'' then ['\'', '"', '\'', '"', '\''] else [c]) ++ ['\''] := by
  unfold quote
  split
  · next h => exact .inl ⟨h, rfl⟩
  split
  · next hne hsafe => exact .inr (.inl ⟨hne, List.all_eq_true.mp hsafe, rfl⟩)
  · exact .inr (.inr rfl)

/-- A quoted text begins and ends with no space. -/
theorem ends_quote (t : List Char) :
    quote t ≠ [] ∧ (∀ c ∈ (quote t).head?, Lines.isSpace c = false) ∧
      ∀ c ∈ (quote t).getLast?, Lines.isSpace c = false := by
  have hquote : Lines.isSpace '\'' = false := by decide
  rcases quote_cases t with ⟨-, heq⟩ | ⟨hne, hsafe, heq⟩ | heq
  · rw [heq]
    refine ⟨List.cons_ne_nil _ _, ?_, ?_⟩
    all_goals
      rintro c ⟨⟩
      exact hquote
  · rw [heq]
    refine ⟨hne, fun c hc => ?_, fun c hc => ?_⟩
    · exact not_isSpace_of_isSafe (hsafe c (List.mem_of_mem_head? hc))
    · exact not_isSpace_of_isSafe (hsafe c (List.mem_of_getLast? hc))
  · rw [heq]
    refine ⟨List.cons_ne_nil _ _, ?_, fun c hc => ?_⟩
    · rintro c ⟨⟩
      exact hquote
    · rw [List.getLast?_concat] at hc
      cases hc
      exact hquote

theorem strip_written (executable rest : List Char) :
    ∃ r, Lines.strip (written executable rest) = quote executable ++ r ∧ (r = [] ∨ ∃ v, r = ' ' :: v) := by
  obtain ⟨hne, hhead, hlast⟩ := ends_quote executable
  obtain ⟨c, t, hquote⟩ := List.exists_cons_of_ne_nil hne
  have hdrop : (written executable rest).dropWhile Lines.isSpace = written executable rest := by
    have hc : Lines.isSpace c = false := hhead c (by rw [hquote]; rfl)
    unfold written
    rw [hquote]
    exact List.dropWhile_cons_of_neg (by rw [hc]; exact Bool.false_ne_true)
  have happend : written executable rest = quote executable ++ (' ' :: (rest ++ ['\n'])) := by
    unfold written
    rw [List.append_assoc]
    rfl
  refine ⟨(' ' :: (rest ++ ['\n'])).rdropWhile Lines.isSpace, ?_, ?_⟩
  · unfold Lines.strip
    rw [hdrop, happend, rdropWhile_append hlast]
  · obtain ⟨u, hu⟩ := List.rdropWhile_prefix Lines.isSpace (' ' :: (rest ++ ['\n']))
    cases hr : (' ' :: (rest ++ ['\n'])).rdropWhile Lines.isSpace with
    | nil => exact .inl rfl
    | cons d v =>
      rw [hr] at hu
      exact .inr ⟨v, by rw [(List.cons.inj hu).1]⟩

theorem matched_cons_quote (h : closing '\'' t = some (a, r)) : matched ('\'' :: t) = ('\'' :: a, r) := by
  rw [matched, if_pos (.inl rfl), h]

/-- A template of `specification` is aligned exactly when the path has no single quote. -/
theorem aligned_quote_iff (hr : r = [] ∨ ∃ v, r = ' ' :: v) : Aligned (quote t ++ r) ↔ '\'' ∉ t := by
  have hadds : addsNothing r = true := by
    rcases hr with rfl | ⟨v, rfl⟩ <;> rfl
  rcases quote_cases t with ⟨rfl, heq⟩ | ⟨hne, hsafe, heq⟩ | heq
  · have hmatched : matched (quote [] ++ r) = (['\'', '\''], r) := matched_cons_quote rfl
    refine iff_of_true ?_ List.not_mem_nil
    unfold Aligned
    rw [hmatched]
    exact hadds
  · have hquote : '\'' ∉ t := fun hmem => (isBlank_of_isSafe (hsafe _ hmem)).2.2.1 rfl
    refine iff_of_true ?_ hquote
    obtain ⟨c, u, rfl⟩ := List.exists_cons_of_ne_nil hne
    obtain ⟨-, -, hsingle, hdouble⟩ := isBlank_of_isSafe (hsafe c List.mem_cons_self)
    have hspaces : ∀ d ∈ c :: u, (!Lines.isSpace d) = true := by
      intro d hd
      rw [not_isSpace_of_isSafe (hsafe d hd)]
      rfl
    have hend : r.takeWhile (fun d => !Lines.isSpace d) = [] ∧ r.dropWhile (fun d => !Lines.isSpace d) = r := by
      rcases hr with rfl | ⟨v, rfl⟩
      · exact ⟨rfl, rfl⟩
      · exact ⟨List.takeWhile_cons_of_neg (by decide), List.dropWhile_cons_of_neg (by decide)⟩
    have hmatched : matched (c :: u ++ r) = (c :: u, r) := by
      rw [List.cons_append, matched, if_neg (not_or.mpr ⟨hsingle, hdouble⟩), bare, ← List.cons_append,
        List.takeWhile_append_of_pos hspaces, List.dropWhile_append_of_pos hspaces, hend.1, hend.2, List.append_nil]
    have hrun : run .blank (c :: u) = .word := run_safe hsafe
    unfold Aligned
    rw [heq, hmatched, hrun]
    exact hadds
  · by_cases hmem : '\'' ∈ t
    · -- the match ends at the first single quote of the path
      obtain ⟨u, v, rfl, hu⟩ := List.eq_append_cons_of_mem hmem
      refine iff_of_false ?_ (fun h => h hmem)
      have htext : quote (u ++ '\'' :: v) ++ r = '\'' :: (u ++ '\'' :: '"' :: '\'' :: '"' :: '\'' ::
          (v.flatMap (fun c => if c = '\'' then ['\'', '"', '\'', '"', '\''] else [c]) ++ ['\''] ++ r)) := by
        rw [heq, List.flatMap_append, escaped_of_not_mem hu, List.flatMap_cons, if_pos rfl]
        simp
      unfold Aligned
      rw [htext, matched_cons_quote (closing_append hu _)]
      rw [show run .blank ('\'' :: (u ++ ['\''])) = .word from (run_single hu).2]
      exact nofun
    · refine iff_of_true ?_ hmem
      have htext : quote t ++ r = '\'' :: (t ++ '\'' :: r) := by
        rw [heq, escaped_of_not_mem hmem]
        simp
      unfold Aligned
      rw [htext, matched_cons_quote (closing_append hmem r)]
      rw [show run .blank ('\'' :: (t ++ ['\''])) = .word from (run_single hmem).2]
      exact hadds

/-- The limiter of a job: only the executable is replaced, exactly when the match is the whole first word; for a
template of `specification`, exactly when the path has no single quote. -/
theorem limiter_replaced_iff (files : Files) :
    (∀ text line, generateLimiter files text = .ok line →
      (Replaced files text line ↔ Aligned (Lines.strip text))) ∧
    ∀ executable rest line, generateLimiter files (written executable rest) = .ok line →
      (Replaced files (written executable rest) line ↔ '\'' ∉ executable) := by
  refine ⟨fun text line h => replaced_iff_aligned h, fun executable rest line h => ?_⟩
  obtain ⟨r, hstrip, hr⟩ := strip_written executable rest
  rw [replaced_iff_aligned h, hstrip]
  exact aligned_quote_iff hr

/-- Two resource roots, one of them with an apostrophe. -/
def sampleFiles : Files where
  pathAt := id
  inRoot path := "/r".toList <+: path
  isFile _ := true
  built _ := false

theorem limiter_replaced_iff_run :
    Replaced sampleFiles "/r/run {{solver_command}}\n".toList
        "\"${JOB_DIR}/rootfs\"/r/run {{solver_command}}".toList ∧
      Replaced sampleFiles (written "/r/my run".toList "{{solver_command}}".toList)
        "\"${JOB_DIR}/rootfs\"/'r/my run' {{solver_command}}".toList :=
  ⟨((limiter_replaced_iff sampleFiles).1 _ _ (by decide +kernel)).mpr (by decide +kernel),
    ((limiter_replaced_iff sampleFiles).2 _ _ _ (by decide +kernel)).mpr (by decide +kernel)⟩

/-- An apostrophe leaves a part of the old path behind the new one. -/
theorem apostrophe_not_replaced :
    ∃ line, generateLimiter sampleFiles (written "/r/it's/run".toList "{{solver_command}}".toList) = .ok line ∧
      split (Lines.strip (written "/r/it's/run".toList "{{solver_command}}".toList)) =
        some ["/r/it's/run".toList, "{{solver_command}}".toList] ∧
      split line = some ["${JOB_DIR}/rootfs/r/it's/run's/run".toList, "{{solver_command}}".toList] ∧
      ¬ Replaced sampleFiles (written "/r/it's/run".toList "{{solver_command}}".toList) line := by
  refine ⟨"\"${JOB_DIR}/rootfs\"/'r/it'\"'\"'s/run'\"'\"'s/run' {{solver_command}}".toList, by decide +kernel,
    by decide +kernel, by decide +kernel, ?_⟩
  rintro ⟨word, words, hsplit, hline⟩
  have hword : split (Lines.strip (written "/r/it's/run".toList "{{solver_command}}".toList)) =
      some ["/r/it's/run".toList, "{{solver_command}}".toList] := by decide +kernel
  rw [hword] at hsplit
  cases hsplit
  exact absurd hline (by decide +kernel)

end Limiter
end Slurmy
