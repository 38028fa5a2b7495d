import Mathlib.Data.List.Basic
import Mathlib.Data.List.Induction
import Mathlib.Logic.Equiv.Basic
import Mathlib.Tactic.Cases
import Mathlib.Tactic.SplitIfs

/-!
# Words of a shell

`shlex.split` into the words of a POSIX shell, and `shlex.quote`.

* `Mode`, `read`: the reader, which may start inside a word;
* `split`: the words;
* `quote`, `read_quote`: a quoted text is read as it was;
* `Apart.disagree`: readers that are not in the same quotation never agree on the words again.
-/

namespace ShellWords

/-- Where the reader is: between words, in a word, inside quotes, or after a backslash. -/
inductive Mode
  | blank
  | word
  | single
  | double
  | escape
  | escapeDouble
  deriving DecidableEq

/-- `shlex.whitespace`. -/
def isBlank (c : Char) : Bool := c = ' ' ∨ c = '\t' ∨ c = '\r' ∨ c = '\n'

/-- Outside quotes: the next mode, and what is added to the word. -/
def nextOutside (c : Char) : Mode × List Char :=
  if isBlank c then (.blank, [])
  else if c = '\\' then (.escape, [])
  else if c = '\'' then (.single, [])
  else if c = '"' then (.double, [])
  else (.word, [c])

/-- A step of `shlex`. In double quotes it takes a backslash away only in front of a double quote and of another
backslash; a shell does so in front of a dollar sign, a backquote and a newline as well. -/
def Mode.next : Mode → Char → Mode × List Char
  | .blank, c => nextOutside c
  | .word, c => nextOutside c
  | .single, c => if c = '\'' then (.word, []) else (.single, [c])
  | .double, c => if c = '"' then (.word, []) else if c = '\\' then (.escapeDouble, []) else (.double, [c])
  | .escape, c => (.word, [c])
  | .escapeDouble, c => (.double, if c = '"' ∨ c = '\\' then [c] else ['\\', c])

/-- A text in front of the first word. -/
def extend (t : List Char) : List (List Char) → List (List Char)
  | [] => []
  | w :: ws => (t ++ w) :: ws

/-- The words, with what a step has found. -/
def Mode.join (m : Mode) (n : Mode × List Char) (ws : List (List Char)) : List (List Char) :=
  if n.1 = .blank then (if m = .blank then ws else [] :: ws) else extend n.2 ws

/-- At the end of the text; quotations have to be closed. -/
def Mode.atEnd : Mode → Option (List (List Char))
  | .blank => some []
  | .word => some [[]]
  | _ => none

/-- The words from here on; inside a word, the first one is the rest of it. -/
def read (m : Mode) : List Char → Option (List (List Char))
  | [] => m.atEnd
  | c :: t => (read (m.next c).1 t).map (m.join (m.next c))

/-- `shlex.split`. -/
def split (t : List Char) : Option (List (List Char)) := read .blank t

/-- The characters that `shlex.quote` leaves alone. -/
def isSafe (c : Char) : Bool := c.isAlphanum || c ∈ ['_', '@', '%', '+', '=', ':', ',', '.', '/', '-']

/-- `shlex.quote`. -/
def quote (t : List Char) : List Char :=
  if t = [] then ['\'', '\'']
  else if t.all isSafe then t
  else '\'' :: t.flatMap (fun c => if c = '\'' then ['\'', '"', '\'', '"', '\''] else [c]) ++ ['\'']

variable {m p q : Mode} {c d : Char} {t u : List Char} {ws : List (List Char)}

/-! ### Reading on -/

theorem read_cons (m : Mode) (c : Char) (t : List Char) :
    read m (c :: t) = (read (m.next c).1 t).map (m.join (m.next c)) := rfl

@[simp] theorem extend_nil (ws : List (List Char)) : extend [] ws = ws := by
  cases ws <;> rfl

@[simp] theorem extend_extend (t u : List Char) (ws : List (List Char)) :
    extend t (extend u ws) = extend (t ++ u) ws := by
  cases ws with
  | nil => rfl
  | cons w ws => simp [extend]

theorem extend_ne_nil (h : ws ≠ []) : extend t ws ≠ [] := by
  cases ws with
  | nil => exact absurd rfl h
  | cons w ws => exact List.cons_ne_nil _ _

/-- Inside a word there is at least the rest of it. -/
theorem read_ne_nil (hm : m ≠ .blank) (h : read m t = some ws) : ws ≠ [] := by
  induction t generalizing m ws with
  | nil =>
    cases m with
    | blank => exact absurd rfl hm
    | word =>
      cases h
      exact List.cons_ne_nil _ _
    | _ => cases h
  | cons c t ih =>
    obtain ⟨ws', hws', rfl⟩ := Option.map_eq_some_iff.mp h
    unfold Mode.join
    rw [if_neg hm]
    split
    · exact List.cons_ne_nil _ _
    · next hnext => exact extend_ne_nil (ih hnext hws')

/-- A step that stays in the word. -/
theorem read_step (hnext : m.next c = (p, u)) (hp : p ≠ .blank) (t : List Char) :
    read m (c :: t) = (read p t).map (extend u) := by
  rw [read_cons, hnext]
  congr 1
  funext ws
  exact if_neg hp

theorem map_extend_nil (o : Option (List (List Char))) : o.map (extend []) = o := by
  rw [show extend [] = id from funext extend_nil, Option.map_id, id]

theorem map_extend_extend (t u : List Char) (o : Option (List (List Char))) :
    (o.map (extend u)).map (extend t) = o.map (extend (t ++ u)) := by
  rw [Option.map_map]
  congr 1
  funext ws
  exact extend_extend t u ws

/-- A blank ends the word. -/
theorem read_blank (hc : isBlank c = true) (t : List Char) :
    read .word (c :: t) = (read .blank t).map ([] :: ·) ∧ read .blank (c :: t) = read .blank t := by
  have hnext : nextOutside c = (.blank, []) := if_pos hc
  constructor
  · rw [read_cons]
    show (read (nextOutside c).1 t).map (Mode.join .word (nextOutside c)) = _
    rw [hnext]
    rfl
  · rw [read_cons]
    show (read (nextOutside c).1 t).map (Mode.join .blank (nextOutside c)) = _
    rw [hnext]
    exact Option.map_id'

/-- Another character is read in a word as it is between words. -/
theorem read_of_not_blank (hc : isBlank c = false) (t : List Char) : read .blank (c :: t) = read .word (c :: t) := by
  have hnext : (nextOutside c).1 ≠ .blank := by
    unfold nextOutside
    rw [if_neg (by rw [hc]; exact Bool.false_ne_true)]
    split_ifs <;> exact nofun
  rw [read_step (m := .blank) (c := c) rfl hnext, read_step (m := .word) (c := c) rfl hnext]

/-! ### Quotations -/

theorem next_single : Mode.single.next '\'' = (.word, []) := rfl

theorem next_single_of_ne (h : c ≠ '\'') : Mode.single.next c = (.single, [c]) := if_neg h

theorem isBlank_of_isSafe (h : isSafe c = true) :
    isBlank c = false ∧ c ≠ '\\' ∧ c ≠ '\'' ∧ c ≠ '"' := by
  refine ⟨?_, ?_, ?_, ?_⟩
  · by_contra hblank
    rw [Bool.not_eq_false] at hblank
    unfold isBlank at hblank
    rcases of_decide_eq_true hblank with rfl | rfl | rfl | rfl <;> exact absurd h (by decide)
  all_goals
    rintro rfl
    exact absurd h (by decide)

/-- A character that means nothing to the shell. -/
theorem nextOutside_plain (h : isBlank c = false ∧ c ≠ '\\' ∧ c ≠ '\'' ∧ c ≠ '"') : nextOutside c = (.word, [c]) := by
  obtain ⟨hblank, hescape, hsingle, hdouble⟩ := h
  unfold nextOutside
  rw [if_neg (by rw [hblank]; exact Bool.false_ne_true), if_neg hescape, if_neg hsingle, if_neg hdouble]

/-- Characters that need no quotes. -/
theorem read_safe (h : ∀ c ∈ t, isSafe c = true) (u : List Char) :
    read .word (t ++ u) = (read .word u).map (extend t) := by
  induction t with
  | nil => exact (map_extend_nil _).symm
  | cons c t ih =>
    have hnext : Mode.word.next c = (.word, [c]) := nextOutside_plain (isBlank_of_isSafe (h c List.mem_cons_self))
    rw [List.cons_append, read_step hnext nofun, ih fun d hd => h d (List.mem_cons_of_mem c hd), map_extend_extend]
    rfl

/-- The quotation of `shlex.quote`, inside its quotes. -/
theorem escaped_of_not_mem (h : '\'' ∉ t) :
    t.flatMap (fun c => if c = '\'' then ['\'', '"', '\'', '"', '\''] else [c]) = t := by
  induction t with
  | nil => rfl
  | cons c t ih =>
    have hc : c ≠ '\'' := fun heq => h (heq ▸ List.mem_cons_self)
    rw [List.flatMap_cons, if_neg hc, ih fun hmem => h (List.mem_cons_of_mem c hmem)]
    rfl

/-- A single quote as `shlex.quote` writes it. -/
theorem read_escaped_quote (u : List Char) :
    read .single (['\'', '"', '\'', '"', '\''] ++ u) = (read .single u).map (extend ['\'']) := by
  have hopen : Mode.word.next '"' = (.double, []) := rfl
  have hinside : Mode.double.next '\'' = (.double, ['\'']) := rfl
  have hclose' : Mode.double.next '"' = (.word, []) := rfl
  have hopen' : Mode.word.next '\'' = (.single, []) := rfl
  simp only [List.cons_append, List.nil_append]
  rw [read_step next_single nofun, read_step hopen nofun, read_step hinside nofun, read_step hclose' nofun,
    read_step hopen' nofun]
  simp only [map_extend_nil]

/-- The text inside the quotes of `shlex.quote`. -/
theorem read_escaped (t u : List Char) :
    read .single (t.flatMap (fun c => if c = '\'' then ['\'', '"', '\'', '"', '\''] else [c]) ++ '\'' :: u) =
      (read .word u).map (extend t) := by
  induction t with
  | nil => exact read_step next_single nofun u
  | cons c t ih =>
    rw [List.flatMap_cons, List.append_assoc]
    split
    · next hc =>
      subst hc
      rw [read_escaped_quote, ih, map_extend_extend]
      rfl
    · next hc =>
      rw [List.singleton_append, read_step (next_single_of_ne hc) nofun, ih, map_extend_extend]
      rfl

/-- A quoted text is read as it was, inside a word. -/
theorem read_quote (t u : List Char) : read .word (quote t ++ u) = (read .word u).map (extend t) := by
  have hopen : Mode.word.next '\'' = (.single, []) := rfl
  unfold quote
  split
  · next h =>
    subst h
    rw [List.cons_append, read_step hopen nofun, List.cons_append, read_step next_single nofun, map_extend_extend]
    rfl
  split
  · next h => exact read_safe (List.all_eq_true.mp h) u
  · rw [List.append_assoc, List.cons_append, read_step hopen nofun, List.singleton_append, read_escaped,
      map_extend_nil]

theorem next_double (hdouble : c ≠ '"') (hescape : c ≠ '\\') : Mode.double.next c = (.double, [c]) :=
  (if_neg hdouble).trans (if_neg hescape)

/-- Inside double quotes. -/
theorem read_double (h : ∀ c ∈ t, c ≠ '"' ∧ c ≠ '\\') (u : List Char) :
    read .double (t ++ '"' :: u) = (read .word u).map (extend t) := by
  induction t with
  | nil =>
    have hclose : Mode.double.next '"' = (.word, []) := rfl
    exact read_step hclose nofun u
  | cons c t ih =>
    obtain ⟨hdouble, hescape⟩ := h c List.mem_cons_self
    rw [List.cons_append, read_step (next_double hdouble hescape) nofun,
      ih fun d hd => h d (List.mem_cons_of_mem c hd), map_extend_extend]
    rfl

/-! ### Parts of a word -/

/-- The mode after a text. -/
def run (m : Mode) (t : List Char) : Mode := t.foldl (fun m c => (m.next c).1) m

/-- The text does not end a word. -/
def Stays : Mode → List Char → Prop
  | _, [] => True
  | m, c :: t => (m.next c).1 ≠ .blank ∧ Stays (m.next c).1 t

/-- A part of a word. -/
theorem exists_read_append (h : Stays m t) : ∃ w, ∀ u, read m (t ++ u) = (read (run m t) u).map (extend w) := by
  induction t generalizing m with
  | nil => exact ⟨[], fun u => (map_extend_nil _).symm⟩
  | cons c t ih =>
    obtain ⟨w, hw⟩ := ih h.2
    have hnext : m.next c = ((m.next c).1, (m.next c).2) := rfl
    refine ⟨(m.next c).2 ++ w, fun u => ?_⟩
    rw [List.cons_append, read_step hnext h.1, hw, map_extend_extend]
    rfl

theorem run_ne_blank (h : Stays m t) (hne : t ≠ [] ∨ m ≠ .blank) : run m t ≠ .blank := by
  induction t generalizing m with
  | nil => exact hne.resolve_left fun h => h rfl
  | cons c t ih => exact ih h.2 (.inr h.1)

theorem run_safe (h : ∀ c ∈ t, isSafe c = true) : run .word t = .word := by
  induction t with
  | nil => rfl
  | cons c t ih =>
    have hnext : nextOutside c = (.word, [c]) := nextOutside_plain (isBlank_of_isSafe (h c List.mem_cons_self))
    show run (nextOutside c).1 t = _
    rw [hnext]
    exact ih fun d hd => h d (List.mem_cons_of_mem c hd)

theorem next_ne_blank (hc : isBlank c = false) (m : Mode) : (m.next c).1 ≠ .blank := by
  have houtside : (nextOutside c).1 ≠ .blank := by
    unfold nextOutside
    rw [if_neg (by rw [hc]; exact Bool.false_ne_true)]
    split_ifs <;> exact nofun
  cases m with
  | blank => exact houtside
  | word => exact houtside
  | single =>
    show (if c = '\'' then _ else _ : Mode × List Char).1 ≠ _
    split_ifs <;> exact nofun
  | double =>
    show (if c = '"' then _ else if c = '\\' then _ else _ : Mode × List Char).1 ≠ _
    split_ifs <;> exact nofun
  | escape => exact nofun
  | escapeDouble => exact nofun

theorem stays_of_not_blank (h : ∀ c ∈ t, isBlank c = false) (m : Mode) : Stays m t := by
  induction t generalizing m with
  | nil => trivial
  | cons c t ih =>
    exact ⟨next_ne_blank (h c List.mem_cons_self) m, ih (fun d hd => h d (List.mem_cons_of_mem c hd)) _⟩

/-- Nothing more comes to a word, but for empty quotes. -/
def addsNothing : List Char → Bool
  | '\'' :: '\'' :: t => addsNothing t
  | '"' :: '"' :: t => addsNothing t
  | [] => true
  | c :: _ => isBlank c

theorem read_empty_quotes (hc : c = '\'' ∨ c = '"') (t : List Char) : read .word (c :: c :: t) = read .word t := by
  rcases hc with rfl | rfl
  · have hopen : Mode.word.next '\'' = (.single, []) := rfl
    rw [read_step hopen nofun, read_step next_single nofun, map_extend_nil, map_extend_nil]
  · have hopen : Mode.word.next '"' = (.double, []) := rfl
    have hclose : Mode.double.next '"' = (.word, []) := rfl
    rw [read_step hopen nofun, read_step hclose nofun, map_extend_nil, map_extend_nil]

/-- A step that adds to the word. -/
theorem ne_nil_of_step {y : List Char} (hnext : m.next c = (p, d :: u)) (hp : p ≠ .blank)
    (h : read m (c :: t) = some (y :: ws)) : y ≠ [] := by
  rw [read_step hnext hp] at h
  obtain ⟨l, -, hl⟩ := Option.map_eq_some_iff.mp h
  cases l with
  | nil => exact nomatch hl
  | cons w l =>
    rintro rfl
    exact nomatch hl

/-- Inside a quotation that does not end at once. -/
theorem ne_nil_of_quoted {y : List Char} (hclosed : t.head? ≠ some '"') (h : read .double t = some (y :: ws)) :
    y ≠ [] := by
  cases t with
  | nil => exact nomatch h
  | cons c t =>
    have hdouble : c ≠ '"' := fun heq => hclosed (heq ▸ rfl)
    by_cases hescape : c = '\\'
    · subst hescape
      have hnext : Mode.double.next '\\' = (.escapeDouble, []) := rfl
      rw [read_step hnext nofun, map_extend_nil] at h
      cases t with
      | nil => exact nomatch h
      | cons d t =>
        have hadd : Mode.escapeDouble.next d = (.double, if d = '"' ∨ d = '\\' then [d] else ['\\', d]) := rfl
        split at hadd
        · exact ne_nil_of_step hadd nofun h
        · exact ne_nil_of_step hadd nofun h
    · exact ne_nil_of_step (next_double hdouble hescape) nofun h

theorem eq_nil_iff_addsNothing {y : List Char} (h : read .word t = some (y :: ws)) :
    y = [] ↔ addsNothing t = true := by
  induction t using addsNothing.induct with
  | case1 t ih =>
    rw [read_empty_quotes (.inl rfl)] at h
    exact ih h
  | case2 t ih =>
    rw [read_empty_quotes (.inr rfl)] at h
    exact ih h
  | case3 =>
    cases h
    exact iff_of_true rfl rfl
  | case4 c t hsingle hdouble =>
    have hadds : addsNothing (c :: t) = isBlank c := by
      unfold addsNothing
      split
      · next heq =>
        obtain ⟨hc, ht⟩ := List.cons.inj heq
        exact (hsingle _ hc ht).elim
      · next heq =>
        obtain ⟨hc, ht⟩ := List.cons.inj heq
        exact (hdouble _ hc ht).elim
      · next heq => exact nomatch heq
      · next heq => exact congrArg isBlank (List.cons.inj heq).1.symm
    rw [hadds]
    by_cases hblank : isBlank c = true
    · rw [(read_blank hblank t).1] at h
      obtain ⟨l, -, hl⟩ := Option.map_eq_some_iff.mp h
      exact iff_of_true (List.cons.inj hl).1.symm hblank
    · refine iff_of_false ?_ hblank
      by_cases hc : c = '\\'
      · subst hc
        have hnext : Mode.word.next '\\' = (.escape, []) := rfl
        rw [read_step hnext nofun, map_extend_nil] at h
        cases t with
        | nil => exact nomatch h
        | cons d t =>
          have hadd : Mode.escape.next d = (.word, [d]) := rfl
          exact ne_nil_of_step hadd nofun h
      by_cases hquote : c = '\''
      · subst hquote
        have hnext : Mode.word.next '\'' = (.single, []) := rfl
        rw [read_step hnext nofun, map_extend_nil] at h
        cases t with
        | nil => exact nomatch h
        | cons d t =>
          have hd : d ≠ '\'' := fun heq => hsingle t rfl (heq ▸ rfl)
          exact ne_nil_of_step (next_single_of_ne hd) nofun h
      by_cases hquote' : c = '"'
      · subst hquote'
        have hnext : Mode.word.next '"' = (.double, []) := rfl
        rw [read_step hnext nofun, map_extend_nil] at h
        refine ne_nil_of_quoted (fun hhead => ?_) h
        cases t with
        | nil => exact nomatch hhead
        | cons d t => exact hdouble t rfl (by cases hhead; rfl)
      · have hnext : Mode.word.next c = (.word, [c]) :=
          nextOutside_plain ⟨Bool.eq_false_iff.mpr hblank, hc, hquote, hquote'⟩
        exact ne_nil_of_step hnext nofun h

/-! ### Readers in different quotations -/

/-- The quotation that a reader is in, `none` inside of an escape. -/
def Mode.quotation : Mode → Option (Option Char)
  | .blank | .word => some none
  | .single => some (some '\'')
  | .double => some (some '"')
  | .escape | .escapeDouble => none

/-- The readers are not in the same quotation. -/
def Apart (p q : Mode) : Prop := p.quotation ≠ none ∧ q.quotation ≠ none ∧ p.quotation ≠ q.quotation

instance (p q : Mode) : Decidable (Apart p q) := by
  unfold Apart
  infer_instance

theorem Apart.symm (h : Apart p q) : Apart q p := ⟨h.2.1, h.1, h.2.2.symm⟩

/-- A word has the character `c` before `h`, and the words after it are `T`. -/
def Ends (c : Char) (h : List Char) (T ws : List (List Char)) : Prop := ∃ A w, ws = A ++ (w ++ c :: h) :: T

variable {h : List Char} {T ws' : List (List Char)}

theorem Ends.extend (hws : Ends c h T ws) (t : List Char) : Ends c h T (extend t ws) := by
  obtain ⟨A, w, rfl⟩ := hws
  cases A with
  | nil => exact ⟨[], t ++ w, by simp [ShellWords.extend]⟩
  | cons a A => exact ⟨(t ++ a) :: A, w, rfl⟩

theorem Ends.join (hws : Ends c h T ws) (m : Mode) (n : Mode × List Char) : Ends c h T (m.join n ws) := by
  unfold Mode.join
  split
  · split
    · exact hws
    · obtain ⟨A, w, rfl⟩ := hws
      exact ⟨[] :: A, w, rfl⟩
  · exact hws.extend n.2

/-- Where two readers agree on the words that follow, one of them has had another character before. -/
def Disagree (ws ws' : List (List Char)) : Prop := ∃ c d h T, c ≠ d ∧ Ends c h T ws ∧ Ends d h T ws'

theorem Disagree.symm (hws : Disagree ws ws') : Disagree ws' ws := by
  obtain ⟨c, d, h, T, hne, hc, hd⟩ := hws
  exact ⟨d, c, h, T, hne.symm, hd, hc⟩

theorem Disagree.join (hws : Disagree ws ws') (p q : Mode) (n n' : Mode × List Char) :
    Disagree (p.join n ws) (q.join n' ws') := by
  obtain ⟨c, d, h, T, hne, hc, hd⟩ := hws
  exact ⟨c, d, h, T, hne, hc.join p n, hd.join q n'⟩

/-- A quote opens its quotation or closes it, and changes no other. -/
def toggle (c : Char) (s : Option Char) : Option Char :=
  if c = '\'' ∨ c = '"' then Equiv.swap none (some c) s else s

theorem toggle_injective (c : Char) : Function.Injective (toggle c) := by
  unfold toggle
  split
  · exact (Equiv.swap _ _).injective
  · exact Function.injective_id

theorem quotation_nextOutside (hc : c ≠ '\\') : (nextOutside c).1.quotation = some (toggle c none) := by
  unfold nextOutside
  split_ifs with hblank hsingle hdouble
  · have hne : ¬ (c = '\'' ∨ c = '"') := by
      rintro (rfl | rfl) <;> exact absurd hblank (by decide)
    unfold toggle
    rw [if_neg hne]
    rfl
  · subst hsingle
    decide
  · subst hdouble
    decide
  · unfold toggle
    rw [if_neg (not_or.mpr ⟨hsingle, hdouble⟩)]
    rfl

theorem quotation_next {s : Option Char} (hp : p.quotation = some s) (hc : c ≠ '\\') :
    (p.next c).1.quotation = some (toggle c s) := by
  cases p with
  | blank =>
    cases hp
    exact quotation_nextOutside hc
  | word =>
    cases hp
    exact quotation_nextOutside hc
  | single =>
    cases hp
    by_cases hsingle : c = '\''
    · subst hsingle
      decide
    by_cases hdouble : c = '"'
    · subst hdouble
      decide
    · rw [next_single_of_ne hsingle]
      unfold toggle
      rw [if_neg (not_or.mpr ⟨hsingle, hdouble⟩)]
      rfl
  | double =>
    cases hp
    by_cases hdouble : c = '"'
    · subst hdouble
      decide
    by_cases hsingle : c = '\''
    · subst hsingle
      decide
    · have hnext : Mode.double.next c = (.double, [c]) := (if_neg hdouble).trans (if_neg hc)
      rw [hnext]
      unfold toggle
      rw [if_neg (not_or.mpr ⟨hsingle, hdouble⟩)]
      rfl
  | escape => cases hp
  | escapeDouble => cases hp

/-- Quotes take different quotations to different ones. -/
theorem Apart.next (hpq : Apart p q) (hc : c ≠ '\\') : Apart (p.next c).1 (q.next c).1 := by
  obtain ⟨hp, hq, hne⟩ := hpq
  obtain ⟨s, hs⟩ := Option.ne_none_iff_exists'.mp hp
  obtain ⟨s', hs'⟩ := Option.ne_none_iff_exists'.mp hq
  rw [Apart, quotation_next hs hc, quotation_next hs' hc]
  refine ⟨Option.some_ne_none _, Option.some_ne_none _, fun heq => hne ?_⟩
  rw [hs, hs', toggle_injective c (Option.some.inj heq)]

theorem eq_single (hp : p.quotation = some (some '\'')) : p = .single := by
  cases p with
  | single => rfl
  | _ => cases hp

/-- A backslash and the next character change nothing, except that single quotes know no backslash. -/
theorem quotation_escaped {s : Option Char} (hp : p.quotation = some s) (hd : d ≠ '\'' ∨ s ≠ some '\'') :
    ((p.next '\\').1.next d).1.quotation = some s := by
  cases p with
  | blank => exact hp
  | word => exact hp
  | single =>
    cases hp
    have hne : d ≠ '\'' := hd.resolve_right fun h => h rfl
    show (Mode.single.next d).1.quotation = _
    rw [next_single_of_ne hne]
    rfl
  | double => exact hp
  | escape => cases hp
  | escapeDouble => cases hp

/-- After a backslash and another character the readers are apart as before, or the one in single quotes has left
them. -/
theorem Apart.next_next (hpq : Apart p q) (d : Char) :
    Apart ((p.next '\\').1.next d).1 ((q.next '\\').1.next d).1 ∨
      (d = '\'' ∧ p.quotation = some none ∧ q = .single) ∨ (d = '\'' ∧ q.quotation = some none ∧ p = .single) := by
  have hkept : ∀ {p q : Mode} {s s' : Option Char}, p.quotation = some s → q.quotation = some s' → s ≠ s' →
      d ≠ '\'' ∨ s ≠ some '\'' → d ≠ '\'' ∨ s' ≠ some '\'' →
      Apart ((p.next '\\').1.next d).1 ((q.next '\\').1.next d).1 := by
    intro p q s s' hs hs' hne hd hd'
    rw [Apart, quotation_escaped hs hd, quotation_escaped hs' hd']
    exact ⟨Option.some_ne_none _, Option.some_ne_none _, fun heq => hne (Option.some.inj heq)⟩
  -- in double quotes the reader stays there, while the other one leaves the single quotes
  have hdouble : ∀ {p : Mode} {s : Option Char}, p.quotation = some s → s ≠ some '\'' → s ≠ none →
      Apart ((p.next '\\').1.next '\'').1 ((Mode.single.next '\\').1.next '\'').1 := by
    intro p s hs hsingle hnone
    rw [Apart, quotation_escaped hs (.inr hsingle)]
    exact ⟨Option.some_ne_none _, nofun, fun heq => hnone (Option.some.inj heq)⟩
  obtain ⟨hp, hq, hne⟩ := hpq
  obtain ⟨s, hs⟩ := Option.ne_none_iff_exists'.mp hp
  obtain ⟨s', hs'⟩ := Option.ne_none_iff_exists'.mp hq
  have hne' : s ≠ s' := fun heq => hne (by rw [hs, hs', heq])
  by_cases hd : d = '\''
  · subst hd
    by_cases hsingle : s = some '\''
    · subst hsingle
      have hps := eq_single hs
      subst hps
      by_cases hnone : s' = none
      · exact .inr (.inr ⟨rfl, hnone ▸ hs', rfl⟩)
      · exact .inl (hdouble hs' hne'.symm hnone).symm
    · by_cases hsingle' : s' = some '\''
      · subst hsingle'
        have hqs := eq_single hs'
        subst hqs
        by_cases hnone : s = none
        · exact .inr (.inl ⟨rfl, hnone ▸ hs, rfl⟩)
        · exact .inl (hdouble hs hsingle hnone)
      · exact .inl (hkept hs hs' hne' (.inr hsingle) (.inr hsingle'))
  · exact .inl (hkept hs hs' hne' (.inl hd) (.inl hd))

/-- A reader at the end of the text is outside quotes. -/
theorem quotation_of_atEnd (hws : m.atEnd = some ws) : m.quotation = some none := by
  cases m with
  | blank => rfl
  | word => rfl
  | _ => cases hws

theorem read_cons_eq (hws : read m (c :: t) = some ws) :
    ∃ ws', read (m.next c).1 t = some ws' ∧ ws = m.join (m.next c) ws' := by
  obtain ⟨ws', hread, heq⟩ := Option.map_eq_some_iff.mp hws
  exact ⟨ws', hread, heq.symm⟩

/-- A quote after a backslash: the reader outside quotes has the quote in its word, the other one the backslash. -/
theorem disagree_escaped (hp : p.quotation = some none) (hws : read p ('\\' :: '\'' :: t) = some ws)
    (hws' : read .single ('\\' :: '\'' :: t) = some ws') : Disagree ws ws' := by
  have hescape : p.next '\\' = (.escape, []) := by
    cases p with
    | blank => rfl
    | word => rfl
    | _ => cases hp
  have hquote : Mode.escape.next '\'' = (.word, ['\'']) := rfl
  have hinside : Mode.single.next '\\' = (.single, ['\\']) := rfl
  rw [read_step hescape nofun, read_step hquote nofun, map_extend_extend] at hws
  rw [read_step hinside nofun, read_step next_single nofun, map_extend_extend] at hws'
  obtain ⟨l, hl, rfl⟩ := Option.map_eq_some_iff.mp hws
  rw [hl] at hws'
  cases hws'
  have hword : Mode.word ≠ .blank := nofun
  obtain ⟨h, T, rfl⟩ := List.exists_cons_of_ne_nil (read_ne_nil hword hl)
  exact ⟨'\'', '\\', h, T, by decide, ⟨[], [], rfl⟩, ⟨[], [], rfl⟩⟩

/-- Readers that are not in the same quotation never read the same words again. -/
theorem Apart.disagree (hpq : Apart p q) (hws : read p t = some ws) (hws' : read q t = some ws') :
    Disagree ws ws' := by
  have hend : ∀ {p q : Mode} {ws ws'}, Apart p q → p.atEnd = some ws → q.atEnd = some ws' → False := by
    intro p q ws ws' hpq hp hq
    exact hpq.2.2 (by rw [quotation_of_atEnd hp, quotation_of_atEnd hq])
  induction t using List.twoStepInduction generalizing p q ws ws' with
  | nil => exact (hend hpq hws hws').elim
  | singleton c =>
    obtain ⟨l, hl, rfl⟩ := read_cons_eq hws
    obtain ⟨l', hl', rfl⟩ := read_cons_eq hws'
    by_cases hc : c = '\\'
    · -- nobody but the reader in single quotes stops after a backslash
      subst hc
      have hsingle : ∀ {m : Mode} {l}, (m.next '\\').1.atEnd = some l → m.quotation ≠ none → False := by
        intro m l hm hquotation
        cases m with
        | escape => exact hquotation rfl
        | escapeDouble => exact hquotation rfl
        | _ => cases hm
      exact (hsingle hl hpq.1).elim
    · exact (hend (hpq.next hc) hl hl').elim
  | cons_cons c d t ih ih' =>
    by_cases hc : c = '\\'
    · subst hc
      rcases hpq.next_next d with happart | ⟨rfl, hquotation, rfl⟩ | ⟨rfl, hquotation, rfl⟩
      · obtain ⟨l, hl, rfl⟩ := read_cons_eq hws
        obtain ⟨l', hl', rfl⟩ := read_cons_eq hws'
        obtain ⟨k, hk, rfl⟩ := read_cons_eq hl
        obtain ⟨k', hk', rfl⟩ := read_cons_eq hl'
        exact ((ih happart hk hk').join _ _ _ _).join _ _ _ _
      · exact disagree_escaped hquotation hws hws'
      · exact (disagree_escaped hquotation hws' hws).symm
    · obtain ⟨l, hl, rfl⟩ := read_cons_eq hws
      obtain ⟨l', hl', rfl⟩ := read_cons_eq hws'
      exact (ih' d (hpq.next hc) hl hl').join _ _ _ _

/-- So where one of them reads nothing into its word, the words after it are not the same. -/
theorem not_disagree_tail {y : List Char} {l : List (List Char)} : ¬ Disagree ([] :: l) (y :: l) := by
  rintro ⟨c, d, h, T, hne, ⟨A, w, heq⟩, ⟨A', w', heq'⟩⟩
  cases A with
  | nil => exact absurd (List.cons.inj heq).1.symm (List.append_ne_nil_of_right_ne_nil _ (List.cons_ne_nil _ _))
  | cons a A =>
    have hl : l = A ++ (w ++ c :: h) :: T := (List.cons.inj heq).2
    cases A' with
    | nil =>
      have hlength := congrArg List.length hl
      rw [(List.cons.inj heq').2, List.length_append, List.length_cons] at hlength
      omega
    | cons a' A' =>
      have hl' : l = A' ++ (w' ++ d :: h) :: T := (List.cons.inj heq').2
      have hwords := (List.append_inj' (hl.symm.trans hl') rfl).2
      have hword := (List.append_inj' (List.cons.inj hwords).1 rfl).2
      exact hne (List.cons.inj hword).1

end ShellWords
