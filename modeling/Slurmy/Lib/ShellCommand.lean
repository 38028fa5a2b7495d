import Slurmy.Lib.Lines
import Slurmy.Lib.Scan
import Slurmy.Lib.ShellWords

/-!
# Commands word by word

* `Closed`: a piece of a command that is read as a word, whatever follows it;
* `Reads`, `split_joined`: the words of a command whose pieces between the blanks are closed;
* `words`, `Piece`, `words_joined`: the same with operators, which end a word like blanks.
-/

namespace ShellWords

open Scan (joined)

variable {c : Char} {r s u w v : List Char}

/-- The piece `r` of a command is read as `w`, inside a word. -/
def Closed (r w : List Char) : Prop := ∀ u, read .word (r ++ u) = (read .word u).map (extend w)

theorem closed_nil : Closed [] [] := fun u => (map_extend_nil (read .word u)).symm

theorem closed_quote (t : List Char) : Closed (quote t) t := read_quote t

theorem closed_safe {t : List Char} (h : t.all isSafe = true) : Closed t t := read_safe (List.all_eq_true.mp h)

theorem Closed.append (hr : Closed r w) (hs : Closed s v) : Closed (r ++ s) (w ++ v) := by
  intro u
  rw [List.append_assoc, hr, hs, map_extend_extend]

/-- A character that means nothing to the shell. -/
theorem closed_plain (h : isBlank c = false ∧ c ≠ '\\' ∧ c ≠ '\'' ∧ c ≠ '"') : Closed [c] [c] := by
  have hnext : Mode.word.next c = (.word, [c]) := nextOutside_plain h
  exact fun u => read_step hnext nofun u

theorem closed_double {t : List Char} (h : ∀ c ∈ t, c ≠ '"' ∧ c ≠ '\\') : Closed ('"' :: (t ++ ['"'])) t := by
  intro u
  have hopen : Mode.word.next '"' = (.double, []) := rfl
  rw [List.cons_append, read_step hopen nofun, List.append_assoc, List.singleton_append, read_double h, map_extend_nil]

/-- A closed piece does not begin with a blank. -/
theorem Closed.head (h : Closed (c :: r) w) : isBlank c = false := by
  by_contra hblank
  rw [Bool.not_eq_false] at hblank
  have hx := h ['x']
  have hword : read .word ['x'] = some [['x']] := rfl
  rw [List.cons_append, (read_blank hblank _).1, hword, Option.map_some] at hx
  obtain ⟨ws, -, heq⟩ := Option.map_eq_some_iff.mp hx
  have hnil : [] = w ++ ['x'] := (List.cons.inj heq).1
  exact List.append_ne_nil_of_right_ne_nil w (List.cons_ne_nil 'x' []) hnil.symm

/-- The words of closed pieces; empty ones are none. -/
inductive Reads : List (List Char) → List (List Char) → Prop
  | nil : Reads [] []
  | skip {rs ws : List (List Char)} (rest : Reads rs ws) : Reads ([] :: rs) ws
  | word {r w : List Char} {rs ws : List (List Char)} (hr : r ≠ []) (hclosed : Closed r w) (rest : Reads rs ws) :
      Reads (r :: rs) (w :: ws)

theorem read_closed (hr : r ≠ []) (h : Closed r w) (u : List Char) :
    read .blank (r ++ u) = (read .word u).map (extend w) := by
  obtain ⟨c, r, rfl⟩ := List.exists_cons_of_ne_nil hr
  rw [List.cons_append, read_of_not_blank h.head, ← List.cons_append, h]

/-- The words of a command. -/
theorem split_joined {rest : List (Char × List Char)} (hrest : ∀ c ∈ rest.map Prod.fst, isBlank c = true) {ws : List (List Char)}
    (h : Reads (r :: rest.map Prod.snd) ws) : split (joined r rest) = some ws := by
  unfold split
  induction rest generalizing r ws with
  | nil =>
    cases h with
    | skip htail =>
      cases htail
      rfl
    | @word _ w _ _ hr hclosed htail =>
      cases htail
      show read .blank r = _
      have hread := read_closed hr hclosed []
      rw [List.append_nil] at hread
      rw [hread]
      show some [w ++ []] = _
      rw [List.append_nil]
  | cons x rest ih =>
    obtain ⟨c, s⟩ := x
    have hc : isBlank c = true := hrest c List.mem_cons_self
    have hrest' : ∀ d ∈ rest.map Prod.fst, isBlank d = true := fun d hd => hrest d (List.mem_cons_of_mem c hd)
    show read .blank (r ++ c :: joined s rest) = _
    cases h with
    | skip htail =>
      rw [List.nil_append, (read_blank hc _).2]
      exact ih hrest' htail
    | @word _ w _ _ hr hclosed htail =>
      rw [read_closed hr hclosed, (read_blank hc _).1, ih hrest' htail]
      show some ((w ++ []) :: _) = _
      rw [List.append_nil]

/-! ### Operators -/

/-- `[\s;|&()]`. -/
def isSeparator (c : Char) : Bool := Lines.isSpace c || decide (c ∈ [';', '|', '&', '(', ')'])

/-- The characters that a shell reads as operators. -/
def isOperator (c : Char) : Bool := decide (c ∈ [';', '|', '&', '(', ')', '<', '>'])

/-- The character is an operator in this mode. -/
def Mode.isOperator (m : Mode) (c : Char) : Bool := decide (m = .blank ∨ m = .word) && ShellWords.isOperator c

/-- The operators are put between blanks. -/
def spaced : Mode → List Char → List Char
  | _, [] => []
  | m, c :: t => if m.isOperator c then ' ' :: c :: ' ' :: spaced .blank t else c :: spaced (m.next c).1 t

/-- The words that a POSIX shell finds; every character of an operator is a word of its own. -/
def words (t : List Char) : Option (List (List Char)) := split (spaced .blank t)

/-- No character is an operator. -/
def solid : Mode → List Char → Bool
  | _, [] => true
  | m, c :: t => !m.isOperator c && solid (m.next c).1 t

theorem solid_append (m : Mode) (r s : List Char) : solid m (r ++ s) = (solid m r && solid (run m r) s) := by
  induction r generalizing m with
  | nil => rfl
  | cons c r ih =>
    rw [List.cons_append, solid, solid, ih, Bool.and_assoc]
    rfl

theorem run_append (m : Mode) (r s : List Char) : run m (r ++ s) = run (run m r) s := List.foldl_append

theorem spaced_append {m : Mode} (h : solid m r = true) (u : List Char) :
    spaced m (r ++ u) = r ++ spaced (run m r) u := by
  induction r generalizing m with
  | nil => rfl
  | cons c r ih =>
    rw [solid, Bool.and_eq_true, Bool.not_eq_true'] at h
    rw [List.cons_append, spaced, if_neg (by rw [h.1]; exact Bool.false_ne_true), ih h.2]
    rfl

theorem isOperator_of_isBlank (h : isBlank c = true) : isOperator c = false := by
  have hc : c = ' ' ∨ c = '\t' ∨ c = '\r' ∨ c = '\n' := of_decide_eq_true h
  rcases hc with rfl | rfl | rfl | rfl <;> decide

/-- An operator means nothing to the reader of words. -/
theorem plain_of_isOperator (h : isOperator c = true) : isBlank c = false ∧ c ≠ '\\' ∧ c ≠ '\'' ∧ c ≠ '"' := by
  have hc : c ∈ [';', '|', '&', '(', ')', '<', '>'] := of_decide_eq_true h
  simp only [List.mem_cons, List.not_mem_nil, or_false] at hc
  rcases hc with rfl | rfl | rfl | rfl | rfl | rfl | rfl <;> decide

theorem spaced_blank {m : Mode} (hm : m = .blank ∨ m = .word) (hc : isBlank c = true) (t : List Char) :
    spaced m (c :: t) = c :: spaced .blank t := by
  have hoperator : m.isOperator c = false := by
    unfold Mode.isOperator
    rw [isOperator_of_isBlank hc, Bool.and_false]
  have hnext : (m.next c).1 = .blank := by
    have houtside : (nextOutside c).1 = .blank := by
      unfold nextOutside
      rw [if_pos hc]
    rcases hm with rfl | rfl
    · exact houtside
    · exact houtside
  rw [spaced, hoperator, if_neg Bool.false_ne_true, hnext]

theorem spaced_operator {m : Mode} (hm : m = .blank ∨ m = .word) (hc : isOperator c = true) (t : List Char) :
    spaced m (c :: t) = ' ' :: c :: ' ' :: spaced .blank t := by
  have hoperator : m.isOperator c = true := by
    unfold Mode.isOperator
    rw [decide_eq_true hm, hc]
    rfl
  rw [spaced, hoperator, if_pos rfl]

theorem words_blank (hc : isBlank c = true) (t : List Char) : words (c :: t) = words t := by
  unfold words split
  rw [spaced_blank (.inl rfl) hc, (read_blank hc _).2]

theorem read_operator (hc : isOperator c = true) (t : List Char) :
    read .blank (' ' :: c :: ' ' :: t) = (read .blank t).map ([c] :: ·) := by
  have hplain := closed_plain (plain_of_isOperator hc)
  have hread := read_closed (List.cons_ne_nil c []) hplain (' ' :: t)
  rw [List.singleton_append, (read_blank (by decide) t).1] at hread
  rw [(read_blank (by decide) _).2, hread, Option.map_map]
  rfl

theorem words_operator (hc : isOperator c = true) (t : List Char) : words (c :: t) = (words t).map ([c] :: ·) := by
  unfold words split
  rw [spaced_operator (.inl rfl) hc, read_operator hc]

/-- The end of a text, or a character that ends a word. -/
def Ended (u : List Char) : Prop := ∀ c ∈ u.head?, isBlank c = true ∨ isOperator c = true

theorem ended_cons (hc : isBlank c = true ∨ isOperator c = true) : Ended (c :: u) := by
  intro d hd
  cases hd
  exact hc

/-- A piece of a command with its words. -/
def Piece (r : List Char) (ws : List (List Char)) : Prop :=
  ∀ u, Ended u → words (r ++ u) = (words u).map (ws ++ ·)

theorem piece_nil : Piece [] [] := by
  intro u _
  show words u = (words u).map id
  rw [Option.map_id, id]

/-- A closed piece without operators. -/
theorem piece_of_closed (hr : r ≠ []) (h : Closed r w) (hsolid : solid .blank r = true) (hrun : run .blank r = .word) :
    Piece r [w] := by
  intro u hu
  have hread : words (r ++ u) = (read .word (spaced .word u)).map (extend w) := by
    unfold words split
    rw [spaced_append hsolid, hrun, read_closed hr h]
  rw [hread]
  cases u with
  | nil =>
    show some [w ++ []] = some [w]
    rw [List.append_nil]
  | cons c u =>
    rcases hu c rfl with hc | hc
    · rw [spaced_blank (.inr rfl) hc, (read_blank hc _).1, words_blank hc, Option.map_map]
      show (words u).map _ = _
      congr 1
      funext ws
      show (w ++ []) :: ws = w :: ws
      rw [List.append_nil]
    · have hblank : isBlank ' ' = true := rfl
      have hrest := read_operator hc (spaced .blank u)
      rw [(read_blank hblank _).2] at hrest
      rw [spaced_operator (.inr rfl) hc, (read_blank hblank _).1, hrest, words_operator hc, Option.map_map, Option.map_map,
        Option.map_map]
      show (words u).map _ = _
      congr 1
      funext ws
      show (w ++ []) :: [c] :: ws = w :: [c] :: ws
      rw [List.append_nil]

/-- The words of the pieces, with the operators between them. -/
inductive PieceWords : List Char → List (Char × List Char) → List (List Char) → Prop
  | last {r : List Char} {ws : List (List Char)} (hpiece : Piece r ws) : PieceWords r [] ws
  | blank {r s : List Char} {c : Char} {rest : List (Char × List Char)} {ws wss : List (List Char)}
      (hpiece : Piece r ws) (hc : isBlank c = true) (hrest : PieceWords s rest wss) :
      PieceWords r ((c, s) :: rest) (ws ++ wss)
  | operator {r s : List Char} {c : Char} {rest : List (Char × List Char)} {ws wss : List (List Char)}
      (hpiece : Piece r ws) (hc : isOperator c = true) (hrest : PieceWords s rest wss) :
      PieceWords r ((c, s) :: rest) (ws ++ [c] :: wss)

/-- The words of a command. -/
theorem words_joined {rest : List (Char × List Char)} {ws : List (List Char)} (h : PieceWords r rest ws) :
    words (joined r rest) = some ws := by
  induction h with
  | @last r ws hpiece =>
    have hread := hpiece [] fun c hc => by cases hc
    rw [List.append_nil] at hread
    show words r = some ws
    rw [hread]
    show some (ws ++ []) = some ws
    rw [List.append_nil]
  | @blank r s c rest ws wss hpiece hc _ ih =>
    show words (r ++ c :: joined s rest) = _
    rw [hpiece _ (ended_cons (.inl hc)), words_blank hc, ih, Option.map_some]
  | @operator r s c rest ws wss hpiece hc _ ih =>
    show words (r ++ c :: joined s rest) = _
    rw [hpiece _ (ended_cons (.inr hc)), words_operator hc, ih, Option.map_some, Option.map_some]

/-- Pieces that become others, whose words are the new words. -/
theorem exists_pieceWords {f g : List Char → List Char} (hoperator : ∀ c, isOperator c = true → f [c] = [c])
    {rest : List (Char × List Char)} (hrest : ∀ c ∈ rest.map Prod.fst, isBlank c = true ∨ isOperator c = true)
    (h : ∀ s ∈ r :: rest.map Prod.snd, ∃ ws, Piece s ws ∧ Piece (g s) (ws.map f)) :
    ∃ ws, PieceWords r rest ws ∧ PieceWords (g r) (rest.map fun x => (x.1, g x.2)) (ws.map f) := by
  induction rest generalizing r with
  | nil =>
    obtain ⟨ws, hbefore, hafter⟩ := h r List.mem_cons_self
    exact ⟨ws, .last hbefore, .last hafter⟩
  | cons x rest ih =>
    obtain ⟨c, s⟩ := x
    obtain ⟨ws, hbefore, hafter⟩ := h r List.mem_cons_self
    obtain ⟨wss, hwords, hwords'⟩ := ih (fun d hd => hrest d (List.mem_cons_of_mem c hd))
      fun s' hs' => h s' (List.mem_cons_of_mem r hs')
    rcases hrest c List.mem_cons_self with hc | hc
    · refine ⟨ws ++ wss, .blank hbefore hc hwords, ?_⟩
      rw [List.map_append]
      exact .blank hafter hc hwords'
    · refine ⟨ws ++ [c] :: wss, .operator hbefore hc hwords, ?_⟩
      rw [List.map_append, List.map_cons (f := f), hoperator c hc]
      exact .operator hafter hc hwords'

/-! ### Quotations have no operators -/

theorem run_cons (m : Mode) (c : Char) (r : List Char) : run m (c :: r) = run (m.next c).1 r := rfl

/-- Inside quotes nothing is an operator. -/
theorem solid_single (h : '\'' ∉ r) : solid .single r = true ∧ run .single r = .single := by
  induction r with
  | nil => exact ⟨rfl, rfl⟩
  | cons c r ih =>
    have hc : c ≠ '\'' := fun heq => h (heq ▸ List.mem_cons_self)
    obtain ⟨hsolid, hrun⟩ := ih fun hmem => h (List.mem_cons_of_mem c hmem)
    have hnext : Mode.single.next c = (.single, [c]) := next_single_of_ne hc
    constructor
    · rw [solid, hnext, hsolid]
      rfl
    · rw [run_cons, hnext, hrun]

theorem solid_escaped (t : List Char) :
    solid .single (t.flatMap fun c => if c = '\'' then ['\'', '"', '\'', '"', '\''] else [c]) = true ∧
      run .single (t.flatMap fun c => if c = '\'' then ['\'', '"', '\'', '"', '\''] else [c]) = .single := by
  induction t with
  | nil => exact ⟨rfl, rfl⟩
  | cons c t ih =>
    rw [List.flatMap_cons, solid_append, run_append]
    split
    · exact ⟨by rw [show run .single ['\'', '"', '\'', '"', '\''] = .single from rfl, ih.1]; rfl, ih.2⟩
    · next hc =>
      obtain ⟨hsolid, hrun⟩ := solid_single (r := [c]) fun hmem => hc (List.mem_singleton.mp hmem).symm
      rw [hsolid, hrun, ih.1, ih.2]
      exact ⟨rfl, rfl⟩

theorem isOperator_of_isSafe (h : isSafe c = true) : isOperator c = false := by
  by_contra hoperator
  rw [Bool.not_eq_false] at hoperator
  have hc : c ∈ [';', '|', '&', '(', ')', '<', '>'] := of_decide_eq_true hoperator
  simp only [List.mem_cons, List.not_mem_nil, or_false] at hc
  rcases hc with rfl | rfl | rfl | rfl | rfl | rfl | rfl <;> exact absurd h (by decide)

theorem solid_safe (h : ∀ c ∈ r, isSafe c = true) : solid .word r = true := by
  induction r with
  | nil => rfl
  | cons c r ih =>
    have hc := h c List.mem_cons_self
    have hnext : Mode.word.next c = (.word, [c]) := nextOutside_plain (isBlank_of_isSafe hc)
    have hoperator : Mode.word.isOperator c = false := by
      unfold Mode.isOperator
      rw [isOperator_of_isSafe hc, Bool.and_false]
    rw [solid, hnext, hoperator, ih fun d hd => h d (List.mem_cons_of_mem c hd)]
    rfl

/-- Inside a word, a quoted text has no operators and leaves the reader in the word. -/
theorem solid_quote (t : List Char) : solid .word (quote t) = true ∧ run .word (quote t) = .word := by
  unfold quote
  split
  · exact ⟨rfl, rfl⟩
  split
  · next h => exact ⟨solid_safe (List.all_eq_true.mp h), run_safe (List.all_eq_true.mp h)⟩
  · obtain ⟨hsolid, hrun⟩ := solid_escaped t
    have hopen : Mode.word.next '\'' = (.single, []) := rfl
    have hfirst : Mode.word.isOperator '\'' = false := rfl
    rw [List.cons_append, solid, run_cons, hopen, hfirst, solid_append, run_append, hsolid, hrun]
    exact ⟨rfl, rfl⟩

end ShellWords
