import Mathlib.Data.List.Basic
import Mathlib.Data.List.Infix
import Mathlib.Tactic.Cases
import Mathlib.Tactic.SplitIfs

/-!
# Replacing in a text

Every occurrence of a word is replaced, from the left, and the next one is sought behind it; what follows an
occurrence may be restricted.

* `occurs`, `sub`, `replace`: an occurrence at the beginning, `re.sub` with a lookahead, and `str.replace`;
* `sub_of_free`, `sub_append_left`, `sub_append_of_not`, `sub_append_cons`: texts without the word, at the word, in
  front of it, and in parts;
* `replaceAll`: several words, one after the other;
* `Part`, `AllOnly`, `replaceAll_joined`: a text in parts, in which the words occur nowhere but at their places.
-/

namespace Replace

variable {α : Type*} [DecidableEq α]

section Definitions

variable (old new : List α) (ahead : Option α → Bool)

/-- The word stands at the beginning, and what follows is as it should be. -/
def occurs (t : List α) : Bool := decide (old <+: t) && ahead (t.drop old.length).head?

/-- The first `k` characters belong to an occurrence. -/
def sub : ℕ → List α → List α
  | _, [] => []
  | k + 1, _ :: t => sub k t
  | 0, c :: t => if occurs old ahead (c :: t) then new ++ sub (old.length - 1) t else c :: sub 0 t

/-- `t.replace(old, new)`. -/
def replace (t : List α) : List α := sub old new (fun _ => true) 0 t

/-- The word occurs nowhere. -/
def Free (t : List α) : Prop := ∀ v, v <:+ t → v ≠ [] → occurs old ahead v = false

end Definitions

variable {old new t u v : List α} {ahead : Option α → Bool} {c : α}

theorem sub_skip (k : ℕ) (t : List α) : sub old new ahead k t = sub old new ahead 0 (t.drop k) := by
  induction k generalizing t with
  | zero => rfl
  | succ k ih =>
    cases t with
    | nil => rfl
    | cons c t => exact ih t

theorem sub_cons_of_not (h : occurs old ahead (c :: t) = false) :
    sub old new ahead 0 (c :: t) = c :: sub old new ahead 0 t := by
  rw [sub, if_neg (by rw [h]; exact Bool.false_ne_true)]

theorem sub_of_occurs (hold : old ≠ []) (h : occurs old ahead t = true) :
    sub old new ahead 0 t = new ++ sub old new ahead 0 (t.drop old.length) := by
  cases t with
  | nil =>
    unfold occurs at h
    rw [Bool.and_eq_true, decide_eq_true_eq] at h
    exact absurd (List.prefix_nil.mp h.1) hold
  | cons c t =>
    obtain ⟨a, o, rfl⟩ := List.exists_cons_of_ne_nil hold
    rw [sub, if_pos h, sub_skip]
    rfl

/-- An occurrence, and what follows it. -/
theorem occurs_start (h : occurs old ahead t = true) : ∃ v, t = old ++ v ∧ ahead v.head? = true := by
  unfold occurs at h
  rw [Bool.and_eq_true, decide_eq_true_eq] at h
  obtain ⟨⟨v, rfl⟩, hv⟩ := h
  rw [List.drop_left] at hv
  exact ⟨v, rfl, hv⟩

/-- Where no occurrence begins, the text stays. -/
theorem sub_append_of_not (h : ∀ v s, t = v ++ s → s ≠ [] → occurs old ahead (s ++ u) = false) :
    sub old new ahead 0 (t ++ u) = t ++ sub old new ahead 0 u := by
  induction t with
  | nil => rfl
  | cons c t ih =>
    have hnot : occurs old ahead (c :: (t ++ u)) = false := h [] (c :: t) rfl (List.cons_ne_nil c t)
    rw [List.cons_append, sub_cons_of_not hnot, ih, List.cons_append]
    intro v s hv hs
    exact h (c :: v) s (by rw [hv, List.cons_append]) hs

theorem Free.tail (h : Free old ahead (c :: t)) : Free old ahead t :=
  fun v hv hne => h v (hv.trans (List.suffix_cons c t)) hne

theorem Free.suffix (h : Free old ahead t) (hu : u <:+ t) : Free old ahead u := fun v hv hne => h v (hv.trans hu) hne

/-- A text without the word stays as it is. -/
theorem sub_of_free (h : Free old ahead t) : sub old new ahead 0 t = t := by
  induction t with
  | nil => rfl
  | cons c t ih => rw [sub_cons_of_not (h _ List.suffix_rfl (List.cons_ne_nil c t)), ih h.tail]

theorem occurs_append (h : ahead u.head? = true) : occurs old ahead (old ++ u) = true := by
  unfold occurs
  rw [List.drop_left, h, decide_eq_true (List.prefix_append old u)]
  rfl

/-- At the word. -/
theorem sub_append_left (hold : old ≠ []) (h : ahead u.head? = true) :
    sub old new ahead 0 (old ++ u) = new ++ sub old new ahead 0 u := by
  rw [sub_of_occurs hold (occurs_append h), List.drop_left]

/-- An occurrence does not go beyond a character that the word does not have. -/
theorem occurs_append_cons (hc : c ∉ old) (hahead : ahead (some c) = ahead none) (u : List α) :
    occurs old ahead (t ++ c :: u) = occurs old ahead t := by
  by_cases hstart : old <+: t
  · obtain ⟨v, rfl⟩ := hstart
    unfold occurs
    rw [List.append_assoc, List.drop_left, List.drop_left, decide_eq_true (List.prefix_append old v),
      decide_eq_true (List.prefix_append old _)]
    cases v with
    | nil => exact congrArg (true && ·) hahead
    | cons d v => rfl
  · have hnot : ¬ old <+: t ++ c :: u := by
      intro h
      rcases List.prefix_or_prefix_of_prefix h (List.prefix_append t (c :: u)) with h' | ⟨w, rfl⟩
      · exact hstart h'
      · rw [List.prefix_append_right_inj] at h
        cases w with
        | nil => exact hstart (by rw [List.append_nil])
        | cons d w =>
          have hd : d = c := (List.cons_prefix_cons.mp h).1
          exact hc (hd ▸ List.mem_append_right t List.mem_cons_self)
    unfold occurs
    rw [decide_eq_false hstart, decide_eq_false hnot, Bool.false_and, Bool.false_and]

/-- The parts of a text at a character that the word does not have. -/
theorem sub_append_cons (hold : old ≠ []) (hc : c ∉ old) (hahead : ahead (some c) = ahead none) (t u : List α) :
    sub old new ahead 0 (t ++ c :: u) = sub old new ahead 0 t ++ c :: sub old new ahead 0 u := by
  induction hlength : t.length using Nat.strong_induction_on generalizing t with
  | _ n ih =>
    subst hlength
    by_cases hoccurs : occurs old ahead t = true
    · have hstart : old <+: t := by
        unfold occurs at hoccurs
        rw [Bool.and_eq_true, decide_eq_true_eq] at hoccurs
        exact hoccurs.1
      obtain ⟨v, rfl⟩ := hstart
      have hlt : v.length < (old ++ v).length := by
        have hpos := List.length_pos_of_ne_nil hold
        rw [List.length_append]
        omega
      have hoccurs' := (occurs_append_cons hc hahead u).trans hoccurs
      rw [sub_of_occurs hold hoccurs', sub_of_occurs hold hoccurs, List.append_assoc, List.drop_left, List.drop_left,
        ih _ hlt v rfl, List.append_assoc]
    · rw [Bool.not_eq_true] at hoccurs
      cases t with
      | nil =>
        have hnot : occurs old ahead (c :: u) = false := (occurs_append_cons hc hahead u).trans hoccurs
        exact sub_cons_of_not hnot
      | cons d t =>
        have hoccurs' := (occurs_append_cons hc hahead u).trans hoccurs
        rw [sub_cons_of_not hoccurs, List.cons_append, sub_cons_of_not (by exact hoccurs'),
          ih t.length (Nat.lt_succ_self _) t rfl]
        rfl

/-! ### Without a lookahead -/

theorem free_iff (hold : old ≠ []) : Free old (fun _ => true) t ↔ ¬ old <:+: t := by
  constructor
  · rintro h ⟨u, v, rfl⟩
    have hoccurs := h (old ++ v) ⟨u, by rw [List.append_assoc]⟩ (List.append_ne_nil_of_left_ne_nil hold v)
    rw [occurs_append rfl] at hoccurs
    exact nomatch hoccurs
  · intro h v hv _
    unfold occurs
    rw [Bool.and_true, decide_eq_false_iff_not]
    intro hstart
    exact h (hstart.isInfix.trans hv.isInfix)

theorem replace_of_absent (hold : old ≠ []) (h : ¬ old <:+: t) : replace old new t = t :=
  sub_of_free ((free_iff hold).mpr h)

theorem replace_append_left (hold : old ≠ []) (u : List α) : replace old new (old ++ u) = new ++ replace old new u :=
  sub_append_left hold rfl

theorem replace_append_cons (hold : old ≠ []) (hc : c ∉ old) (t u : List α) :
    replace old new (t ++ c :: u) = replace old new t ++ c :: replace old new u := sub_append_cons hold hc rfl t u

/-! ### Several words -/

/-- One word after the other is replaced. -/
def replaceAll (words : List (List α × List α)) (t : List α) : List α := words.foldl (fun t m => replace m.1 m.2 t) t

variable {words : List (List α × List α)}

theorem replaceAll_append (words words' : List (List α × List α)) (t : List α) :
    replaceAll (words ++ words') t = replaceAll words' (replaceAll words t) := List.foldl_append

/-- A text without the words stays as it is. -/
theorem replaceAll_of_absent (hwords : ∀ m ∈ words, m.1 ≠ []) (h : ∀ m ∈ words, ¬ m.1 <:+: t) :
    replaceAll words t = t := by
  induction words with
  | nil => rfl
  | cons m words ih =>
    show replaceAll words (replace m.1 m.2 t) = t
    rw [replace_of_absent (hwords m List.mem_cons_self) (h m List.mem_cons_self)]
    exact ih (fun m' hm' => hwords m' (List.mem_cons_of_mem m hm')) fun m' hm' => h m' (List.mem_cons_of_mem m hm')

/-- A text that starts with one of the words: the words before it do not occur in the text, and none occurs in
what it becomes. -/
theorem replaceAll_of_head {m : List α × List α} {words' : List (List α × List α)}
    (hwords : ∀ m' ∈ words ++ m :: words', m'.1 ≠ []) (hbefore : ∀ m' ∈ words, ¬ m'.1 <:+: m.1 ++ u)
    (hafter : ∀ m' ∈ m :: words', ¬ m'.1 <:+: m.2 ++ u) :
    replaceAll (words ++ m :: words') (m.1 ++ u) = m.2 ++ u := by
  have hm := hwords m (List.mem_append_right words List.mem_cons_self)
  have hrest : ¬ m.1 <:+: u := fun h => hafter m List.mem_cons_self (h.trans (List.suffix_append m.2 u).isInfix)
  rw [replaceAll_append, replaceAll_of_absent (fun m' hm' => hwords m' (List.mem_append_left _ hm')) hbefore]
  show replaceAll words' (replace m.1 m.2 (m.1 ++ u)) = m.2 ++ u
  rw [replace_append_left hm, replace_of_absent hm hrest]
  exact replaceAll_of_absent
    (fun m' hm' => hwords m' (List.mem_append_right words (List.mem_cons_of_mem m hm')))
    fun m' hm' => hafter m' (List.mem_cons_of_mem m hm')

/-- The parts of a text at a character that the words do not have. -/
theorem replaceAll_append_cons (hwords : ∀ m ∈ words, m.1 ≠ []) (hc : ∀ m ∈ words, c ∉ m.1) (t u : List α) :
    replaceAll words (t ++ c :: u) = replaceAll words t ++ c :: replaceAll words u := by
  induction words generalizing t u with
  | nil => rfl
  | cons m words ih =>
    show replaceAll words (replace m.1 m.2 (t ++ c :: u)) = _
    rw [replace_append_cons (hwords m List.mem_cons_self) (hc m List.mem_cons_self)]
    exact ih (fun m' hm' => hwords m' (List.mem_cons_of_mem m hm')) (fun m' hm' => hc m' (List.mem_cons_of_mem m hm'))
      _ _

/-! ### A text in parts -/

/-- A part of a text: one that stays, or a word that is to be replaced, with what follows it. -/
inductive Part (α : Type*)
  | kept (t : List α)
  | moving (w : List α × List α) (tail : List α)

namespace Part

def text : Part α → List α
  | kept t => t
  | moving w tail => w.1 ++ tail

/-- What the part should become. -/
def final : Part α → List α
  | kept t => t
  | moving w tail => w.2 ++ tail

/-- What the replacement of one word should make of it. -/
def turned (w : List α × List α) : Part α → Part α
  | kept t => kept t
  | moving w' tail => if w' = w then kept (w.2 ++ tail) else moving w' tail

end Part

def joined (xs : List (Part α)) : List α := xs.flatMap Part.text

/-- In front of `u`, no occurrence begins in the text. -/
def Clear (old : List α) : List α → List α → Prop
  | [], _ => True
  | c :: t, u => ¬ old <+: c :: (t ++ u) ∧ Clear old t u

/-- In front of `u`, no occurrence begins in the part but at its place. -/
def Part.Only (w : List α × List α) (u : List α) : Part α → Prop
  | .kept t => Clear w.1 t u
  | .moving w' tail => if w' = w then Clear w.1 tail u else Clear w.1 (w'.1 ++ tail) u

/-- The word occurs nowhere but at its places. -/
def OnlyParts (w : List α × List α) : List (Part α) → Prop
  | [] => True
  | x :: xs => x.Only w (joined xs) ∧ OnlyParts w xs

/-- So does every word, in what those before it have left. -/
def AllOnly : List (List α × List α) → List (Part α) → Prop
  | [], _ => True
  | w :: ws, xs => OnlyParts w xs ∧ AllOnly ws (xs.map (Part.turned w))

instance decidableClear (old : List α) : ∀ t u, Decidable (Clear old t u)
  | [], _ => inferInstanceAs (Decidable True)
  | _ :: t, u => @instDecidableAnd _ _ inferInstance (decidableClear old t u)

instance decidableOnly (w : List α × List α) (u : List α) : ∀ x : Part α, Decidable (x.Only w u)
  | .kept t => decidableClear w.1 t u
  | .moving w' _ => inferInstanceAs (Decidable (if w' = w then _ else _))

instance decidableOnlyParts (w : List α × List α) : ∀ xs, Decidable (OnlyParts w xs)
  | [] => inferInstanceAs (Decidable True)
  | x :: xs => @instDecidableAnd _ _ (decidableOnly w _ x) (decidableOnlyParts w xs)

instance decidableAllOnly : ∀ (ws : List (List α × List α)) xs, Decidable (AllOnly ws xs)
  | [], _ => inferInstanceAs (Decidable True)
  | w :: ws, xs => @instDecidableAnd _ _ (decidableOnlyParts w xs) (decidableAllOnly ws _)

variable {w : List α × List α} {x : Part α} {xs : List (Part α)}

theorem replace_append_of_clear (h : Clear old t u) : replace old new (t ++ u) = t ++ replace old new u := by
  induction t with
  | nil => rfl
  | cons c t ih =>
    have hnot : occurs old (fun _ => true) (c :: (t ++ u)) = false := by
      unfold occurs
      rw [Bool.and_true, decide_eq_false h.1]
    show sub old new (fun _ => true) 0 (c :: (t ++ u)) = c :: (t ++ replace old new u)
    rw [sub_cons_of_not hnot]
    exact congrArg (List.cons c) (ih h.2)

theorem Part.replace_text (hw : w.1 ≠ []) (h : x.Only w u) :
    replace w.1 w.2 (x.text ++ u) = (x.turned w).text ++ replace w.1 w.2 u := by
  cases x with
  | kept t => exact replace_append_of_clear h
  | moving w' tail =>
    dsimp only [Part.Only] at h
    dsimp only [Part.text, Part.turned]
    by_cases heq : w' = w
    · subst heq
      rw [if_pos rfl] at h
      rw [if_pos rfl, List.append_assoc, replace_append_left hw, replace_append_of_clear h, ← List.append_assoc]
    · rw [if_neg heq] at h
      rw [if_neg heq]
      exact replace_append_of_clear h

/-- The replacement of one word goes over the parts. -/
theorem replace_joined (hw : w.1 ≠ []) (h : OnlyParts w xs) :
    replace w.1 w.2 (joined xs) = joined (xs.map (Part.turned w)) := by
  induction xs with
  | nil => rfl
  | cons x xs ih =>
    unfold joined
    rw [List.map_cons, List.flatMap_cons, List.flatMap_cons]
    exact (Part.replace_text hw h.1).trans (congrArg _ (ih h.2))

theorem Part.final_turned (w : List α × List α) (x : Part α) : (x.turned w).final = x.final := by
  cases x with
  | kept t => rfl
  | moving w' tail =>
    dsimp only [Part.turned]
    split
    · next heq =>
      rw [heq]
      rfl
    · rfl

/-- Every part gets what it should become. -/
theorem replaceAll_joined (hwords : ∀ w ∈ words, w.1 ≠ []) (h : AllOnly words xs)
    (hdue : ∀ w tail, .moving w tail ∈ xs → w ∈ words) : replaceAll words (joined xs) = xs.flatMap Part.final := by
  induction words generalizing xs with
  | nil =>
    unfold joined
    refine List.flatMap_congr fun x hx => ?_
    cases x with
    | kept t => rfl
    | moving w tail => exact absurd (hdue w tail hx) List.not_mem_nil
  | cons w words ih =>
    -- the other words find what this one leaves
    show replaceAll words (replace w.1 w.2 (joined xs)) = xs.flatMap Part.final
    rw [replace_joined (hwords w List.mem_cons_self) h.1,
      ih (fun w' hw' => hwords w' (List.mem_cons_of_mem w hw')) h.2, List.flatMap_map]
    · exact List.flatMap_congr fun x _ => x.final_turned w
    · intro w' tail hmem
      obtain ⟨x, hx, hturned⟩ := List.mem_map.mp hmem
      cases x with
      | kept t => cases hturned
      | moving w'' tail' =>
        dsimp only [Part.turned] at hturned
        split at hturned
        · cases hturned
        · next hne =>
          cases hturned
          exact (List.mem_cons.mp (hdue _ _ hx)).resolve_left hne

end Replace
