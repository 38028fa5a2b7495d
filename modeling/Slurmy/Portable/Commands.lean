import Slurmy.Lib.Dict
import Slurmy.Lib.Replace
import Slurmy.Lib.ShellCommand
import Slurmy.Lib.StableSort
import Slurmy.Text

/-!
# Paths in commands

`command_paths` of `portable.py` replaces the paths in the commands of a bundle, by way of placeholders.

* `Pass`, `matchAt`, `applyPass`, `commandPaths`: the passes over a command, and the placeholders at the end;
* `isBelow`, `relocateWord`: where a word should lead;
* `Part`, `AllOnly`, `Relocatable`: the commands in which the passes match nothing but the paths;
* `commandPaths_words`: these commands come out right.
-/

namespace Slurmy
namespace Portable
namespace Commands

open StableSort
open Scan (joined Quiet Becomes BecomeAll okAfter)
open ShellWords (isBlank isSeparator quote split Closed Reads)

/-! ### The passes -/

/-- One pass: a path in the spelling with the quotation marks, or without. -/
structure Pass where
  mark : Option Char
  old : Text
  new : Text
  deriving DecidableEq

/-- The characters of a path behind the directory. -/
def isInside (mark : Option Char) (c : Char) : Bool :=
  match mark with
  | some q => decide (c ≠ q ∧ c ≠ '\n')
  | none => !isSeparator c && decide (c ≠ '\'' ∧ c ≠ '"' ∧ c ≠ '\n')

/-- The quotation mark and the directory. -/
def Pass.opening (p : Pass) : Text := p.mark.toList ++ p.old

/-- The pattern at the beginning of a text: what is behind the directory, and the length of the match. The longest
suffix is the only one, since the quotation mark or the separator behind it is no character of a suffix. -/
def matchAt (p : Pass) (t : Text) : Option (Text × ℕ) :=
  if p.opening <+: t then
    let rest := t.drop p.opening.length
    let suffix := if rest.head? = some '/' then rest.takeWhile (isInside p.mark) else []
    let behind := rest.drop suffix.length
    if p.mark.toList <+: behind ∧ (behind.drop p.mark.toList.length).head?.all isSeparator = true then
      some (suffix, p.opening.length + suffix.length + p.mark.toList.length)
    else none
  else none

/-- The `n`-th placeholder. -/
def token (n : ℕ) : Text := Char.ofNat 0 :: ("portable".toList ++ decimal n ++ [Char.ofNat 0])

/-- A pass over the command, with the replacements that have been found so far. -/
def applyPass (s : Text × List Text) (p : Pass) : Text × List Text :=
  let found := Scan.scan isSeparator (matchAt p) token s.2.length 0 true s.1
  (found.1, s.2 ++ found.2.map fun suffix => quote (p.new ++ suffix))

/-- The mapping, the longest directories first. -/
def sorted (mapping : List (Text × Text)) : List (Text × Text) :=
  sortBy (fun m => OrderDual.toDual m.1.length) mapping

/-- The spellings of a directory. -/
def spellings (m : Text × Text) : List Pass := [some '\'', some '"', none].map fun mark => ⟨mark, m.1, m.2⟩

/-- The loop over the mapping. -/
def relocateAll (mapping : List (Text × Text)) (command : Text) : Text × List Text :=
  (sorted mapping).foldl (fun s m => if m.1 <:+: s.1 then (spellings m).foldl applyPass s else s) (command, [])

/-- The placeholders and what they stand for. -/
def placeholders (replacements : List Text) : List (Text × Text) :=
  replacements.zipIdx.map fun r => (token r.2, r.1)

/-- `command_paths`. -/
def commandPaths (mapping : List (Text × Text)) (command : Text) : Text :=
  let s := relocateAll mapping command
  Replace.replaceAll (placeholders s.2) s.1

/-! ### What is wanted -/

/-- The word is the directory, or a path below it. -/
def isBelow (old word : Text) : Bool := decide (word = old ∨ old ++ ['/'] <+: word)

/-- The word below the longest directory of the mapping that it is in. -/
def relocateWord (mapping : List (Text × Text)) (word : Text) : Text :=
  match (sorted mapping).find? fun m => isBelow m.1 word with
  | some m => m.2 ++ word.drop m.1.length
  | none => word

/-! ### The commands that the passes get right -/

/-- The passes in their order. -/
def passes (mapping : List (Text × Text)) : List Pass := (sorted mapping).flatMap spellings

/-- A part of a command between blanks. -/
inductive Part
  | plain (r : Text)
  /-- It begins with a path in the spelling of a pass; `tail` follows it. -/
  | written (p : Pass) (suffix tail : Text)
  /-- It begins with a placeholder for `text`. -/
  | placed (k : ℕ) (text tail : Text)

namespace Part

/-- A path in the spelling of a pass. -/
def front (p : Pass) (suffix : Text) : Text := p.mark.toList ++ p.old ++ suffix ++ p.mark.toList

def text : Part → Text
  | plain r => r
  | written p suffix tail => front p suffix ++ tail
  | placed k _ tail => token k ++ tail

/-- What a pass should make of a part, when `n` placeholders are in use. -/
def turned (p : Pass) (n : ℕ) : Part → Part
  | plain r => plain r
  | written q suffix tail => if q = p then placed n (quote (p.new ++ suffix)) tail else written q suffix tail
  | placed k text tail => placed k text tail

/-- What it should capture there. -/
def captured (p : Pass) : Part → List Text
  | written q suffix _ => if q = p then [suffix] else []
  | _ => []

/-- In front of `u`, no match of the pass begins in a part but at the path that is written for it. -/
def Only (p : Pass) (u : Text) : Part → Prop
  | plain r => Quiet isSeparator (matchAt p) true r u
  | written q suffix tail =>
      if q = p then
        matchAt p (front q suffix ++ (tail ++ u)) = some (suffix, (front q suffix).length) ∧
          Quiet isSeparator (matchAt p) (okAfter isSeparator true (front q suffix)) tail u
      else Quiet isSeparator (matchAt p) true (front q suffix ++ tail) u
  | placed k _ tail => Quiet isSeparator (matchAt p) true (token k ++ tail) u

/-- What the part should become in the end. -/
def final : Part → Text
  | plain r => r
  | written p suffix tail => quote (p.new ++ suffix) ++ tail
  | placed _ text tail => text ++ tail

end Part

/-- The texts of parts behind blanks. -/
def texts (rest : List (Char × Part)) : List (Char × Text) := rest.map fun y => (y.1, y.2.text)

def finals (rest : List (Char × Part)) : List (Char × Text) := rest.map fun y => (y.1, y.2.final)

/-- What a pass should make of parts behind blanks. -/
def turnedRest (p : Pass) : ℕ → List (Char × Part) → List (Char × Part)
  | _, [] => []
  | n, (c, y) :: rest => (c, y.turned p n) :: turnedRest p (n + (y.captured p).length) rest

/-- What it should capture in all parts. -/
def capturedAll (p : Pass) (x : Part) (rest : List (Char × Part)) : List Text :=
  x.captured p ++ rest.flatMap fun y => y.2.captured p

/-- In a pass, no match begins but at the paths that are written for it. -/
def OnlyParts (p : Pass) : Part → List (Char × Part) → Prop
  | x, [] => x.Only p []
  | x, (c, y) :: rest => x.Only p (c :: joined y.text (texts rest)) ∧ OnlyParts p y rest

/-- In every pass, over what the passes before it have left. -/
def AllOnly : List Pass → ℕ → Part → List (Char × Part) → Prop
  | [], _, _, _ => True
  | p :: ps, n, x, rest => OnlyParts p x rest ∧
      AllOnly ps (n + (capturedAll p x rest).length) (x.turned p n) (turnedRest p (n + (x.captured p).length) rest)

/-- A part that leads where it should: a word that is relocated to itself, or the path that the shell reads, under the
directory that counts for the word. -/
def Understood (mapping : List (Text × Text)) : Part → Prop
  | .plain r => r = [] ∨ ∃ w, Closed r w ∧ relocateWord mapping w = w
  | .written p suffix tail => p ∈ passes mapping ∧ Closed (Part.front p suffix) (p.old ++ suffix) ∧
      ∃ rest, Closed tail rest ∧ relocateWord mapping (p.old ++ suffix ++ rest) = p.new ++ suffix ++ rest
  | .placed _ _ _ => False

/-- Parts between blanks. -/
def Relocatable (mapping : List (Text × Text)) (command : Text) : Prop :=
  ∃ x rest, command = joined x.text (texts rest) ∧ (∀ c ∈ rest.map Prod.fst, isBlank c = true) ∧
    AllOnly (passes mapping) 0 x rest ∧ ∀ y ∈ x :: rest.map Prod.snd, Understood mapping y

instance decidableOnly (p : Pass) (u : Text) : ∀ x : Part, Decidable (x.Only p u)
  | .plain r => inferInstanceAs (Decidable (Quiet isSeparator (matchAt p) true r u))
  | .written q _ _ => inferInstanceAs (Decidable (if q = p then _ ∧ _ else _))
  | .placed k _ tail => inferInstanceAs (Decidable (Quiet isSeparator (matchAt p) true (token k ++ tail) u))

instance decidableOnlyParts (p : Pass) : ∀ x rest, Decidable (OnlyParts p x rest)
  | x, [] => decidableOnly p [] x
  | x, (_, y) :: rest => @instDecidableAnd _ _ (decidableOnly p _ x) (decidableOnlyParts p y rest)

instance decidableAllOnly : ∀ ps n x rest, Decidable (AllOnly ps n x rest)
  | [], _, _, _ => inferInstanceAs (Decidable True)
  | p :: ps, _, x, rest => @instDecidableAnd _ _ (decidableOnlyParts p x rest) (decidableAllOnly ps _ _ _)

/-! ### One pass -/

/-- A spelling of an absolute path. -/
structure IsPass (p : Pass) : Prop where
  mark : p.mark ∈ [some '\'', some '"', none]
  absolute : p.old.head? = some '/'

variable {p : Pass} {r t u : Text} {c : Char} {mapping : List (Text × Text)}

theorem mem_passes : p ∈ passes mapping ↔ p.mark ∈ [some '\'', some '"', none] ∧ (p.old, p.new) ∈ mapping := by
  unfold passes spellings sorted
  rw [List.mem_flatMap]
  constructor
  · rintro ⟨m, hm, hp⟩
    obtain ⟨mark, hmark, rfl⟩ := List.mem_map.mp hp
    exact ⟨hmark, mem_sortBy.mp hm⟩
  · rintro ⟨hmark, hm⟩
    exact ⟨_, mem_sortBy.mpr hm, List.mem_map.mpr ⟨_, hmark, rfl⟩⟩

/-- What a match begins with. -/
theorem IsPass.head_opening (hp : IsPass p) : ∃ d o, p.opening = d :: o ∧ (d = '\'' ∨ d = '"' ∨ d = '/') := by
  obtain ⟨hmark, habsolute⟩ := hp
  obtain ⟨mark, old, new⟩ := p
  obtain ⟨o, rfl⟩ := List.head?_eq_some_iff.mp habsolute
  simp only [List.mem_cons, List.not_mem_nil, or_false] at hmark
  unfold Pass.opening
  rcases hmark with rfl | rfl | rfl
  · exact ⟨_, _, rfl, .inl rfl⟩
  · exact ⟨_, _, rfl, .inr (.inl rfl)⟩
  · exact ⟨_, _, rfl, .inr (.inr rfl)⟩

theorem matchAt_of_head (hp : IsPass p) (hc : c ≠ '\'' ∧ c ≠ '"' ∧ c ≠ '/') (t : Text) : matchAt p (c :: t) = none := by
  obtain ⟨d, o, hopening, hd⟩ := hp.head_opening
  unfold matchAt
  rw [if_neg]
  rw [hopening]
  intro h
  have hdc := (List.cons_prefix_cons.mp h).1
  rcases hd with rfl | rfl | rfl
  · exact hc.1 hdc.symm
  · exact hc.2.1 hdc.symm
  · exact hc.2.2 hdc.symm

/-- Where the directory does not occur, nothing matches. -/
theorem matchAt_of_absent (h : ¬ p.old <:+: t) {v : Text} (hv : v <:+ t) : matchAt p v = none := by
  unfold matchAt
  rw [if_neg]
  intro hopening
  have hold : p.old <:+: p.opening := (List.suffix_append _ _).isInfix
  exact h (hold.trans (hopening.isInfix.trans hv.isInfix))

theorem applyPass_of_absent {s : Text × List Text} (h : ¬ p.old <:+: s.1) : applyPass s p = s := by
  unfold applyPass
  rw [Scan.scan_of_none fun v hv => matchAt_of_absent h hv]
  dsimp only
  rw [List.map_nil, List.append_nil]

theorem spellings_of_absent {m : Text × Text} {s : Text × List Text} (h : ¬ m.1 <:+: s.1) :
    (spellings m).foldl applyPass s = s := by
  have hpass (mark : Option Char) : applyPass s ⟨mark, m.1, m.2⟩ = s := applyPass_of_absent h
  show applyPass (applyPass (applyPass s ⟨some '\'', m.1, m.2⟩) ⟨some '"', m.1, m.2⟩) ⟨none, m.1, m.2⟩ = s
  rw [hpass, hpass, hpass]

/-- The test that the directory occurs makes no difference. -/
theorem relocateAll_eq (mapping : List (Text × Text)) (command : Text) :
    relocateAll mapping command = (passes mapping).foldl applyPass (command, []) := by
  unfold relocateAll passes
  rw [List.foldl_flatMap]
  congr 1
  funext s m
  split
  · rfl
  · next h => exact (spellings_of_absent h).symm

theorem isSeparator_of_isBlank (h : isBlank c = true) : isSeparator c = true := by
  have hc : c = ' ' ∨ c = '\t' ∨ c = '\r' ∨ c = '\n' := of_decide_eq_true h
  rcases hc with rfl | rfl | rfl | rfl <;> decide

/-! ### Placeholders -/

theorem token_eq (n : ℕ) : token n = Char.ofNat 0 :: ("portable".toList ++ decimal n ++ [Char.ofNat 0]) := rfl

/-- The characters of a placeholder. -/
theorem mem_token {n : ℕ} (h : c ∈ token n) :
    c = Char.ofNat 0 ∨ c ∈ "portable".toList ∨ c.isDigit = true := by
  rw [token_eq, List.mem_cons, List.mem_append, List.mem_append, List.mem_singleton] at h
  rcases h with h | (h | h) | h
  · exact .inl h
  · exact .inr (.inl h)
  · exact .inr (.inr (isDigit_of_mem_decimal h))
  · exact .inl h

theorem ne_of_mem_token {n : ℕ} {d : Char} (hnul : d ≠ Char.ofNat 0) (hportable : d ∉ "portable".toList)
    (hdigit : d.isDigit = false) : d ∉ token n := by
  intro h
  rcases mem_token h with h | h | h
  · exact hnul h
  · exact hportable h
  · rw [hdigit] at h
    cases h

theorem not_mem_token_of_isBlank {n : ℕ} (h : isBlank c = true) : c ∉ token n := by
  have hc : c = ' ' ∨ c = '\t' ∨ c = '\r' ∨ c = '\n' := of_decide_eq_true h
  rcases hc with rfl | rfl | rfl | rfl <;> exact ne_of_mem_token (by decide) (by decide) (by decide)

theorem eq_of_token {i k : ℕ} {tail : Text} (htail : Char.ofNat 0 ∉ tail) (h : token i <:+: token k ++ tail) : i = k := by
  obtain ⟨a, b, hab⟩ := h
  have hinner (n : ℕ) : Char.ofNat 0 ∉ "portable".toList ++ decimal n := by
    intro hmem
    rcases List.mem_append.mp hmem with hmem | hmem
    · exact absurd hmem (by decide)
    · have hdigit := isDigit_of_mem_decimal hmem
      exact absurd hdigit (by decide)
  have hcount (n : ℕ) : (token n).count (Char.ofNat 0) = 2 := by
    rw [token_eq, List.count_cons_self, List.count_append, List.count_eq_zero_of_not_mem (hinner n)]
    rfl
  -- both have two NULs, and so there is none in front
  have hnul : a.count (Char.ofNat 0) = 0 := by
    have heq := congrArg (List.count (Char.ofNat 0)) hab
    rw [List.count_append, List.count_append, List.count_append, hcount, hcount,
      List.count_eq_zero_of_not_mem htail] at heq
    omega
  have ha : a = [] := by
    cases a with
    | nil => rfl
    | cons c a =>
      have hc : c = Char.ofNat 0 := (List.cons.inj hab).1
      rw [hc, List.count_cons_self] at hnul
      cases hnul
  rw [ha, List.nil_append, token_eq, token_eq, List.cons_append, List.cons_append, List.append_assoc,
    List.append_assoc _ [Char.ofNat 0]] at hab
  have hbefore := congrArg (before (Char.ofNat 0)) (List.cons.inj hab).2
  rw [List.singleton_append, List.singleton_append, before_append (hinner i), before_append (hinner k)] at hbefore
  exact decimal_injective (List.append_cancel_left hbefore)

/-! ### A pass over the parts -/

variable {x y : Part} {rest : List (Char × Part)} {n : ℕ} {left : List Pass} {replacements replacements' : List Text}

/-- A part in a pass, in front of the text that follows it. -/
theorem becomes_turned (hp : IsPass p) (h : x.Only p u) (n : ℕ) :
    Becomes isSeparator (matchAt p) token n x.text u (x.turned p n).text (x.captured p) := by
  cases x with
  | plain r => exact Scan.becomes_of_quiet h
  | placed k text tail => exact Scan.becomes_of_quiet h
  | written q suffix tail =>
    dsimp only [Part.Only] at h
    dsimp only [Part.turned, Part.captured]
    by_cases hq : q = p
    · subst hq
      -- the path that the pass is for
      rw [if_pos rfl] at h
      rw [if_pos rfl, if_pos rfl]
      obtain ⟨o, ho⟩ := List.head?_eq_some_iff.mp hp.absolute
      refine Scan.becomes_of_match ?_ h.1 h.2
      unfold Part.front
      rw [ho]
      simp
    · rw [if_neg hq] at h
      rw [if_neg hq, if_neg hq]
      exact Scan.becomes_of_quiet h

theorem becomeAll_turned (hp : IsPass p) (h : OnlyParts p x rest) (n : ℕ) :
    BecomeAll isSeparator (matchAt p) token n x.text (texts rest) (x.turned p n).text
      (texts (turnedRest p (n + (x.captured p).length) rest)) (capturedAll p x rest) := by
  induction rest generalizing x n with
  | nil =>
    have hall : capturedAll p x [] = x.captured p := List.append_nil _
    rw [hall]
    exact .last (becomes_turned hp h n)
  | cons z rest ih =>
    obtain ⟨c, y⟩ := z
    exact .cons (becomes_turned hp h.1 n) (ih h.2 (n + (x.captured p).length))

theorem fst_turnedRest : (turnedRest p n rest).map Prod.fst = rest.map Prod.fst := by
  induction rest generalizing n with
  | nil => rfl
  | cons z rest ih =>
    obtain ⟨c, y⟩ := z
    exact congrArg (List.cons c) ih

theorem fst_texts : (texts rest).map Prod.fst = rest.map Prod.fst := List.map_map

theorem applyPass_joined (hp : IsPass p) (hrest : ∀ c ∈ rest.map Prod.fst, isBlank c = true) (h : OnlyParts p x rest) :
    applyPass (joined x.text (texts rest), replacements) p =
      (joined (x.turned p replacements.length).text
        (texts (turnedRest p (replacements.length + (x.captured p).length) rest)),
        replacements ++ (capturedAll p x rest).map fun suffix => quote (p.new ++ suffix)) := by
  have hscan := Scan.scan_joined (fun c hc => ?_) (becomeAll_turned hp h replacements.length)
  · unfold applyPass
    dsimp only
    rw [hscan]
  · rw [fst_texts] at hc
    have hblank := hrest c hc
    have hcases : c = ' ' ∨ c = '\t' ∨ c = '\r' ∨ c = '\n' := of_decide_eq_true hblank
    refine ⟨isSeparator_of_isBlank hblank, matchAt_of_head hp ?_⟩
    rcases hcases with rfl | rfl | rfl | rfl <;> decide

/-! ### What holds between the passes -/

/-- A part before the passes `left`, with the replacements so far. -/
def Held (left : List Pass) (replacements : List Text) : Part → Prop
  | .plain r => Char.ofNat 0 ∉ r
  | .written p suffix tail => p ∈ left ∧ Char.ofNat 0 ∉ suffix ∧ Char.ofNat 0 ∉ tail
  | .placed k text tail => replacements[k]? = some text ∧ Char.ofNat 0 ∉ tail

theorem getElem?_of_start (h : replacements <+: replacements') {k : ℕ} {text : Text}
    (htext : replacements[k]? = some text) : replacements'[k]? = some text := by
  obtain ⟨more, rfl⟩ := h
  have hlt : k < replacements.length := (List.getElem?_eq_some_iff.mp htext).1
  rw [List.getElem?_append_left hlt, htext]

/-- The pass leaves a part that is held by what it appends to the replacements. -/
theorem Held.turned (h : Held (p :: left) replacements x) (hmore : replacements <+: replacements')
    (hnew : ∀ (i : ℕ) b, (x.captured p)[i]? = some b → replacements'[n + i]? = some (quote (p.new ++ b))) :
    Held left replacements' (x.turned p n) := by
  cases x with
  | plain r => exact h
  | placed k text tail => exact ⟨getElem?_of_start hmore h.1, h.2⟩
  | written q suffix tail =>
    obtain ⟨hq, hsuffix, htail⟩ := h
    dsimp only [Part.turned]
    dsimp only [Part.captured] at hnew
    by_cases heq : q = p
    · rw [if_pos heq] at hnew ⊢
      exact ⟨hnew 0 suffix rfl, htail⟩
    · rw [if_neg heq]
      exact ⟨(List.mem_cons.mp hq).resolve_left heq, hsuffix, htail⟩

theorem held_turnedRest (h : ∀ y ∈ rest.map Prod.snd, Held (p :: left) replacements y) (hmore : replacements <+: replacements')
    (hnew : ∀ (i : ℕ) b, (rest.flatMap fun y => y.2.captured p)[i]? = some b →
      replacements'[n + i]? = some (quote (p.new ++ b))) :
    ∀ y ∈ (turnedRest p n rest).map Prod.snd, Held left replacements' y := by
  induction rest generalizing n with
  | nil => exact List.forall_mem_nil _
  | cons z rest ih =>
    obtain ⟨c, y⟩ := z
    refine List.forall_mem_cons.mpr ⟨(h y List.mem_cons_self).turned hmore fun i b hb => ?_,
      ih (fun y' hy' => h y' (List.mem_cons_of_mem y hy')) fun i b hb => ?_⟩
    · refine hnew i b ?_
      rw [List.flatMap_cons, List.getElem?_append_left (List.getElem?_eq_some_iff.mp hb).1, hb]
    · rw [Nat.add_assoc]
      refine hnew ((y.captured p).length + i) b ?_
      rw [List.flatMap_cons, List.getElem?_append_right (Nat.le_add_right _ _), Nat.add_sub_cancel_left, hb]

/-- The pass does not change what a part becomes in the end. -/
theorem final_turned (p : Pass) (n : ℕ) (x : Part) : (x.turned p n).final = x.final := by
  cases x with
  | plain r => rfl
  | placed k text tail => rfl
  | written q suffix tail =>
    dsimp only [Part.turned]
    split
    · next heq =>
      rw [heq]
      rfl
    · rfl

theorem finals_turnedRest : finals (turnedRest p n rest) = finals rest := by
  induction rest generalizing n with
  | nil => rfl
  | cons z rest ih =>
    obtain ⟨c, y⟩ := z
    show (c, (y.turned p n).final) :: finals (turnedRest p _ rest) = (c, y.final) :: finals rest
    rw [final_turned, ih]

theorem nul_not_mem_captured (h : Held left replacements x) {b : Text} (hb : b ∈ x.captured p) : Char.ofNat 0 ∉ b := by
  cases x with
  | plain r => cases hb
  | placed k text tail => cases hb
  | written q suffix tail =>
    dsimp only [Part.captured] at hb
    split at hb
    · rw [List.mem_singleton.mp hb]
      exact h.2.1
    · cases hb

theorem mem_quote {t : Text} (h : c ∈ quote t) : c ∈ t ∨ c = '\'' ∨ c = '"' := by
  unfold quote at h
  split at h
  · exact .inr (.inl (by simpa using h))
  · split at h
    · exact .inl h
    · rcases List.mem_append.mp h with h | h
      · rcases List.mem_cons.mp h with h | h
        · exact .inr (.inl h)
        · obtain ⟨d, hd, h⟩ := List.mem_flatMap.mp h
          split at h
          · simp only [List.mem_cons, List.not_mem_nil, or_false] at h
            tauto
          · exact .inl (List.mem_singleton.mp h ▸ hd)
      · exact .inr (.inl (List.mem_singleton.mp h))

theorem nul_not_mem_quote {t : Text} (h : Char.ofNat 0 ∉ t) : Char.ofNat 0 ∉ quote t := by
  intro hmem
  rcases mem_quote hmem with hmem | hmem | hmem
  · exact h hmem
  · exact absurd hmem (by decide)
  · exact absurd hmem (by decide)

/-- All passes over a command of such parts. -/
theorem foldl_applyPass_joined (hleft : ∀ p ∈ left, IsPass p ∧ Char.ofNat 0 ∉ p.new)
    (hrest : ∀ c ∈ rest.map Prod.fst, isBlank c = true) (hreplacements : ∀ t ∈ replacements, Char.ofNat 0 ∉ t)
    (h : AllOnly left replacements.length x rest) (hheld : ∀ y ∈ x :: rest.map Prod.snd, Held left replacements y) :
    ∃ x' rest' replacements', x'.final = x.final ∧ finals rest' = finals rest ∧
      left.foldl applyPass (joined x.text (texts rest), replacements) = (joined x'.text (texts rest'), replacements') ∧
      (∀ t ∈ replacements', Char.ofNat 0 ∉ t) ∧ ∀ y ∈ x' :: rest'.map Prod.snd, Held [] replacements' y := by
  induction left generalizing x rest replacements with
  | nil => exact ⟨x, rest, replacements, rfl, rfl, rfl, hreplacements, hheld⟩
  | cons p left ih =>
    obtain ⟨hp, hnew⟩ := hleft p List.mem_cons_self
    obtain ⟨honly, hlater⟩ := h
    have hclean : ∀ t ∈ replacements ++ (capturedAll p x rest).map (fun suffix => quote (p.new ++ suffix)),
        Char.ofNat 0 ∉ t := by
      intro t ht
      rcases List.mem_append.mp ht with ht | ht
      · exact hreplacements t ht
      · obtain ⟨b, hb, rfl⟩ := List.mem_map.mp ht
        have hnul : Char.ofNat 0 ∉ b := by
          rcases List.mem_append.mp hb with hb | hb
          · exact nul_not_mem_captured (hheld x List.mem_cons_self) hb
          · obtain ⟨y, hy, hb⟩ := List.mem_flatMap.mp hb
            exact nul_not_mem_captured (hheld y.2 (List.mem_cons_of_mem x (List.mem_map_of_mem hy))) hb
        exact nul_not_mem_quote fun hmem => (List.mem_append.mp hmem).elim hnew hnul
    -- the placeholders of this pass are numbered on from those before it
    have hget : ∀ (i : ℕ) b, (capturedAll p x rest)[i]? = some b →
        (replacements ++ (capturedAll p x rest).map fun suffix => quote (p.new ++ suffix))[replacements.length + i]? =
          some (quote (p.new ++ b)) := by
      intro i b hb
      rw [List.getElem?_append_right (Nat.le_add_right _ _), Nat.add_sub_cancel_left, List.getElem?_map, hb]
      rfl
    -- the parts after this pass
    have hnext : ∀ y ∈ x.turned p replacements.length ::
        (turnedRest p (replacements.length + (x.captured p).length) rest).map Prod.snd,
        Held left (replacements ++ (capturedAll p x rest).map fun suffix => quote (p.new ++ suffix)) y := by
      refine List.forall_mem_cons.mpr ⟨(hheld x List.mem_cons_self).turned (List.prefix_append _ _) fun i b hb => ?_,
        held_turnedRest (fun y hy => hheld y (List.mem_cons_of_mem x hy)) (List.prefix_append _ _) fun i b hb => ?_⟩
      · refine hget i b ?_
        unfold capturedAll
        rw [List.getElem?_append_left (List.getElem?_eq_some_iff.mp hb).1, hb]
      · rw [Nat.add_assoc]
        refine hget ((x.captured p).length + i) b ?_
        unfold capturedAll
        rw [List.getElem?_append_right (Nat.le_add_right _ _), Nat.add_sub_cancel_left, hb]
    have hlength : (replacements ++ (capturedAll p x rest).map fun suffix => quote (p.new ++ suffix)).length =
        replacements.length + (capturedAll p x rest).length := by
      rw [List.length_append, List.length_map]
    obtain ⟨x', rest', replacements', hx', hrest', hfold, hclean', hdone⟩ :=
      ih (fun q hq => hleft q (List.mem_cons_of_mem p hq)) (by rwa [fst_turnedRest]) hclean (by rwa [hlength]) hnext
    refine ⟨x', rest', replacements', hx'.trans (final_turned p _ x), hrest'.trans finals_turnedRest, ?_, hclean', hdone⟩
    rw [List.foldl_cons, applyPass_joined hp hrest honly]
    exact hfold

/-! ### The placeholders at the end -/

theorem mem_placeholders {w : Text × Text} (h : w ∈ placeholders replacements) :
    ∃ k, w.1 = token k ∧ replacements[k]? = some w.2 := by
  obtain ⟨x, hx, rfl⟩ := List.mem_map.mp h
  exact ⟨x.2, rfl, List.mem_zipIdx_iff_getElem?.mp hx⟩

theorem placeholders_eq {k : ℕ} {text : Text} (h : replacements[k]? = some text) :
    ∃ earlier later, placeholders replacements = earlier ++ (token k, text) :: later ∧
      ∀ w ∈ earlier, ∃ i, i ≠ k ∧ w.1 = token i := by
  obtain ⟨hlt, htext⟩ := List.getElem?_eq_some_iff.mp h
  have hsplit : replacements = replacements.take k ++ text :: replacements.drop (k + 1) := by
    rw [← htext, List.getElem_cons_drop, List.take_append_drop]
  have hlength : (replacements.take k).length = k := List.length_take_of_le (Nat.le_of_lt hlt)
  refine ⟨(replacements.take k).zipIdx.map (fun r => (token r.2, r.1)),
    ((replacements.drop (k + 1)).zipIdx (k + 1)).map (fun r => (token r.2, r.1)), ?_, fun w hw => ?_⟩
  · unfold placeholders
    conv_lhs => rw [hsplit]
    rw [List.zipIdx_append, List.map_append, hlength, List.zipIdx_cons, List.map_cons, Nat.zero_add]
  · obtain ⟨x, hx, rfl⟩ := List.mem_map.mp hw
    have hget := List.mem_zipIdx_iff_getElem?.mp hx
    have hx2 : x.2 < k := hlength ▸ (List.getElem?_eq_some_iff.mp hget).1
    exact ⟨x.2, Nat.ne_of_lt hx2, rfl⟩

theorem nul_mem_of_token {k : ℕ} {t : Text} (h : token k <:+: t) : Char.ofNat 0 ∈ t := h.subset List.mem_cons_self

/-- A part after all passes gets its final text. -/
theorem Held.final_eq (hreplacements : ∀ t ∈ replacements, Char.ofNat 0 ∉ t) (h : Held [] replacements x) :
    Replace.replaceAll (placeholders replacements) x.text = x.final ∧ Char.ofNat 0 ∉ x.final := by
  have hne : ∀ w ∈ placeholders replacements, w.1 ≠ [] := by
    intro w hw
    obtain ⟨k, hk, -⟩ := mem_placeholders hw
    rw [hk]
    exact List.cons_ne_nil _ _
  have habsent {t : Text} (ht : Char.ofNat 0 ∉ t) : ∀ w ∈ placeholders replacements, ¬ w.1 <:+: t := by
    intro w hw hin
    obtain ⟨k, hk, -⟩ := mem_placeholders hw
    exact ht (nul_mem_of_token (hk ▸ hin))
  cases x with
  | plain r => exact ⟨Replace.replaceAll_of_absent hne (habsent h), h⟩
  | written p suffix tail => exact absurd h.1 List.not_mem_nil
  | placed k text tail =>
    obtain ⟨htext, hnul⟩ := h
    have hclean : Char.ofNat 0 ∉ text ++ tail := fun hmem =>
      (List.mem_append.mp hmem).elim (hreplacements text (List.mem_of_getElem? htext)) hnul
    -- the other placeholders do not occur in it
    obtain ⟨earlier, later, heq, hearlier⟩ := placeholders_eq htext
    refine ⟨?_, hclean⟩
    show Replace.replaceAll (placeholders replacements) (token k ++ tail) = text ++ tail
    rw [heq] at hne ⊢
    refine Replace.replaceAll_of_head hne (fun w hw hin => ?_) fun w hw => ?_
    · obtain ⟨i, hi, hw⟩ := hearlier w hw
      exact hi (eq_of_token hnul (hw ▸ hin))
    · exact habsent hclean w (heq ▸ List.mem_append_right earlier hw)

/-- The parts of the command after all passes get their final texts. -/
theorem replaceAll_joined (hreplacements : ∀ t ∈ replacements, Char.ofNat 0 ∉ t)
    (hrest : ∀ c ∈ rest.map Prod.fst, isBlank c = true) (h : ∀ y ∈ x :: rest.map Prod.snd, Held [] replacements y) :
    Replace.replaceAll (placeholders replacements) (joined x.text (texts rest)) = joined x.final (finals rest) ∧
      Char.ofNat 0 ∉ joined x.final (finals rest) := by
  induction rest generalizing x with
  | nil => exact (h x List.mem_cons_self).final_eq hreplacements
  | cons z rest ih =>
    obtain ⟨c, y⟩ := z
    have hc : isBlank c = true := hrest c List.mem_cons_self
    obtain ⟨heq, hnul⟩ := (h x List.mem_cons_self).final_eq hreplacements
    obtain ⟨heq', hnul'⟩ := ih (fun d hd => hrest d (List.mem_cons_of_mem c hd)) fun y' hy' => h y' (List.mem_cons_of_mem x hy')
    constructor
    · show Replace.replaceAll _ (x.text ++ c :: joined y.text (texts rest)) = x.final ++ c :: joined y.final (finals rest)
      -- no placeholder goes over a blank
      rw [Replace.replaceAll_append_cons, heq, heq']
      · intro w hw
        obtain ⟨k, hk, -⟩ := mem_placeholders hw
        rw [hk]
        exact List.cons_ne_nil _ _
      · intro w hw
        obtain ⟨k, hk, -⟩ := mem_placeholders hw
        rw [hk]
        exact not_mem_token_of_isBlank hc
    · show Char.ofNat 0 ∉ x.final ++ c :: joined y.final (finals rest)
      intro hmem
      rcases List.mem_append.mp hmem with hmem | hmem
      · exact hnul hmem
      · rcases List.mem_cons.mp hmem with hmem | hmem
        · rw [← hmem] at hc
          exact absurd hc (by decide)
        · exact hnul' hmem

/-! ### The words -/

theorem quote_ne_nil (t : Text) : quote t ≠ [] := by
  unfold quote
  split
  · exact List.cons_ne_nil _ _
  · next h =>
    split
    · exact h
    · exact List.append_ne_nil_of_left_ne_nil (List.cons_ne_nil _ _) _

/-- The words of the command before the first pass, and those it has in the end. -/
theorem reads_finals (habsolute : ∀ m ∈ mapping, m.1.head? = some '/') (h : ∀ y ∈ x :: rest.map Prod.snd, Understood mapping y) :
    ∃ ws, Reads (x.text :: (texts rest).map Prod.snd) ws ∧
      Reads (x.final :: (finals rest).map Prod.snd) (ws.map (relocateWord mapping)) := by
  -- the blanks between the parts do not matter
  have hall : ∀ ys : List Part, (∀ y ∈ ys, Understood mapping y) →
      ∃ ws, Reads (ys.map Part.text) ws ∧ Reads (ys.map Part.final) (ws.map (relocateWord mapping)) := by
    intro ys
    induction ys with
    | nil => exact fun _ => ⟨[], .nil, .nil⟩
    | cons y ys ih =>
      intro h
      obtain ⟨ws, hreads, hfinals⟩ := ih fun y' hy' => h y' (List.mem_cons_of_mem y hy')
      have hy := h y List.mem_cons_self
      cases y with
      | placed k text tail => exact absurd hy id
      | plain r =>
        rcases hy with rfl | ⟨w, hclosed, hword⟩
        · exact ⟨ws, .skip hreads, .skip hfinals⟩
        · by_cases hr : r = []
          · subst hr
            exact ⟨ws, .skip hreads, .skip hfinals⟩
          · refine ⟨w :: ws, .word hr hclosed hreads, ?_⟩
            show Reads (r :: ys.map Part.final) (relocateWord mapping w :: ws.map (relocateWord mapping))
            rw [hword]
            exact .word hr hclosed hfinals
      | written p suffix tail =>
        obtain ⟨hp, hfront, w, htail, hword⟩ := hy
        obtain ⟨o, ho⟩ : ∃ o, p.old = '/' :: o := List.head?_eq_some_iff.mp (habsolute _ (mem_passes.mp hp).2)
        have hne : Part.front p suffix ++ tail ≠ [] := by
          unfold Part.front
          rw [ho]
          simp
        refine ⟨(p.old ++ suffix ++ w) :: ws, .word hne (hfront.append htail) hreads, ?_⟩
        show Reads ((quote (p.new ++ suffix) ++ tail) :: ys.map Part.final)
          (relocateWord mapping (p.old ++ suffix ++ w) :: ws.map (relocateWord mapping))
        rw [hword]
        exact .word (List.append_ne_nil_of_left_ne_nil (quote_ne_nil _) _) ((ShellWords.closed_quote _).append htail) hfinals
  have htexts : (texts rest).map Prod.snd = (rest.map Prod.snd).map Part.text := by
    rw [texts, List.map_map, List.map_map]
    rfl
  have hfinals : (finals rest).map Prod.snd = (rest.map Prod.snd).map Part.final := by
    rw [finals, List.map_map, List.map_map]
    rfl
  rw [htexts, hfinals]
  exact hall (x :: rest.map Prod.snd) h

/-- No NUL is in a part of a command without one. -/
theorem nul_not_mem_text (h : Char.ofNat 0 ∉ joined x.text (texts rest)) :
    ∀ y ∈ x :: rest.map Prod.snd, Char.ofNat 0 ∉ y.text := by
  induction rest generalizing x with
  | nil =>
    intro y hy
    rw [List.mem_singleton.mp hy]
    exact h
  | cons z rest ih =>
    obtain ⟨c, y⟩ := z
    have h' : Char.ofNat 0 ∉ x.text ++ c :: joined y.text (texts rest) := h
    rw [List.mem_append, not_or] at h'
    refine List.forall_mem_cons.mpr ⟨h'.1, ih fun hmem => h'.2 (List.mem_cons_of_mem c hmem)⟩

theorem held_of_understood (hunderstood : Understood mapping y) (hnul : Char.ofNat 0 ∉ y.text) :
    Held (passes mapping) [] y := by
  cases y with
  | plain r => exact hnul
  | placed k text tail => exact absurd hunderstood id
  | written p suffix tail =>
    refine ⟨hunderstood.1, fun hmem => hnul ?_, fun hmem => hnul (List.mem_append_right _ hmem)⟩
    exact List.mem_append_left _ (List.mem_append_left _ (List.mem_append_right _ hmem))

def sampleMapping : List (Text × Text) :=
  [("/old/bin".toList, "/new location/bin".toList), ("/old/problem.p".toList, "/new location/problem.p".toList)]

end Commands
end Portable
end Slurmy
