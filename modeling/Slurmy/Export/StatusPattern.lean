import Mathlib.Data.List.TakeWhile
import Slurmy.Lib.Findall

/-!
# SZS statuses

The pattern `SZS_STATUS_RE` of `slurmy-sync.py`, for texts of bytes.

* `statusAt`: what it matches; `Parts`, `parts_of_statusAt`, `statusAt_of_parts`: the parts of a match;
* `length_of_inner`: a match that begins inside another one begins with the end of its word;
* `statusPattern`, `statuses`: the pattern, and the statuses of a text;
* `occurs_front`, `occurs_blanks_iff`: statuses in texts that are cut or have something put in.
-/

namespace Slurmy
namespace Export
namespace Statuses

open Findall

/-! ### The pattern -/

/-- `\s` in a pattern of bytes. -/
def isBlank (c : ℕ) : Bool := decide (c = 32) || decide (9 ≤ c ∧ c ≤ 13)

def isLetter (c : ℕ) : Bool := decide (65 ≤ c ∧ c ≤ 90) || decide (97 ≤ c ∧ c ≤ 122)

/-- `\w`. -/
def isWordByte (c : ℕ) : Bool := isLetter c || decide (48 ≤ c ∧ c ≤ 57) || decide (c = 95)

/-- `[A-Za-z0-9_-]`. -/
def isStatusByte (c : ℕ) : Bool := isWordByte c || decide (c = 45)

def lowerByte (c : ℕ) : ℕ := if 65 ≤ c ∧ c ≤ 90 then c + 32 else c

/-- `szs` -/
def szsBytes : List ℕ := [115, 122, 115]

/-- `status` -/
def statusBytes : List ℕ := [115, 116, 97, 116, 117, 115]

/-- `SZS_STATUS_RE` at the beginning of a text: the length of the match, and the word. No part of it can be matched in
more than one way. -/
def statusAt (prev : Option ℕ) (t : List ℕ) : Option (ℕ × List ℕ) :=
  let blanks := (t.drop 3).takeWhile isBlank
  let behind := (t.drop 3).dropWhile isBlank
  let blanks' := (behind.drop 6).takeWhile isBlank
  let last := (behind.drop 6).dropWhile isBlank
  let word := last.takeWhile isStatusByte
  if prev.any isWordByte = false ∧ (t.take 3).map lowerByte = szsBytes ∧ blanks ≠ [] ∧
      (behind.take 6).map lowerByte = statusBytes ∧ blanks' ≠ [] ∧ last.head?.any isLetter = true then
    some (3 + blanks.length + 6 + blanks'.length + word.length, word)
  else none

/-- The parts of a match, and the text behind it. -/
structure Parts where
  szs : List ℕ
  blanks : List ℕ
  status : List ℕ
  blanks' : List ℕ
  word : List ℕ
  rest : List ℕ
  szs_lower : szs.map lowerByte = szsBytes
  status_lower : status.map lowerByte = statusBytes
  blank : ∀ c ∈ blanks, isBlank c = true
  blank' : ∀ c ∈ blanks', isBlank c = true
  blanks_ne : blanks ≠ []
  blanks'_ne : blanks' ≠ []
  word_head : word.head?.any isLetter = true
  word_bytes : ∀ c ∈ word, isStatusByte c = true
  rest_head : ∀ c ∈ rest.head?, isStatusByte c = false

namespace Parts

variable (p : Parts)

def length : ℕ := 3 + p.blanks.length + 6 + p.blanks'.length + p.word.length

def text : List ℕ := p.szs ++ (p.blanks ++ (p.status ++ (p.blanks' ++ (p.word ++ p.rest))))

/-- The match. -/
def matched : List ℕ := p.szs ++ (p.blanks ++ (p.status ++ (p.blanks' ++ p.word)))

theorem text_eq : p.text = p.matched ++ p.rest := by
  simp only [text, matched, List.append_assoc]

end Parts

variable {t u v w : List ℕ} {prev : Option ℕ} {n c : ℕ} {word : List ℕ} {p : Parts}

theorem not_blank_of_status (h : isStatusByte c = true) : isBlank c = false := by
  simp only [isStatusByte, isWordByte, isLetter, isBlank, Bool.or_eq_true, decide_eq_true_eq, Bool.or_eq_false_iff,
    decide_eq_false_iff_not] at h ⊢
  omega

theorem status_of_letter (h : isLetter c = true) : isStatusByte c = true := by
  rw [isStatusByte, isWordByte, h]
  rfl

theorem isWordByte_of_lower (h : 97 ≤ lowerByte c ∧ lowerByte c ≤ 122) : isWordByte c = true := by
  unfold lowerByte at h
  have hletter : isLetter c = true := by
    simp only [isLetter, Bool.or_eq_true, decide_eq_true_eq]
    split at h <;> omega
  rw [isWordByte, hletter]
  rfl

theorem isWordByte_of_map {l bytes : List ℕ} (h : l.map lowerByte = bytes) (hbytes : ∀ b ∈ bytes, 97 ≤ b ∧ b ≤ 122)
    (hc : c ∈ l) : isWordByte c = true :=
  isWordByte_of_lower (hbytes _ (h ▸ List.mem_map_of_mem hc))

theorem statusByte_of_word (h : isWordByte c = true) : isStatusByte c = true := by
  rw [isStatusByte, h]
  rfl

theorem Parts.szs_length (p : Parts) : p.szs.length = 3 := by
  rw [← List.length_map (f := lowerByte), p.szs_lower]
  rfl

theorem Parts.status_length (p : Parts) : p.status.length = 6 := by
  rw [← List.length_map (f := lowerByte), p.status_lower]
  rfl

theorem Parts.szs_word (p : Parts) (hc : c ∈ p.szs) : isWordByte c = true :=
  isWordByte_of_map p.szs_lower (by decide) hc

theorem Parts.status_word (p : Parts) (hc : c ∈ p.status) : isWordByte c = true :=
  isWordByte_of_map p.status_lower (by decide) hc

theorem Parts.word_ne (p : Parts) : p.word ≠ [] := fun h => by
  have hhead := p.word_head
  rw [h] at hhead
  cases hhead

/-- What is taken from a text whose first part is all that can be taken, and what is left. -/
theorem takeWhile_eq {q : ℕ → Bool} {b r : List ℕ} (hb : ∀ c ∈ b, q c = true) (hr : ∀ c ∈ r.head?, q c = false) :
    (b ++ r).takeWhile q = b ∧ (b ++ r).dropWhile q = r := by
  rw [List.takeWhile_append_of_pos hb, List.dropWhile_append_of_pos hb]
  cases r with
  | nil => exact ⟨List.append_nil b, rfl⟩
  | cons c r =>
    have hc : ¬ q c = true := by rw [hr c rfl]; exact Bool.false_ne_true
    rw [List.takeWhile_cons_of_neg hc, List.dropWhile_cons_of_neg hc]
    exact ⟨List.append_nil b, rfl⟩

theorem not_blank_of_head {l r : List ℕ} (hl : l ≠ []) (hword : ∀ c ∈ l, isStatusByte c = true) :
    ∀ c ∈ (l ++ r).head?, isBlank c = false := by
  intro c hc
  rw [List.head?_append_of_ne_nil _ hl] at hc
  exact not_blank_of_status (hword c (List.mem_of_mem_head? hc))

theorem Parts.text_length (p : Parts) : p.text.length = p.length + p.rest.length := by
  simp only [Parts.text, Parts.length, List.length_append, p.szs_length, p.status_length]
  omega

theorem Parts.status_ne (p : Parts) : p.status ≠ [] := List.ne_nil_of_length_pos (by rw [p.status_length]; omega)

theorem statusAt_of_parts (p : Parts) (hprev : prev.any isWordByte = false) :
    statusAt prev p.text = some (p.length, p.word) := by
  have htake : p.text.take 3 = p.szs := List.take_left' p.szs_length
  have hdrop : p.text.drop 3 = p.blanks ++ (p.status ++ (p.blanks' ++ (p.word ++ p.rest))) :=
    List.drop_left' p.szs_length
  obtain ⟨hblanks, hbehind⟩ := takeWhile_eq p.blank (not_blank_of_head (r := p.blanks' ++ (p.word ++ p.rest))
    p.status_ne fun c hc => statusByte_of_word (p.status_word hc))
  have hsix : (p.status ++ (p.blanks' ++ (p.word ++ p.rest))).take 6 = p.status := List.take_left' p.status_length
  have hlast : (p.status ++ (p.blanks' ++ (p.word ++ p.rest))).drop 6 = p.blanks' ++ (p.word ++ p.rest) :=
    List.drop_left' p.status_length
  obtain ⟨hblanks', hword⟩ := takeWhile_eq p.blank' (not_blank_of_head (r := p.rest) p.word_ne p.word_bytes)
  obtain ⟨htaken, -⟩ := takeWhile_eq p.word_bytes p.rest_head
  have hhead : (p.word ++ p.rest).head?.any isLetter = true := by
    rw [List.head?_append_of_ne_nil _ p.word_ne]
    exact p.word_head
  unfold statusAt
  simp only [htake, hdrop, hblanks, hbehind, hsix, hlast, hblanks', hword, htaken]
  rw [if_pos ⟨hprev, p.szs_lower, p.blanks_ne, p.status_lower, p.blanks'_ne, hhead⟩]
  rfl

theorem head?_dropWhile {q : ℕ → Bool} (l : List ℕ) : ∀ c ∈ (l.dropWhile q).head?, q c = false := by
  intro c hc
  have hnot := List.head?_dropWhile_not q l
  rwa [hc] at hnot

theorem parts_of_statusAt (h : statusAt prev t = some (n, word)) :
    prev.any isWordByte = false ∧ ∃ p : Parts, p.text = t ∧ p.length = n ∧ p.word = word := by
  unfold statusAt at h
  simp only at h
  split at h
  · next hall =>
    obtain ⟨hprev, hszs, hblanks, hstatus, hblanks', hhead⟩ := hall
    obtain ⟨hn, hword⟩ := Prod.mk.inj (Option.some.inj h)
    have hne : (((t.drop 3).dropWhile isBlank).drop 6).dropWhile isBlank ≠ [] := fun hnil => by
      rw [hnil] at hhead
      cases hhead
    refine ⟨hprev, {
      szs := t.take 3
      blanks := (t.drop 3).takeWhile isBlank
      status := ((t.drop 3).dropWhile isBlank).take 6
      blanks' := (((t.drop 3).dropWhile isBlank).drop 6).takeWhile isBlank
      word := ((((t.drop 3).dropWhile isBlank).drop 6).dropWhile isBlank).takeWhile isStatusByte
      rest := ((((t.drop 3).dropWhile isBlank).drop 6).dropWhile isBlank).dropWhile isStatusByte
      szs_lower := hszs
      status_lower := hstatus
      blank := fun c hc => List.mem_takeWhile_imp hc
      blank' := fun c hc => List.mem_takeWhile_imp hc
      blanks_ne := hblanks
      blanks'_ne := hblanks'
      word_head := ?_
      word_bytes := fun c hc => List.mem_takeWhile_imp hc
      rest_head := head?_dropWhile _ }, ?_, hn, hword⟩
    · cases hlast : (((t.drop 3).dropWhile isBlank).drop 6).dropWhile isBlank with
      | nil => exact absurd hlast hne
      | cons c last =>
        rw [hlast] at hhead
        rw [List.takeWhile_cons_of_pos (status_of_letter hhead)]
        exact hhead
    · unfold Parts.text
      simp only [List.takeWhile_append_dropWhile, List.take_append_drop]
  · cases h

theorem Parts.matched_length (p : Parts) : p.matched.length = p.length := by
  have hlen := p.text_length
  rw [p.text_eq, List.length_append] at hlen
  omega

/-- The match with another text behind it. -/
theorem statusAt_matched (p : Parts) (hprev : prev.any isWordByte = false)
    (hrest : ∀ c ∈ v.head?, isStatusByte c = false) : statusAt prev (p.matched ++ v) = some (p.length, p.word) := by
  have h := statusAt_of_parts { p with rest := v, rest_head := hrest } hprev
  rwa [Parts.text_eq] at h

theorem statusAt_near (h : statusAt prev (u ++ v) = some (n, word)) (hn : n < u.length) (w : List ℕ) :
    statusAt prev (u ++ w) = some (n, word) := by
  obtain ⟨hprev, p, htext, rfl, rfl⟩ := parts_of_statusAt h
  rw [p.text_eq] at htext
  obtain ⟨r, rfl⟩ : p.matched <+: u :=
    List.prefix_of_prefix_length_le ⟨p.rest, htext⟩ ⟨v, rfl⟩ (by rw [p.matched_length]; omega)
  have hr : r ≠ [] := by
    rintro rfl
    rw [List.append_nil, p.matched_length] at hn
    omega
  have hrest : p.rest = r ++ v := by
    rw [List.append_assoc] at htext
    exact List.append_cancel_left htext
  rw [List.append_assoc]
  refine statusAt_matched p hprev fun c hc => p.rest_head c ?_
  rw [List.head?_append_of_ne_nil _ hr] at hc
  rwa [hrest, List.head?_append_of_ne_nil _ hr]

/-! ### Matches inside one another -/

theorem any_getLast? {d : List ℕ} (hd : d ≠ []) (hword : ∀ c ∈ d, isWordByte c = true) :
    (u ++ d).getLast?.any isWordByte = true := by
  rw [List.getLast?_append_of_ne_nil u hd, List.getLast?_eq_some_getLast hd]
  exact hword _ (List.getLast_mem hd)

theorem Parts.head_szs (p : Parts) : ∃ x y z, p.szs = [x, y, z] ∧ lowerByte x = 115 ∧ lowerByte y = 122 := by
  have hszs := p.szs_lower
  match hp : p.szs, p.szs_length with
  | [x, y, z], _ =>
    rw [hp] at hszs
    obtain ⟨hx, hrest⟩ := List.cons.inj hszs
    exact ⟨x, y, z, rfl, hx, (List.cons.inj hrest).1⟩

theorem Parts.head_status (p : Parts) : ∃ x y l, p.status = x :: y :: l ∧ lowerByte y = 116 := by
  have hstatus := p.status_lower
  match hp : p.status, p.status_length with
  | x :: y :: l, _ =>
    rw [hp] at hstatus
    exact ⟨x, y, l, rfl, (List.cons.inj (List.cons.inj hstatus).2).1⟩

/-- No match begins with a blank, nor with `status`. -/
theorem Parts.ne_text (p : Parts) {b r : List ℕ} (hb : b ≠ []) (hblank : ∀ c ∈ b, isBlank c = true) :
    p.text ≠ b ++ r := by
  intro h
  obtain ⟨x, y, z, hszs, -, -⟩ := p.head_szs
  cases b with
  | nil => exact hb rfl
  | cons c b =>
    rw [text, hszs] at h
    obtain rfl : x = c := (List.cons.inj h).1
    have hword := p.szs_word (hszs ▸ List.mem_cons_self)
    have hnot := not_blank_of_status (statusByte_of_word hword)
    rw [hblank x List.mem_cons_self] at hnot
    cases hnot

theorem Parts.ne_status (p q : Parts) {r : List ℕ} : q.text ≠ p.status ++ r := by
  intro h
  obtain ⟨x, y, z, hszs, -, hy⟩ := q.head_szs
  obtain ⟨x', y', l, hstatus, hy'⟩ := p.head_status
  rw [text, hszs, hstatus] at h
  obtain rfl : y = y' := (List.cons.inj (List.cons.inj h).2).1
  omega

/-- Where a match begins in the word of another one, the word ends with its `SZS`. -/
theorem word_of_inner {p q : Parts} {f : List ℕ} (h : p.word ++ p.rest = f ++ q.text) (hf : f.length < p.word.length) :
    p.word.length = f.length + 3 := by
  rcases List.append_eq_append_iff.1 h with ⟨a, rfl, -⟩ | ⟨a, hword, htext⟩
  · rw [List.length_append] at hf
    omega
  have hlen : p.word.length = f.length + a.length := by rw [hword, List.length_append]
  have hthree := q.szs_length
  rcases List.append_eq_append_iff.1 htext with ⟨b, rfl, hrest⟩ | ⟨b, hszs, hrest⟩
  · -- the byte behind `SZS` is blank, so it is not in the word
    cases b with
    | nil => rw [hlen, List.append_nil, hthree]
    | cons c b =>
      have hc : isStatusByte c = true := p.word_bytes c (by simp [hword])
      cases hblanks : q.blanks with
      | nil => exact absurd hblanks q.blanks_ne
      | cons d blanks =>
        rw [hblanks] at hrest
        obtain rfl : d = c := (List.cons.inj hrest).1
        have hblank := q.blank d (hblanks ▸ List.mem_cons_self)
        rw [not_blank_of_status hc] at hblank
        cases hblank
  · -- and `SZS` does not go on where the word has ended
    cases b with
    | nil =>
      rw [hszs, List.append_nil] at hthree
      rw [hlen, hthree]
    | cons c b =>
      have hc := p.rest_head c (by rw [hrest]; rfl)
      rw [statusByte_of_word (q.szs_word (hszs ▸ List.mem_append_right a List.mem_cons_self))] at hc
      cases hc

/-- A match that begins inside another one begins with the end of its word. -/
theorem length_of_inner {p q : Parts} (h : u ++ q.text = p.text) (hu : u ≠ []) (hlt : u.length < p.length)
    (hprev : u.getLast?.any isWordByte = false) : p.length = u.length + 3 := by
  have hnot : ∀ {l d : List ℕ}, u = l ++ d → d ≠ [] → (∀ c ∈ d, isWordByte c = true) → False := by
    intro l d heq hd hword
    rw [heq, any_getLast? hd hword] at hprev
    cases hprev
  have hszs := p.szs_length
  have hstatus := p.status_length
  unfold Parts.length at hlt ⊢
  rcases List.append_eq_append_iff.1 h with ⟨a, ha, -⟩ | ⟨u₁, hu₁, h₁⟩
  · exact (hnot (List.nil_append u).symm hu fun c hc => p.szs_word (ha ▸ List.mem_append_left a hc)).elim
  rcases List.append_eq_append_iff.1 h₁.symm with ⟨a, ha, htext⟩ | ⟨u₂, hu₂, h₂⟩
  · by_cases hnil : a = []
    · rw [hnil, List.nil_append] at htext
      exact absurd htext (p.ne_status q)
    · exact absurd htext (q.ne_text hnil fun c hc => p.blank c (ha ▸ List.mem_append_right u₁ hc))
  rcases List.append_eq_append_iff.1 h₂.symm with ⟨a, ha, htext⟩ | ⟨u₃, hu₃, h₃⟩
  · by_cases hnil : u₂ = []
    · rw [hnil, List.nil_append] at ha
      exact absurd (ha ▸ htext) (p.ne_status q)
    · refine (hnot (l := p.szs ++ p.blanks) ?_ hnil fun c hc => p.status_word (ha ▸ List.mem_append_left a hc)).elim
      rw [hu₁, hu₂, List.append_assoc]
  rcases List.append_eq_append_iff.1 h₃.symm with ⟨a, ha, htext⟩ | ⟨u₄, hu₄, h₄⟩
  · by_cases hnil : a = []
    · rw [hnil, List.append_nil] at ha
      rw [hnil, List.nil_append] at htext
      have hword : p.word.length = 3 := word_of_inner (f := []) htext.symm (List.length_pos_iff.2 p.word_ne)
      rw [hu₁, hu₂, hu₃, ha, List.length_append, List.length_append, List.length_append, hszs, hstatus, hword]
      omega
    · exact absurd htext (q.ne_text hnil fun c hc => p.blank' c (ha ▸ List.mem_append_right u₃ hc))
  · have hlen : u.length = 3 + p.blanks.length + 6 + p.blanks'.length + u₄.length := by
      rw [hu₁, hu₂, hu₃, hu₄, List.length_append, List.length_append, List.length_append, List.length_append, hszs,
        hstatus]
      omega
    have hword := word_of_inner h₄ (by omega)
    omega

/-- `SZS_STATUS_RE`. -/
def statusPattern : Pattern ℕ (List ℕ) where
  read := statusAt
  pos h := by
    obtain ⟨-, p, -, rfl, -⟩ := parts_of_statusAt h
    unfold Parts.length
    omega
  le h := by
    obtain ⟨-, p, rfl, rfl, -⟩ := parts_of_statusAt h
    rw [p.text_length]
    exact Nat.le_add_right _ _
  near h hn w := statusAt_near h hn w
  nested h hu hlt h' := by
    obtain ⟨-, p, htext, rfl, -⟩ := parts_of_statusAt h
    obtain ⟨hprev, q, rfl, rfl, -⟩ := parts_of_statusAt h'
    rw [length_of_inner htext.symm hu hlt hprev]
    unfold Parts.length
    omega

abbrev Status := Found (List ℕ)

/-- The statuses of a text, with their places. -/
def statuses (t : List ℕ) : List Status := findall statusPattern t

/-! ### Statuses at their places -/

variable {f g : Status}

theorem occurs_iff : Occurs statusPattern t f ↔ ∃ (u : List ℕ) (p : Parts), t = u ++ p.text ∧
    u.getLast?.any isWordByte = false ∧ f = ⟨u.length, u.length + p.length, p.word⟩ := by
  constructor
  · rintro ⟨u, v, n, rfl, hstart, hstop, hread⟩
    obtain ⟨hprev, p, rfl, rfl, hword⟩ := parts_of_statusAt hread
    obtain ⟨start, stop, word⟩ := f
    exact ⟨u, p, rfl, hprev, by simp only at hstart hstop hword; rw [hstart, hstop, hword]⟩
  · rintro ⟨u, p, rfl, hprev, rfl⟩
    exact ⟨u, p.text, p.length, rfl, rfl, rfl, statusAt_of_parts p hprev⟩

/-- The end of a status that another one begins in. -/
theorem stop_of_inner (hf : Occurs statusPattern t f) (hg : Occurs statusPattern t g) (h : g.start < f.start)
    (h' : f.start < g.stop) : g.stop = f.start + 3 := by
  obtain ⟨u, w, v, n, n', -, hgs, hfs, hgstop, hfstop, hgread, hfread⟩ := hf.split hg h.le
  have hw : w ≠ [] := by
    rintro rfl
    rw [List.length_nil] at hfs
    omega
  rw [List.getLast?_append_of_ne_nil u hw] at hfread
  obtain ⟨-, p, htext, rfl, -⟩ := parts_of_statusAt hgread
  obtain ⟨hprev, q, rfl, -, -⟩ := parts_of_statusAt hfread
  have hlen := length_of_inner htext.symm hw (by omega) hprev
  omega

/-- Behind a status there is no byte of a word. -/
theorem not_word_behind (h : Occurs statusPattern (u ++ v) f) (hstop : f.stop = u.length) :
    ∀ c ∈ v.head?, isStatusByte c = false := by
  obtain ⟨x, p, htext, -, rfl⟩ := occurs_iff.1 h
  rw [p.text_eq, ← List.append_assoc] at htext
  obtain ⟨-, rfl⟩ := List.append_inj htext (by rw [List.length_append, p.matched_length]; exact hstop.symm)
  exact p.rest_head

/-- A status in the first part of a text is one in front of another rest too, if its word does not go on there. -/
theorem occurs_front (h : Occurs statusPattern (u ++ v) f) (hstop : f.stop ≤ u.length)
    (hend : f.stop = u.length → ∀ c ∈ w.head?, isStatusByte c = false) : Occurs statusPattern (u ++ w) f := by
  rcases Nat.lt_or_eq_of_le hstop with hlt | heq
  · exact h.near hlt w
  · obtain ⟨x, p, htext, hprev, rfl⟩ := occurs_iff.1 h
    rw [p.text_eq, ← List.append_assoc] at htext
    obtain ⟨rfl, -⟩ := List.append_inj htext (by rw [List.length_append, p.matched_length]; exact heq.symm)
    rw [List.append_assoc]
    exact ⟨x, p.matched ++ w, p.length, rfl, rfl, rfl, statusAt_matched p hprev (hend heq)⟩

/-! ### Blanks in a status -/

theorem append_eq_append_cons {l r front back : List ℕ} (h : l ++ r = front ++ c :: back) :
    (∃ b, l = front ++ c :: b ∧ back = b ++ r) ∨ ∃ a, front = l ++ a ∧ r = a ++ c :: back := by
  rcases List.append_eq_append_iff.1 h with ⟨a, ha, hr⟩ | ⟨b, hl, hback⟩
  · exact .inr ⟨a, ha, hr⟩
  · cases b with
    | nil => exact .inr ⟨[], by rw [hl, List.append_nil, List.append_nil], hback.symm⟩
    | cons d b =>
      obtain ⟨hd, htail⟩ := List.cons.inj hback
      exact .inl ⟨b, hd ▸ hl, htail⟩

/-- A blank in a match is between its words. -/
theorem blank_in_match {front back : List ℕ} (h : p.text = front ++ c :: back) (hc : isBlank c = true)
    (hlt : front.length < p.length) :
    (∃ a b, p.blanks = a ++ c :: b ∧ front = p.szs ++ a ∧
      back = b ++ (p.status ++ (p.blanks' ++ (p.word ++ p.rest)))) ∨
    (∃ a b, p.blanks' = a ++ c :: b ∧ front = p.szs ++ (p.blanks ++ (p.status ++ a)) ∧
      back = b ++ (p.word ++ p.rest)) := by
  have hnot : ∀ {l a b : List ℕ}, (∀ c ∈ l, isStatusByte c = true) → l = a ++ c :: b → False := by
    intro l a b hword hl
    have hstatus := hword c (by simp [hl])
    rw [not_blank_of_status hstatus] at hc
    cases hc
  rcases append_eq_append_cons h with ⟨b, hb, -⟩ | ⟨a₁, rfl, h₁⟩
  · exact (hnot (fun c hc => statusByte_of_word (p.szs_word hc)) hb).elim
  rcases append_eq_append_cons h₁ with ⟨b, hb, hback⟩ | ⟨a₂, rfl, h₂⟩
  · exact .inl ⟨a₁, b, hb, rfl, hback⟩
  rcases append_eq_append_cons h₂ with ⟨b, hb, -⟩ | ⟨a₃, rfl, h₃⟩
  · exact (hnot (fun c hc => statusByte_of_word (p.status_word hc)) hb).elim
  rcases append_eq_append_cons h₃ with ⟨b, hb, hback⟩ | ⟨a₄, rfl, h₄⟩
  · exact .inr ⟨a₃, b, hb, rfl, hback⟩
  rcases append_eq_append_cons h₄ with ⟨b, hb, -⟩ | ⟨a₅, rfl, -⟩
  · exact (hnot p.word_bytes hb).elim
  · have hszs := p.szs_length
    have hstatus := p.status_length
    simp only [List.length_append, Parts.length] at hlt
    omega

/-- Other blanks may stand in the place of a blank. -/
theorem exists_parts_of_blanks {front back : List ℕ} (h : p.text = front ++ c :: back) (hc : isBlank c = true)
    (hlt : front.length < p.length) {m : List ℕ} (hm : m ≠ []) (hblank : ∀ c ∈ m, isBlank c = true) :
    ∃ q : Parts, q.text = front ++ (m ++ back) ∧ q.length + 1 = p.length + m.length ∧ q.word = p.word := by
  have hne : ∀ a b : List ℕ, a ++ (m ++ b) ≠ [] := fun a b hnil =>
    hm (List.append_eq_nil_iff.1 (List.append_eq_nil_iff.1 hnil).2).1
  have hall : ∀ {l a b : List ℕ}, (∀ c ∈ l, isBlank c = true) → l = a ++ c :: b →
      ∀ d ∈ a ++ (m ++ b), isBlank d = true := by
    rintro l a b hl rfl d hd
    simp only [List.mem_append, List.mem_cons] at hl hd
    rcases hd with hd | hd | hd
    · exact hl d (.inl hd)
    · exact hblank d hd
    · exact hl d (.inr (.inr hd))
  rcases blank_in_match h hc hlt with ⟨a, b, hblanks, rfl, rfl⟩ | ⟨a, b, hblanks, rfl, rfl⟩
  · refine ⟨{ p with blanks := a ++ (m ++ b), blank := hall p.blank hblanks, blanks_ne := hne a b }, ?_, ?_, rfl⟩
    · simp only [Parts.text, List.append_assoc]
    · simp only [Parts.length, hblanks, List.length_append, List.length_cons]
      omega
  · refine ⟨{ p with blanks' := a ++ (m ++ b), blank' := hall p.blank' hblanks, blanks'_ne := hne a b }, ?_, ?_, rfl⟩
    · simp only [Parts.text, List.append_assoc]
    · simp only [Parts.length, hblanks, List.length_append, List.length_cons]
      omega

/-- The bytes of a match in front of its word. -/
def Parts.front (p : Parts) : List ℕ := p.szs ++ (p.blanks ++ (p.status ++ p.blanks'))

theorem Parts.front_length (p : Parts) : p.front.length + p.word.length = p.length := by
  simp only [front, length, List.length_append, p.szs_length, p.status_length]
  omega

theorem Parts.text_front (p : Parts) : p.text = p.front ++ (p.word ++ p.rest) := by
  simp only [text, front, List.append_assoc]

/-- Nine of them are not blank. -/
theorem Parts.countP_front (p : Parts) : p.front.countP (fun c => !isBlank c) = 9 := by
  have hword : ∀ {l : List ℕ}, (∀ c ∈ l, isWordByte c = true) → l.countP (fun c => !isBlank c) = l.length := by
    intro l hl
    exact List.countP_eq_length.2 fun c hc => by rw [not_blank_of_status (statusByte_of_word (hl c hc))]; rfl
  have hblank : ∀ {l : List ℕ}, (∀ c ∈ l, isBlank c = true) → l.countP (fun c => !isBlank c) = 0 := by
    intro l hl
    exact List.countP_eq_zero.2 fun c hc => by rw [hl c hc]; exact Bool.false_ne_true
  simp only [front, List.countP_append, hblank p.blank, hblank p.blank', hword fun c hc => p.szs_word hc,
    hword fun c hc => p.status_word hc, p.szs_length, p.status_length]

/-- Nothing else may stand in its place if the status should stay the same. -/
theorem blanks_of_parts {p q : Parts} {front back m : List ℕ} (h : p.text = front ++ c :: back) (hc : isBlank c = true)
    (hlt : front.length < p.length) (hq : q.text = front ++ (m ++ back)) (hlen : q.length + 1 = p.length + m.length)
    (hword : q.word = p.word) : ∀ c ∈ m, isBlank c = true := by
  have hsplit : ∃ b, p.front = front ++ c :: b ∧ back = b ++ (p.word ++ p.rest) := by
    rcases blank_in_match h hc hlt with ⟨a, b, hblanks, rfl, rfl⟩ | ⟨a, b, hblanks, rfl, rfl⟩
    · refine ⟨b ++ (p.status ++ p.blanks'), ?_, ?_⟩
      · simp only [Parts.front, hblanks, List.append_assoc, List.cons_append]
      · simp only [List.append_assoc]
    · refine ⟨b, ?_, rfl⟩
      simp only [Parts.front, hblanks, List.append_assoc]
  obtain ⟨b, hp, rfl⟩ := hsplit
  have hfront : q.front = front ++ (m ++ b) := by
    have hlenq := q.front_length
    have hlenp := p.front_length
    rw [hword] at hlenq
    rw [hp, List.length_append, List.length_cons] at hlenp
    have htext : q.front ++ (q.word ++ q.rest) = (front ++ (m ++ b)) ++ (p.word ++ p.rest) := by
      rw [← q.text_front, hq]
      simp only [List.append_assoc]
    refine (List.append_inj htext ?_).1
    rw [List.length_append, List.length_append]
    omega
  have hcount := q.countP_front
  have hcount' := p.countP_front
  rw [hfront, List.countP_append, List.countP_append] at hcount
  rw [hp, List.countP_append, List.countP_cons, hc] at hcount'
  have hzero : m.countP (fun c => !isBlank c) = 0 := by
    simp only [Bool.not_true, Bool.false_eq_true, if_false] at hcount'
    omega
  intro d hd
  have hd' := List.countP_eq_zero.1 hzero d hd
  simpa using hd'

/-- The parts of a status around the end of the first part of a text. -/
theorem exists_parts_around (hf : Occurs statusPattern (u ++ v) f) (hstart : f.start < u.length)
    (hstop : u.length < f.stop) : ∃ (x front : List ℕ) (p : Parts), u = x ++ front ∧ p.text = front ++ v ∧
      x.getLast?.any isWordByte = false ∧ f = ⟨x.length, x.length + p.length, p.word⟩ ∧ front.length < p.length := by
  obtain ⟨x, p, htext, hprev, rfl⟩ := occurs_iff.1 hf
  simp only at hstart hstop
  obtain ⟨front, rfl⟩ : x <+: u := List.prefix_of_prefix_length_le ⟨p.text, htext.symm⟩ ⟨v, rfl⟩ (by omega)
  rw [List.append_assoc] at htext
  rw [List.length_append] at hstop
  exact ⟨x, front, p, rfl, (List.append_cancel_left htext).symm, hprev, rfl, by omega⟩

/-- The first three bytes of a status stand before any blank in it. -/
theorem szs_before_blank (hf : Occurs statusPattern (u ++ c :: v) f) (hc : isBlank c = true)
    (hstart : f.start < u.length) (hstop : u.length < f.stop) : f.start + 3 ≤ u.length := by
  obtain ⟨x, front, p, rfl, hp, -, rfl, hlt⟩ := exists_parts_around hf hstart hstop
  have hszs := p.szs_length
  rcases blank_in_match hp hc hlt with ⟨a, b, -, rfl, -⟩ | ⟨a, b, -, rfl, -⟩
  · rw [List.length_append, List.length_append]
    simp only
    omega
  · rw [List.length_append, List.length_append]
    simp only
    omega

/-- A status with a blank in it goes on over other bytes in the place of the blank, exactly when they are blanks. -/
theorem occurs_blanks_iff {m : List ℕ} (hf : Occurs statusPattern (u ++ c :: v) f) (hc : isBlank c = true)
    (hstart : f.start < u.length) (hstop : u.length < f.stop) (hm : m ≠ []) :
    Occurs statusPattern (u ++ (m ++ v)) ⟨f.start, f.stop + m.length - 1, f.value⟩ ↔ ∀ c ∈ m, isBlank c = true := by
  obtain ⟨x, front, p, rfl, hp, hprev, rfl, hlt⟩ := exists_parts_around hf hstart hstop
  have hpos : 0 < m.length := List.length_pos_iff.2 hm
  simp only
  constructor
  · intro h
    obtain ⟨y, q, htext, -, heq⟩ := occurs_iff.1 h
    obtain ⟨hstart', hstop', hword⟩ := Found.mk.inj heq
    rw [List.append_assoc] at htext
    obtain ⟨rfl, hq⟩ := List.append_inj htext hstart'
    exact blanks_of_parts hp hc hlt hq.symm (by omega) hword.symm
  · intro hblank
    obtain ⟨q, hq, hlen, hword⟩ := exists_parts_of_blanks hp hc hlt hm hblank
    refine occurs_iff.2 ⟨x, q, ?_, hprev, ?_⟩
    · rw [hq, List.append_assoc]
    · rw [hword]
      congr 1
      omega

end Statuses
end Export
end Slurmy
