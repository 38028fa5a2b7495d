import Mathlib.Data.Char
import Mathlib.Data.List.Infix
import Mathlib.Tactic.TypeStar
import Slurmy.Lib.Gather

/-!
# UTF-8

Texts as bytes, and bytes as texts where what is no UTF-8 is replaced.

* `encode`: the bytes of a text; a byte is a number;
* `step`, `feed`, `decode`: `data.decode("utf-8", "replace")`, one byte after the other;
* `decode_encode`: a text comes back;
* `decode_cut`: the part of a character at the end is replaced by one character;
* `decode_prefix`: the bytes of a text without the last ones.
-/

namespace Utf8

/-! ### Encoding -/

def encodeChar (c : Char) : List ℕ :=
  let v := c.toNat
  if v < 0x80 then [v]
  else if v < 0x800 then [v / 64 + 0xC0, v % 64 + 0x80]
  else if v < 0x10000 then [v / 4096 + 0xE0, v / 64 % 64 + 0x80, v % 64 + 0x80]
  else [v / 262144 + 0xF0, v / 4096 % 64 + 0x80, v / 64 % 64 + 0x80, v % 64 + 0x80]

def encode (t : List Char) : List ℕ := t.flatMap encodeChar

/-! ### Decoding -/

/-- What replaces bytes that are no character. -/
def replacement : Char := Char.ofNat 0xFFFD

/-- A character that has begun: the bytes that are owed, the range of the next one, and the bits so far. -/
structure Pending where
  owed : ℕ
  low : ℕ
  high : ℕ
  value : ℕ

/-- The first byte of a longer character. -/
def lead (b : ℕ) : Option Pending :=
  if 0xC2 ≤ b ∧ b ≤ 0xDF then some ⟨1, 0x80, 0xBF, b - 0xC0⟩
  else if b = 0xE0 then some ⟨2, 0xA0, 0xBF, 0⟩
  else if b = 0xED then some ⟨2, 0x80, 0x9F, 13⟩
  else if 0xE1 ≤ b ∧ b ≤ 0xEF then some ⟨2, 0x80, 0xBF, b - 0xE0⟩
  else if b = 0xF0 then some ⟨3, 0x90, 0xBF, 0⟩
  else if 0xF1 ≤ b ∧ b ≤ 0xF3 then some ⟨3, 0x80, 0xBF, b - 0xF0⟩
  else if b = 0xF4 then some ⟨3, 0x80, 0x8F, 4⟩
  else none

/-- A byte between characters: the characters it gives, and the one it begins. -/
def start (b : ℕ) : List Char × Option Pending :=
  if b < 0x80 then ([Char.ofNat b], none)
  else
    match lead b with
    | some p => ([], some p)
    | none => ([replacement], none)

/-- A byte that does not belong to the character that has begun is looked at again. -/
def step : Option Pending → ℕ → List Char × Option Pending
  | none, b => start b
  | some p, b =>
      if p.low ≤ b ∧ b ≤ p.high then
        if p.owed = 1 then ([Char.ofNat (p.value * 64 + (b - 0x80))], none)
        else ([], some ⟨p.owed - 1, 0x80, 0xBF, p.value * 64 + (b - 0x80)⟩)
      else (replacement :: (start b).1, (start b).2)

def feed : Option Pending → List ℕ → List Char × Option Pending
  | s, [] => ([], s)
  | s, b :: l => ((step s b).1 ++ (feed (step s b).2 l).1, (feed (step s b).2 l).2)

/-- `data.decode("utf-8", "replace")`. -/
def decode (l : List ℕ) : List Char := (feed none l).1 ++ if (feed none l).2.isSome then [replacement] else []

/-! ### Texts come back -/

theorem feed_append (s : Option Pending) (l m : List ℕ) :
    feed s (l ++ m) = ((feed s l).1 ++ (feed (feed s l).2 m).1, (feed (feed s l).2 m).2) := by
  induction l generalizing s with
  | nil => rfl
  | cons b l ih =>
    rw [List.cons_append, feed, ih]
    simp only [feed, List.append_assoc]

theorem step_start (b : ℕ) {p : Pending} (hb : ¬b < 0x80) (h : lead b = some p) : step none b = ([], some p) := by
  show start b = _
  rw [start, if_neg hb, h]

/-- A byte that belongs to the character, but is not its last one. -/
theorem step_more {p : Pending} {b : ℕ} (hlow : p.low ≤ b) (hhigh : b ≤ p.high) (howed : p.owed ≠ 1) :
    step (some p) b = ([], some ⟨p.owed - 1, 0x80, 0xBF, p.value * 64 + (b - 0x80)⟩) := by
  rw [step, if_pos ⟨hlow, hhigh⟩, if_neg howed]

theorem step_last {p : Pending} {b : ℕ} (hlow : p.low ≤ b) (hhigh : b ≤ p.high) (howed : p.owed = 1) :
    step (some p) b = ([Char.ofNat (p.value * 64 + (b - 0x80))], none) := by
  rw [step, if_pos ⟨hlow, hhigh⟩, if_pos howed]

/-- The numbers of characters leave out the surrogates. -/
theorem toNat_bounds (c : Char) : c.toNat < 0xD800 ∨ 0xDFFF < c.toNat ∧ c.toNat < 0x110000 := c.valid

theorem ofNat_toNat (c : Char) {v : ℕ} (h : v = c.toNat) : Char.ofNat v = c := by
  rw [h, Char.ofNat_toNat]

/-- From a character that has begun, the bytes give `c` at their end, and nothing before. -/
def Within (p : Pending) (l : List ℕ) (c : Char) : Prop :=
  feed (some p) l = ([c], none) ∧ ∀ u, u <+: l → u ≠ l → (feed (some p) u).1 = [] ∧ (feed (some p) u).2.isSome = true

section Within

variable {p : Pending} {b : ℕ} {l : List ℕ} {c : Char}

theorem Within.last (hlow : p.low ≤ b) (hhigh : b ≤ p.high) (howed : p.owed = 1)
    (hc : p.value * 64 + (b - 0x80) = c.toNat) : Within p [b] c := by
  refine ⟨by simp only [feed, step_last hlow hhigh howed, ofNat_toNat c hc, List.append_nil], fun u hu hne => ?_⟩
  rcases List.prefix_cons_iff.1 hu with rfl | ⟨u', rfl, hu'⟩
  · exact ⟨rfl, rfl⟩
  · rw [List.prefix_nil.1 hu'] at hne
    exact absurd rfl hne

theorem Within.more (hlow : p.low ≤ b) (hhigh : b ≤ p.high) (howed : p.owed ≠ 1)
    (h : Within ⟨p.owed - 1, 0x80, 0xBF, p.value * 64 + (b - 0x80)⟩ l c) : Within p (b :: l) c := by
  have hstep := step_more hlow hhigh howed
  refine ⟨by simp only [feed, hstep, h.1, List.nil_append], fun u hu hne => ?_⟩
  rcases List.prefix_cons_iff.1 hu with rfl | ⟨u', rfl, hu'⟩
  · exact ⟨rfl, rfl⟩
  · have hrest := h.2 u' hu' fun heq => hne (by rw [heq])
    simpa only [feed, hstep, List.nil_append] using hrest

/-- The bytes of a longer character. -/
theorem Within.start (hb : ¬b < 0x80) (hlead : lead b = some p) (h : Within p l c) : feed none (b :: l) = ([c], none) ∧
    ∀ u, u <+: b :: l → u ≠ [] → u ≠ b :: l → (feed none u).1 = [] ∧ (feed none u).2.isSome = true := by
  have hstep := step_start b hb hlead
  refine ⟨by simp only [feed, hstep, h.1, List.nil_append], fun u hu hnil hne => ?_⟩
  rcases List.prefix_cons_iff.1 hu with rfl | ⟨u', rfl, hu'⟩
  · exact absurd rfl hnil
  · have hrest := h.2 u' hu' fun heq => hne (by rw [heq])
    simpa only [feed, hstep, List.nil_append] using hrest

end Within

/-- The first byte of three leaves out what two bytes can say, and the surrogates. -/
theorem lead_three {v : ℕ} (hv : v < 0xD800 ∨ 0xDFFF < v ∧ v < 0x110000) (hlong : ¬v < 0x800) (hshort : v < 0x10000) :
    ∃ low high, lead (v / 4096 + 0xE0) = some ⟨2, low, high, v / 4096⟩ ∧ low ≤ v / 64 % 64 + 0x80 ∧
      v / 64 % 64 + 0x80 ≤ high := by
  unfold lead
  rw [if_neg (by omega)]
  by_cases hE0 : v / 4096 = 0
  · rw [if_pos (by omega), hE0]
    exact ⟨_, _, rfl, by omega, by omega⟩
  rw [if_neg (by omega)]
  by_cases hED : v / 4096 = 13
  · rw [if_pos (by omega), hED]
    exact ⟨_, _, rfl, by omega, by omega⟩
  rw [if_neg (by omega), if_pos (by omega), Nat.add_sub_cancel]
  exact ⟨_, _, rfl, by omega, by omega⟩

/-- The first byte of four leaves out what three bytes can say, and the numbers that are too large. -/
theorem lead_four {v : ℕ} (hlong : ¬v < 0x10000) (hv : v < 0x110000) :
    ∃ low high, lead (v / 262144 + 0xF0) = some ⟨3, low, high, v / 262144⟩ ∧ low ≤ v / 4096 % 64 + 0x80 ∧
      v / 4096 % 64 + 0x80 ≤ high := by
  unfold lead
  rw [if_neg (by omega), if_neg (by omega), if_neg (by omega), if_neg (by omega)]
  by_cases hF0 : v / 262144 = 0
  · rw [if_pos (by omega), hF0]
    exact ⟨_, _, rfl, by omega, by omega⟩
  rw [if_neg (by omega)]
  by_cases hF4 : v / 262144 = 4
  · rw [if_neg (by omega), if_pos (by omega), hF4]
    exact ⟨_, _, rfl, by omega, by omega⟩
  rw [if_pos (by omega), Nat.add_sub_cancel]
  exact ⟨_, _, rfl, by omega, by omega⟩

/-- What happens on the way through a character. -/
theorem feed_encodeChar (c : Char) : feed none (encodeChar c) = ([c], none) ∧
    ∀ u, u <+: encodeChar c → u ≠ [] → u ≠ encodeChar c → (feed none u).1 = [] ∧ (feed none u).2.isSome = true := by
  have hc := toNat_bounds c
  unfold encodeChar
  dsimp only
  generalize hv : c.toNat = v at hc
  by_cases h₁ : v < 0x80
  · rw [if_pos h₁]
    refine ⟨by simp only [feed, step, start, if_pos h₁, ofNat_toNat c hv.symm, List.append_nil], fun u hu hnil hne => ?_⟩
    rcases List.prefix_cons_iff.1 hu with rfl | ⟨u', rfl, hu'⟩
    · exact absurd rfl hnil
    · rw [List.prefix_nil.1 hu'] at hne
      exact absurd rfl hne
  rw [if_neg h₁]
  by_cases h₂ : v < 0x800
  · have hlead : lead (v / 64 + 0xC0) = some ⟨1, 0x80, 0xBF, v / 64⟩ := by
      rw [lead, if_pos (by omega), Nat.add_sub_cancel]
    rw [if_pos h₂]
    refine Within.start (by omega) hlead (.last ?_ ?_ rfl ?_)
    all_goals
      dsimp only
      omega
  rw [if_neg h₂]
  by_cases h₃ : v < 0x10000
  · obtain ⟨low, high, hlead, hlow, hhigh⟩ := lead_three hc h₂ h₃
    rw [if_pos h₃]
    refine Within.start (by omega) hlead (.more hlow hhigh (show 2 ≠ 1 by decide) (.last ?_ ?_ rfl ?_))
    all_goals
      dsimp only
      omega
  · obtain ⟨low, high, hlead, hlow, hhigh⟩ := lead_four h₃ (by omega)
    rw [if_neg h₃]
    refine Within.start (by omega) hlead (.more hlow hhigh (show 3 ≠ 1 by decide)
      (.more ?_ ?_ (show 2 ≠ 1 by decide) (.last ?_ ?_ rfl ?_)))
    all_goals
      dsimp only
      omega

theorem feed_encode (t : List Char) : feed none (encode t) = (t, none) := by
  induction t with
  | nil => rfl
  | cons c t ih =>
    show feed none (encodeChar c ++ encode t) = _
    rw [feed_append, (feed_encodeChar c).1, ih]
    rfl

theorem decode_encode (t : List Char) : decode (encode t) = t := by
  rw [decode, feed_encode]
  exact List.append_nil t

theorem decode_cut (t : List Char) {c : Char} {u : List ℕ} (hu : u <+: encodeChar c) (hne : u ≠ [])
    (hall : u ≠ encodeChar c) : decode (encode t ++ u) = t ++ [replacement] := by
  obtain ⟨hnone, howed⟩ := (feed_encodeChar c).2 u hu hne hall
  rw [decode, feed_append, feed_encode]
  dsimp only
  rw [hnone, List.append_nil, if_pos howed]

/-! ### Cuts -/

theorem encode_append (t t' : List Char) : encode (t ++ t') = encode t ++ encode t' := List.flatMap_append

theorem encode_singleton (c : Char) : encode [c] = encodeChar c := List.append_nil _

/-- Only a character that is the replacement itself can lose bytes unnoticed. -/
theorem decode_prefix {t : List Char} {u : List ℕ} (hu : u <+: encode t) (hne : u ≠ encode t) :
    decode u = t ↔ ∃ front, t = front ++ [replacement] ∧ (encode front).length < u.length := by
  constructor
  · intro h
    obtain ⟨front, c, rest, v, rfl, rfl, hv, hvne⟩ := Gather.prefix_flatMap hu hne
    by_cases hnil : v = []
    · rw [hnil, List.append_nil] at h
      have hfront : front = front ++ c :: rest := (decode_encode front).symm.trans h
      exact absurd (List.self_eq_append_right.1 hfront) (List.cons_ne_nil c rest)
    · have hcut : decode (encode front ++ v) = front ++ c :: rest := h
      rw [decode_cut front hv hnil hvne] at hcut
      refine ⟨front, hcut.symm, ?_⟩
      rw [List.length_append]
      exact Nat.lt_add_of_pos_right (List.length_pos_iff.2 hnil)
  · rintro ⟨front, rfl, hlen⟩
    rw [encode_append, encode_singleton] at hu hne
    obtain ⟨v, rfl⟩ := List.prefix_of_prefix_length_le (List.prefix_append _ _) hu hlen.le
    have hnil : v ≠ [] := by
      rintro rfl
      rw [List.append_nil] at hlen
      exact lt_irrefl _ hlen
    exact decode_cut front ((List.prefix_append_right_inj _).1 hu) hnil fun heq => hne (by rw [heq])

/-- No other character has a zero. -/
theorem not_mem_encode {t : List Char} (h : Char.ofNat 0 ∉ t) : 0 ∉ encode t := by
  unfold encode
  rw [List.mem_flatMap]
  rintro ⟨c, hc, hzero⟩
  have hne : c.toNat ≠ 0 := fun heq => h (ofNat_toNat c heq.symm ▸ hc)
  unfold encodeChar at hzero
  dsimp only at hzero
  split_ifs at hzero
  all_goals
    simp only [List.mem_cons, List.not_mem_nil, or_false] at hzero
    omega

end Utf8
