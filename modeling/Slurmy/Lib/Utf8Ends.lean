import Mathlib.Data.List.TakeDrop
import Slurmy.Lib.Utf8

/-!
# The ends of a text

The bytes of a text are cut where no character need end.

* `cut`: a cut goes through one character, or between two;
* `decode_take`, `decode_drop`: what is read of the two parts;
* `decode_between`: a text between two parts is read as it is.
-/

namespace Utf8

/-! ### Cuts through a character -/

/-- The bytes behind the first one. -/
theorem mem_tail_encodeChar (c : Char) : ∀ b ∈ (encodeChar c).tail, 0x80 ≤ b ∧ b < 0xC0 := by
  unfold encodeChar
  dsimp only
  intro b hb
  split_ifs at hb
  · cases hb
  all_goals
    simp only [List.tail_cons, List.mem_cons, List.not_mem_nil, or_false] at hb
    omega

theorem length_encodeChar (c : Char) : (encodeChar c).length ≤ 4 := by
  unfold encodeChar
  dsimp only
  split_ifs
  all_goals simp

theorem mem_encode_lt (t : List Char) : ∀ b ∈ encode t, b < 256 := by
  intro b hb
  obtain ⟨c, -, hb⟩ := List.mem_flatMap.1 hb
  have hc := toNat_bounds c
  unfold encodeChar at hb
  dsimp only at hb
  split_ifs at hb
  all_goals
    simp only [List.mem_cons, List.not_mem_nil, or_false] at hb
    omega

/-- The character in which the bytes are cut; `u` are its first ones. -/
theorem cut {t : List Char} {n : ℕ} (hn : n < (encode t).length) : ∃ front c rest u v, t = front ++ c :: rest ∧
    encodeChar c = u ++ v ∧ v ≠ [] ∧ (encode t).take n = encode front ++ u ∧ (encode t).drop n = v ++ encode rest := by
  have hne : (encode t).take n ≠ encode t := by
    intro heq
    have hlen := congrArg List.length heq
    rw [List.length_take] at hlen
    omega
  obtain ⟨front, c, rest, u, rfl, htake, ⟨v, hv⟩, hu⟩ := Gather.prefix_flatMap (List.take_prefix n (encode t)) hne
  have hsplit : encode front ++ u ++ (encode (front ++ c :: rest)).drop n = encode front ++ u ++ (v ++ encode rest) := by
    rw [show encode front ++ u = (encode (front ++ c :: rest)).take n from htake.symm, List.take_append_drop, htake]
    show (front ++ c :: rest).flatMap encodeChar = _
    rw [List.flatMap_append, List.flatMap_cons, ← hv, List.append_assoc, List.append_assoc]
    rfl
  refine ⟨front, c, rest, u, v, rfl, hv.symm, ?_, htake, List.append_cancel_left hsplit⟩
  rintro rfl
  rw [List.append_nil] at hv
  exact hu hv

/-- Each byte that belongs to no character is replaced. -/
theorem decode_continuation {v : List ℕ} (hv : ∀ b ∈ v, 0x80 ≤ b ∧ b < 0xC0) (t : List Char) :
    decode (v ++ encode t) = List.replicate v.length replacement ++ t := by
  have hfeed : feed none (v ++ encode t) = (List.replicate v.length replacement ++ t, none) := by
    induction v with
    | nil => exact feed_encode t
    | cons b v ih =>
      obtain ⟨⟨hlow, hhigh⟩, hv⟩ := List.forall_mem_cons.1 hv
      have hlead : lead b = none := by
        unfold lead
        rw [if_neg (by omega), if_neg (by omega), if_neg (by omega), if_neg (by omega), if_neg (by omega),
          if_neg (by omega), if_neg (by omega)]
      have hstart : start b = ([replacement], none) := by rw [start, if_neg (by omega), hlead]
      simp only [List.cons_append, feed, step, hstart, ih hv, List.nil_append, List.length_cons, List.replicate_succ]
  rw [decode, hfeed]
  exact List.append_nil _

/-- The first bytes give the first characters. -/
theorem decode_take {t : List Char} {n : ℕ} (hn : n < (encode t).length) : ∃ front rest k, t = front ++ rest ∧ k ≤ 1 ∧
    decode ((encode t).take n) = front ++ List.replicate k replacement ∧ (encode front).length ≤ n ∧
    n < (encode front).length + 4 := by
  obtain ⟨front, c, rest, u, v, rfl, hc, hv, htake, -⟩ := cut hn
  have hlength : n = (encode front).length + u.length := by
    have hlen := congrArg List.length htake
    rw [List.length_take, List.length_append] at hlen
    omega
  have hu : u.length < 4 := by
    have hlen := congrArg List.length hc
    rw [List.length_append] at hlen
    have hpos := List.length_pos_iff.2 hv
    have hfour := length_encodeChar c
    omega
  by_cases hnil : u = []
  · refine ⟨front, c :: rest, 0, rfl, by omega, ?_, by omega, by omega⟩
    rw [htake, hnil, List.append_nil, decode_encode]
    exact (List.append_nil front).symm
  · refine ⟨front, c :: rest, 1, rfl, by omega, ?_, by omega, by omega⟩
    rw [htake]
    refine decode_cut front ⟨v, hc.symm⟩ hnil fun heq => hv ?_
    rw [heq] at hc
    exact List.self_eq_append_right.1 hc

/-- The last bytes give the last characters. -/
theorem decode_drop {t : List Char} {n : ℕ} (hn : n < (encode t).length) : ∃ rest back k, t = rest ++ back ∧ k ≤ 3 ∧
    decode ((encode t).drop n) = List.replicate k replacement ++ back ∧
    (encode back).length ≤ (encode t).length - n ∧ (encode t).length - n < (encode back).length + 4 := by
  obtain ⟨front, c, rest, u, v, rfl, hc, hv, -, hdrop⟩ := cut hn
  have hlength := congrArg List.length hdrop
  rw [List.length_drop, List.length_append] at hlength
  by_cases hnil : u = []
  · rw [hnil, List.nil_append] at hc
    have hwhole : v ++ encode rest = encode (c :: rest) := by
      rw [← hc]
      rfl
    refine ⟨front, c :: rest, 0, rfl, by omega, ?_, ?_, ?_⟩
    · rw [hdrop, hwhole, decode_encode]
      rfl
    · rw [hlength, ← hwhole, List.length_append]
    · rw [hlength, ← hwhole, List.length_append]
      omega
  · have htail : ∀ b ∈ v, 0x80 ≤ b ∧ b < 0xC0 := by
      intro b hb
      obtain ⟨a, u, rfl⟩ := List.exists_cons_of_ne_nil hnil
      refine mem_tail_encodeChar c b ?_
      rw [hc]
      exact List.mem_append_right u hb
    have hshort : v.length ≤ 3 := by
      have hlen := congrArg List.length hc
      rw [List.length_append] at hlen
      have hpos := List.length_pos_iff.2 hnil
      have hfour := length_encodeChar c
      omega
    refine ⟨front ++ [c], rest, v.length, ?_, hshort, ?_, by omega, by omega⟩
    · rw [List.append_assoc]
      rfl
    · rw [hdrop, decode_continuation htail]

/-! ### A text between two parts -/

theorem low_step {s : Option Pending} (hs : ∀ p ∈ s, 0x80 ≤ p.low) (b : ℕ) : ∀ p ∈ (step s b).2, 0x80 ≤ p.low := by
  have hstart : ∀ p ∈ (start b).2, 0x80 ≤ p.low := by
    intro p hp
    unfold start at hp
    split_ifs at hp
    · cases hp
    · cases hlead : lead b with
      | none =>
        rw [hlead] at hp
        cases hp
      | some q =>
        rw [hlead] at hp
        obtain rfl : q = p := Option.some.inj hp
        unfold lead at hlead
        split_ifs at hlead
        all_goals
          obtain rfl := Option.some.inj hlead
          dsimp only
          omega
  cases s with
  | none => exact hstart
  | some q =>
    intro p hp
    unfold step at hp
    dsimp only at hp
    split_ifs at hp
    · cases hp
    · obtain rfl := Option.some.inj hp
      exact le_rfl
    · exact hstart p hp

theorem low_feed (l : List ℕ) {s : Option Pending} (hs : ∀ p ∈ s, 0x80 ≤ p.low) : ∀ p ∈ (feed s l).2, 0x80 ≤ p.low := by
  induction l generalizing s with
  | nil => exact hs
  | cons b l ih => exact ih (low_step hs b)

/-- A character of one byte ends what has begun before it. -/
theorem decode_ascii {b : ℕ} (hb : b < 0x80) (l m : List ℕ) : decode (l ++ b :: m) = decode l ++ Char.ofNat b :: decode m := by
  have hstart : start b = ([Char.ofNat b], none) := if_pos hb
  cases hs : (feed none l).2 with
  | none =>
    have hstep : step none b = ([Char.ofNat b], none) := hstart
    simp [decode, feed_append, hs, feed, hstep]
  | some p =>
    have hlow := low_feed l (fun p hp => absurd hp (Option.not_mem_none p)) p hs
    have hstep : step (some p) b = ([replacement, Char.ofNat b], none) := by
      rw [step, if_neg (by omega), hstart]
    simp [decode, feed_append, hs, feed, hstep]

/-- A text that begins with such a character is read as it is between any two parts. -/
theorem decode_between {c : Char} (hc : c.toNat < 0x80) (t : List Char) (l m : List ℕ) :
    decode (l ++ encode (c :: t) ++ m) = decode l ++ c :: t ++ decode m := by
  have hbytes : encode (c :: t) = c.toNat :: encode t := by
    show encodeChar c ++ encode t = _
    rw [encodeChar, if_pos hc]
    rfl
  have hrest : decode (encode t ++ m) = t ++ decode m := by
    simp [decode, feed_append, feed_encode]
  rw [hbytes, List.append_assoc, List.cons_append, decode_ascii hc, Char.ofNat_toNat, hrest, List.append_assoc]
  rfl

end Utf8
