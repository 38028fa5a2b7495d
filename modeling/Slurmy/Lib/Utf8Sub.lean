import Slurmy.Lib.Replace
import Slurmy.Lib.Utf8

/-!
# Replacing in UTF-8

A word of a text is replaced in the text's bytes.

* `encode_prefix_iff`: the bytes begin with those of a word exactly if the text begins with the word;
* `sub_encode`: replacing in the bytes replaces in the text.
-/

namespace Utf8

open Replace (occurs sub)

variable {w n t u : List Char} {c d : Char} {ahead : Option ℕ → Bool}

/-- Only the first byte of a character can begin one. -/
theorem encodeChar_cases (c : Char) :
    ∃ b l, encodeChar c = b :: l ∧ (b < 0x80 ∨ 0xC0 ≤ b) ∧ ∀ a ∈ l, 0x80 ≤ a ∧ a < 0xC0 := by
  unfold encodeChar
  dsimp only
  split_ifs with h₁ h₂ h₃
  · exact ⟨_, _, rfl, .inl h₁, fun a ha => absurd ha List.not_mem_nil⟩
  all_goals
    refine ⟨_, _, rfl, .inr (by omega), fun a ha => ?_⟩
    simp only [List.mem_cons, List.not_mem_nil, or_false] at ha
    omega

theorem encodeChar_ne_nil (c : Char) : encodeChar c ≠ [] := by
  obtain ⟨b, l, h, -⟩ := encodeChar_cases c
  rw [h]
  exact List.cons_ne_nil b l

theorem encode_cons (c : Char) (t : List Char) : encode (c :: t) = encodeChar c ++ encode t := rfl

/-- No character's bytes begin those of another one. -/
theorem encodeChar_inj {l m : List ℕ} (h : encodeChar c ++ l = encodeChar d ++ m) : c = d := by
  have hone {c d : Char} (hstart : encodeChar c <+: encodeChar d) : c = d := by
    obtain ⟨r, hr⟩ := hstart
    have hfeed := (feed_encodeChar d).1
    rw [← hr, feed_append, (feed_encodeChar c).1, Prod.mk.injEq] at hfeed
    exact (List.cons.inj hfeed.1).1
  rcases List.prefix_or_prefix_of_prefix (List.prefix_append (encodeChar c) l) (h ▸ List.prefix_append (encodeChar d) m)
    with hstart | hstart
  · exact hone hstart
  · exact (hone hstart).symm

theorem encode_prefix_iff : encode w <+: encode t ↔ w <+: t := by
  constructor
  · intro h
    induction w generalizing t with
    | nil => exact List.nil_prefix
    | cons c w ih =>
      obtain ⟨r, hr⟩ := h
      rw [encode_cons, List.append_assoc] at hr
      cases t with
      | nil => exact absurd (List.append_eq_nil_iff.mp hr).1 (encodeChar_ne_nil c)
      | cons d t =>
        rw [encode_cons] at hr
        obtain rfl := encodeChar_inj hr
        exact List.cons_prefix_cons.mpr ⟨rfl, ih ⟨r, List.append_cancel_left hr⟩⟩
  · rintro ⟨r, rfl⟩
    rw [encode_append]
    exact List.prefix_append _ _

/-- The byte that follows, of the character that follows. -/
def firstByte (c : Option Char) : Option ℕ := c.bind fun c => (encodeChar c).head?

theorem head_encode (t : List Char) : (encode t).head? = firstByte t.head? := by
  cases t with
  | nil => rfl
  | cons c t =>
    obtain ⟨b, l, h, -⟩ := encodeChar_cases c
    show (encodeChar c ++ encode t).head? = (encodeChar c).head?
    rw [h]
    rfl

theorem occurs_encode (w t : List Char) :
    occurs (encode w) ahead (encode t) = occurs w (fun c => ahead (firstByte c)) t := by
  by_cases h : w <+: t
  · obtain ⟨r, rfl⟩ := h
    unfold Replace.occurs
    rw [encode_append, List.drop_left, List.drop_left, head_encode, decide_eq_true (List.prefix_append w r),
      decide_eq_true (List.prefix_append (encode w) (encode r))]
  · unfold Replace.occurs
    rw [decide_eq_false h, decide_eq_false (fun hstart => h (encode_prefix_iff.mp hstart)), Bool.false_and, Bool.false_and]

/-- A word begins at no other byte of a character than its first one. -/
theorem not_occurs_of_more (hw : w ≠ []) {a : ℕ} {l : List ℕ} (ha : 0x80 ≤ a ∧ a < 0xC0) :
    occurs (encode w) ahead (a :: l) = false := by
  obtain ⟨c, w, rfl⟩ := List.exists_cons_of_ne_nil hw
  obtain ⟨b, l', hb, hfirst, -⟩ := encodeChar_cases c
  unfold Replace.occurs
  rw [encode_cons, hb, List.cons_append, Bool.and_eq_false_iff]
  refine .inl (decide_eq_false fun hstart => ?_)
  have hab := (List.cons_prefix_cons.mp hstart).1
  omega

/-- Replacing in the bytes replaces in the text. -/
theorem sub_encode (hw : w ≠ []) (t : List Char) :
    sub (encode w) (encode n) ahead 0 (encode t) = encode (sub w n (fun c => ahead (firstByte c)) 0 t) := by
  have hbytes : encode w ≠ [] := by
    obtain ⟨c, w, rfl⟩ := List.exists_cons_of_ne_nil hw
    exact List.append_ne_nil_of_left_ne_nil (encodeChar_ne_nil c) _
  induction hlength : t.length using Nat.strong_induction_on generalizing t with
  | _ k ih =>
    subst hlength
    by_cases hoccurs : occurs w (fun c => ahead (firstByte c)) t = true
    · obtain ⟨z, rfl, hz⟩ := Replace.occurs_start hoccurs
      have hlt : z.length < (w ++ z).length := by
        have hpos := List.length_pos_of_ne_nil hw
        rw [List.length_append]
        omega
      rw [encode_append, Replace.sub_append_left hbytes (by rwa [head_encode]), Replace.sub_append_left hw hz,
        ih z.length hlt z rfl, encode_append]
    · rw [Bool.not_eq_true] at hoccurs
      cases t with
      | nil => rfl
      | cons c t =>
        have hfirst : occurs (encode w) ahead (encodeChar c ++ encode t) = false :=
          (occurs_encode w (c :: t)).trans hoccurs
        obtain ⟨b, l, hb, -, hmore⟩ := encodeChar_cases c
        have hnot : ∀ v s, encodeChar c = v ++ s → s ≠ [] → occurs (encode w) ahead (s ++ encode t) = false := by
          intro v s hv hs
          cases v with
          | nil => rwa [← List.nil_append s, ← hv]
          | cons a v =>
            obtain ⟨a', s, rfl⟩ := List.exists_cons_of_ne_nil hs
            rw [hb] at hv
            exact not_occurs_of_more hw (hmore a' ((List.cons.inj hv).2 ▸ List.mem_append_right v List.mem_cons_self))
        rw [encode_cons, Replace.sub_append_of_not hnot, Replace.sub_cons_of_not hoccurs, encode_cons,
          ih t.length (Nat.lt_succ_self _) t rfl]

end Utf8
