import Mathlib.Data.List.Basic
import Mathlib.Tactic.TypeStar

/-!
# Base64

Bytes as texts of the standard alphabet, with padding, and back.

* `digit`, `value`: the alphabet;
* `encode`: `base64 -w0`;
* `decode`: `b64decode(text, validate=True)`;
* `decode_encode`: bytes come back;
* `mem_encode`: the characters of a text.
-/

namespace Base64

def alphabet : List Char := "ABCDEFGHIJKLMNOPQRSTUVWXYZabcdefghijklmnopqrstuvwxyz0123456789+/".toList

def digit (n : ℕ) : Char := alphabet.getD n '='

def value (c : Char) : Option ℕ := if c ∈ alphabet then some (alphabet.idxOf c) else none

/-- A byte is a number. -/
def encode : List ℕ → List Char
  | a :: b :: c :: l =>
      digit (a / 4) :: digit (a % 4 * 16 + b / 16) :: digit (b % 16 * 4 + c / 64) :: digit (c % 64) :: encode l
  | [a, b] => [digit (a / 4), digit (a % 4 * 16 + b / 16), digit (b % 16 * 4), '=']
  | [a] => [digit (a / 4), digit (a % 4 * 16), '=', '=']
  | [] => []

/-- The bits of padded groups that belong to no byte are not looked at. -/
def decode : List Char → Option (List ℕ)
  | w :: x :: y :: z :: l =>
      (value w).bind fun w => (value x).bind fun x =>
        if z = '=' then
          if l ≠ [] then none
          else if y = '=' then some [w * 4 + x / 16]
          else (value y).map fun y => [w * 4 + x / 16, x % 16 * 16 + y / 4]
        else (value y).bind fun y => (value z).bind fun z => (decode l).map fun bytes =>
          (w * 4 + x / 16) :: (x % 16 * 16 + y / 4) :: (y % 4 * 64 + z) :: bytes
  | [] => some []
  | _ => none

theorem value_digit {n : ℕ} (h : n < 64) : value (digit n) = some n := by
  have hall : ∀ n : Fin 64, value (digit n) = some n.val := by decide +kernel
  exact hall ⟨n, h⟩

theorem digit_mem {n : ℕ} (h : n < 64) : digit n ∈ alphabet := by
  have hall : ∀ n : Fin 64, digit n ∈ alphabet := by decide +kernel
  exact hall ⟨n, h⟩

theorem digit_ne {n : ℕ} (h : n < 64) : digit n ≠ '=' := by
  intro heq
  have hmem := digit_mem h
  rw [heq] at hmem
  exact absurd hmem (by decide)

theorem decode_encode {l : List ℕ} (h : ∀ b ∈ l, b < 256) : decode (encode l) = some l := by
  induction l using encode.induct with
  | case1 a b c l ih =>
    simp only [List.forall_mem_cons] at h
    obtain ⟨ha, hb, hc, hl⟩ := h
    have hw : a / 4 < 64 := by omega
    have hx : a % 4 * 16 + b / 16 < 64 := by omega
    have hy : b % 16 * 4 + c / 64 < 64 := by omega
    have hz : c % 64 < 64 := by omega
    rw [encode, decode, value_digit hw, value_digit hx, value_digit hy, value_digit hz, ih hl, Option.bind_some,
      Option.bind_some, if_neg (digit_ne hz), Option.bind_some, Option.bind_some, Option.map_some]
    congr 2
    · omega
    · congr 1
      · omega
      · congr 1
        omega
  | case2 a b =>
    simp only [List.forall_mem_cons] at h
    obtain ⟨ha, hb, -⟩ := h
    have hw : a / 4 < 64 := by omega
    have hx : a % 4 * 16 + b / 16 < 64 := by omega
    have hy : b % 16 * 4 < 64 := by omega
    rw [encode, decode, value_digit hw, value_digit hx, value_digit hy, Option.bind_some, Option.bind_some, if_pos rfl,
      if_neg (fun hne => hne rfl), if_neg (digit_ne hy), Option.map_some]
    congr 2
    · omega
    · congr 1
      omega
  | case3 a =>
    have ha := h a List.mem_cons_self
    have hw : a / 4 < 64 := by omega
    have hx : a % 4 * 16 < 64 := by omega
    rw [encode, decode, value_digit hw, value_digit hx, Option.bind_some, Option.bind_some, if_pos rfl,
      if_neg (fun hne => hne rfl), if_pos rfl]
    congr 2
    omega
  | case4 => rfl

/-- Only the alphabet and the padding are written. -/
theorem mem_encode {l : List ℕ} (h : ∀ b ∈ l, b < 256) : ∀ c ∈ encode l, c ∈ '=' :: alphabet := by
  have hdigit {n : ℕ} (hn : n < 64) : digit n ∈ '=' :: alphabet := List.mem_cons_of_mem _ (digit_mem hn)
  induction l using encode.induct with
  | case1 a b c l ih =>
    simp only [List.forall_mem_cons] at h
    obtain ⟨ha, hb, hc, hl⟩ := h
    simp only [encode, List.forall_mem_cons]
    exact ⟨hdigit (by omega), hdigit (by omega), hdigit (by omega), hdigit (by omega), ih hl⟩
  | case2 a b =>
    simp only [List.forall_mem_cons] at h
    obtain ⟨ha, hb, -⟩ := h
    simp only [encode, List.forall_mem_cons]
    exact ⟨hdigit (by omega), hdigit (by omega), hdigit (by omega), List.mem_cons_self, fun c hc => absurd hc List.not_mem_nil⟩
  | case3 a =>
    have ha := h a List.mem_cons_self
    simp only [encode, List.forall_mem_cons]
    exact ⟨hdigit (by omega), hdigit (by omega), List.mem_cons_self, List.mem_cons_self, fun c hc => absurd hc List.not_mem_nil⟩
  | case4 => exact fun c hc => absurd hc List.not_mem_nil

end Base64
