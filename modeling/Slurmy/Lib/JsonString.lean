import Mathlib.Data.List.Basic
import Mathlib.Data.UInt

/-!
# JSON strings in ASCII

Strings of code points as JSON writes them in ASCII, with escapes. A lone low surrogate is a code point like
others.

* `point`, `string`: the bytes of a code point and of a string;
* `readPoint`: reads a code point back, and keeps what follows;
* `string_append_inj`: where a string ends is known from its bytes.
-/

namespace JsonString

/-- A hexadecimal digit. -/
def hexDigit (d : ℕ) : UInt8 := if d < 10 then (48 + d).toUInt8 else (87 + d).toUInt8

/-- `\uXXXX`. -/
def escape (n : ℕ) : List UInt8 :=
  [92, 117, hexDigit (n / 4096 % 16), hexDigit (n / 256 % 16), hexDigit (n / 16 % 16), hexDigit (n % 16)]

/-- The letter after the backslash, for the code points that have one. -/
def shortEscape (n : ℕ) : Option UInt8 :=
  if n = 34 then some 34
  else if n = 92 then some 92
  else if n = 10 then some 110
  else if n = 13 then some 114
  else if n = 9 then some 116
  else if n = 8 then some 98
  else if n = 12 then some 102
  else none

/-- A code point. -/
def point (n : ℕ) : List UInt8 :=
  match shortEscape n with
  | some b => [92, b]
  | none =>
      if 32 ≤ n ∧ n ≤ 126 then [n.toUInt8]
      else if n < 65536 then escape n
      else escape (55296 + (n - 65536) / 1024) ++ escape (56320 + (n - 65536) % 1024)

/-- `json.dumps` of a string. -/
def string (s : List ℕ) : List UInt8 := 34 :: (s.flatMap point ++ [34])

/-- A code point that is not a high surrogate. -/
def IsPoint (n : ℕ) : Prop := n < 55296 ∨ (56320 ≤ n ∧ n < 1114112)

instance (n : ℕ) : Decidable (IsPoint n) := by
  unfold IsPoint
  infer_instance

/-! ### Reading -/

def hexValue (b : UInt8) : ℕ := if b.toNat < 58 then b.toNat - 48 else b.toNat - 87

theorem hexValue_hexDigit {d : ℕ} (h : d < 16) : hexValue (hexDigit d) = d := by
  revert d
  decide

/-- `\uXXXX`, and what follows. -/
def readUnit (bs : List UInt8) : Option (ℕ × List UInt8) :=
  if bs.take 2 = [92, 117] then
    some (hexValue (bs.getD 2 0) * 4096 + hexValue (bs.getD 3 0) * 256 + hexValue (bs.getD 4 0) * 16 +
      hexValue (bs.getD 5 0), bs.drop 6)
  else none

def readShort (b : UInt8) : ℕ :=
  if b = 110 then 10 else if b = 114 then 13 else if b = 116 then 9 else if b = 98 then 8 else if b = 102 then 12
  else b.toNat

/-- A code point, and what follows. -/
def readPoint (bs : List UInt8) : Option (ℕ × List UInt8) :=
  match readUnit bs with
  | some (high, rest) =>
      if 55296 ≤ high ∧ high < 56320 then
        (readUnit rest).map fun low => (65536 + (high - 55296) * 1024 + (low.1 - 56320), low.2)
      else some (high, rest)
  | none =>
      match bs with
      | [] => none
      | b :: bs => if b = 92 then some (readShort (bs.getD 0 0), bs.drop 1) else some (b.toNat, bs)

theorem readUnit_escape {n : ℕ} (h : n < 65536) (rest : List UInt8) :
    readUnit (escape n ++ rest) = some (n, rest) := by
  have hvalue : hexValue (hexDigit (n / 4096 % 16)) * 4096 + hexValue (hexDigit (n / 256 % 16)) * 256 +
      hexValue (hexDigit (n / 16 % 16)) * 16 + hexValue (hexDigit (n % 16)) = n := by
    rw [hexValue_hexDigit (by omega), hexValue_hexDigit (by omega), hexValue_hexDigit (by omega),
      hexValue_hexDigit (by omega)]
    omega
  have htake : (escape n ++ rest).take 2 = [92, 117] := rfl
  unfold readUnit
  rw [if_pos htake]
  exact congrArg (fun m => some (m, rest)) hvalue

theorem shortEscape_spec {n : ℕ} {b : UInt8} (h : shortEscape n = some b) : readShort b = n ∧ b ≠ 117 := by
  unfold shortEscape at h
  split_ifs at h with h1 h2 h3 h4 h5 h6 h7
  all_goals
    cases h
    subst_vars
    decide

theorem readPoint_point {n : ℕ} (h : IsPoint n) (rest : List UInt8) : readPoint (point n ++ rest) = some (n, rest) := by
  unfold point
  cases hshort : shortEscape n with
  | some b =>
    obtain ⟨hread, hne⟩ := shortEscape_spec hshort
    have hunit : readUnit (92 :: b :: rest) = none := by
      unfold readUnit
      rw [if_neg]
      intro heq
      cases heq
      exact hne rfl
    show readPoint (92 :: b :: rest) = _
    unfold readPoint
    rw [hunit]
    exact congrArg (fun m => some (m, rest)) hread
  | none =>
    dsimp only
    split_ifs with hplain hsmall
    · have hbyte : n.toUInt8.toNat = n := by
        rw [Nat.toUInt8, UInt8.toNat_ofNat']
        omega
      have hne : n.toUInt8 ≠ 92 := by
        intro heq
        rw [heq] at hbyte
        rw [← hbyte] at hshort
        cases hshort
      have hunit : readUnit (n.toUInt8 :: rest) = none := by
        unfold readUnit
        rw [if_neg]
        intro heq
        rw [List.take_succ_cons, List.cons.injEq] at heq
        exact hne heq.1
      show readPoint (n.toUInt8 :: rest) = _
      unfold readPoint
      rw [hunit]
      dsimp only
      rw [if_neg hne, hbyte]
    · unfold readPoint
      rw [readUnit_escape hsmall]
      dsimp only
      rw [if_neg]
      rcases h with h | h <;> omega
    · have hbound : n < 1114112 := by rcases h with h | h <;> omega
      unfold readPoint
      rw [List.append_assoc, readUnit_escape (by omega)]
      dsimp only
      have hvalue : 65536 + (55296 + (n - 65536) / 1024 - 55296) * 1024 + (56320 + (n - 65536) % 1024 - 56320) = n := by
        omega
      rw [if_pos (by omega), readUnit_escape (by omega)]
      exact congrArg (fun m => some (m, rest)) hvalue

/-! ### Strings -/

theorem point_ne_nil (n : ℕ) : point n ≠ [] := by
  unfold point
  cases shortEscape n with
  | some b => exact List.cons_ne_nil _ _
  | none =>
    dsimp only
    split_ifs
    · exact List.cons_ne_nil _ _
    · exact List.cons_ne_nil _ _
    · exact List.cons_ne_nil _ _

/-- No code point begins with a quotation mark. -/
theorem head_point (n : ℕ) : (point n).head? ≠ some 34 := by
  unfold point
  cases hshort : shortEscape n with
  | some b =>
    intro heq
    cases heq
  | none =>
    dsimp only
    split_ifs with hplain
    · intro heq
      have hbyte : n.toUInt8.toNat = n := by
        rw [Nat.toUInt8, UInt8.toNat_ofNat']
        omega
      rw [Option.some.inj heq] at hbyte
      rw [← hbyte] at hshort
      cases hshort
    · intro heq
      cases heq
    · intro heq
      cases heq

theorem points_append_inj {s t : List ℕ} (hs : ∀ n ∈ s, IsPoint n) (ht : ∀ n ∈ t, IsPoint n) {x y : List UInt8}
    (h : s.flatMap point ++ 34 :: x = t.flatMap point ++ 34 :: y) : s = t ∧ x = y := by
  have hhead : ∀ (n : ℕ) (u v : List UInt8), 34 :: u ≠ point n ++ v := by
    intro n u v heq
    apply head_point n
    obtain ⟨b, bs, hb⟩ := List.exists_cons_of_ne_nil (point_ne_nil n)
    rw [hb] at heq ⊢
    rw [List.head?_cons, (List.cons.inj heq).1]
  induction s generalizing t with
  | nil =>
    cases t with
    | nil => exact ⟨rfl, (List.cons.inj h).2⟩
    | cons n t =>
      rw [List.flatMap_cons, List.append_assoc] at h
      exact absurd h (hhead n _ _)
  | cons m s ih =>
    rw [List.flatMap_cons, List.append_assoc] at h
    cases t with
    | nil => exact absurd h.symm (hhead m _ _)
    | cons n t =>
      rw [List.flatMap_cons, List.append_assoc] at h
      have hread := congrArg readPoint h
      rw [readPoint_point (hs m List.mem_cons_self), readPoint_point (ht n List.mem_cons_self), Option.some.injEq,
        Prod.mk.injEq] at hread
      obtain ⟨rfl, rfl⟩ := ih (fun c hc => hs c (List.mem_cons_of_mem m hc))
        (fun c hc => ht c (List.mem_cons_of_mem n hc)) hread.2
      exact ⟨congrArg (· :: s) hread.1, rfl⟩

/-- The end of a string is known from its bytes. -/
theorem string_append_inj {s t : List ℕ} (hs : ∀ n ∈ s, IsPoint n) (ht : ∀ n ∈ t, IsPoint n) {x y : List UInt8}
    (h : string s ++ x = string t ++ y) : s = t ∧ x = y := by
  apply points_append_inj hs ht
  have htail : (s.flatMap point ++ [34]) ++ x = (t.flatMap point ++ [34]) ++ y := (List.cons.inj h).2
  rwa [List.append_assoc, List.append_assoc] at htail

end JsonString
