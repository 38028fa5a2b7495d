import Mathlib.Data.List.Basic
import Slurmy.Lib.Dict

/-!
# JSON

* `Json`, `Json.get`, `Json.truthy`: values as `json.loads` makes them;
* `readString`, `readNumber`, `readValue`, `loads`: the reader.
-/

/-- A number keeps its text; the fields of an object are in the order of their first appearance. -/
inductive Json
  | null
  | bool (b : Bool)
  | number (t : List Char)
  | string (s : List Char)
  | array (items : List Json)
  | object (fields : List (List Char × Json))

namespace Json

/-- `record.get(name)` of a dictionary. -/
def get : Json → List Char → Option Json
  | .object fields, name => fields.lookup name
  | _, _ => none

/-- `bool(value)`. -/
def truthy : Json → Bool
  | .null => false
  | .bool b => b
  | .number t => (t.takeWhile fun c => c ≠ 'e' ∧ c ≠ 'E').any fun c => c ≠ '0' ∧ c ≠ '.' ∧ c ≠ '-'
  | .string s => s ≠ []
  | .array items => ¬ items.isEmpty
  | .object fields => ¬ fields.isEmpty

/-! ### Reading -/

def isSpace (c : Char) : Bool := c ∈ [' ', '\t', '\n', '\r']

def skip (t : List Char) : List Char := t.dropWhile isSpace

def hexDigit (c : Char) : Option ℕ :=
  if '0' ≤ c ∧ c ≤ '9' then some (c.toNat - 48)
  else if 'a' ≤ c ∧ c ≤ 'f' then some (c.toNat - 87)
  else if 'A' ≤ c ∧ c ≤ 'F' then some (c.toNat - 55)
  else none

/-- The four digits behind `\u`. -/
def readUnit : List Char → Option (ℕ × List Char)
  | a :: b :: c :: d :: t => do
      let a ← hexDigit a
      let b ← hexDigit b
      let c ← hexDigit c
      let d ← hexDigit d
      return (a * 4096 + b * 256 + c * 16 + d, t)
  | _ => none

def unescape (c : Char) : Option Char :=
  match c with
  | '"' => some '"'
  | '\\' => some '\\'
  | '/' => some '/'
  | 'b' => some '\x08'
  | 'f' => some '\x0c'
  | 'n' => some '\n'
  | 'r' => some '\r'
  | 't' => some '\t'
  | _ => none

/-- The rest of a string, up to its quotation mark; a lone surrogate is no character. -/
def readString : ℕ → List Char → Option (List Char × List Char)
  | 0, _ => none
  | _ + 1, [] => none
  | _ + 1, '"' :: t => some ([], t)
  | fuel + 1, '\\' :: 'u' :: t => do
      let (high, t) ← readUnit t
      if 55296 ≤ high ∧ high < 57344 then
        match t with
        | '\\' :: 'u' :: t => do
            let (low, t) ← readUnit t
            if high < 56320 ∧ 56320 ≤ low ∧ low < 57344 then
              let (s, t) ← readString fuel t
              return (Char.ofNat (65536 + (high - 55296) * 1024 + (low - 56320)) :: s, t)
            else none
        | _ => none
      else
        let (s, t) ← readString fuel t
        return (Char.ofNat high :: s, t)
  | fuel + 1, '\\' :: c :: t => do
      let c ← unescape c
      let (s, t) ← readString fuel t
      return (c :: s, t)
  | fuel + 1, c :: t => do
      if c = '\\' ∨ c.toNat < 32 then none
      else
        let (s, t) ← readString fuel t
        return (c :: s, t)

def isDigit (c : Char) : Bool := '0' ≤ c ∧ c ≤ '9'

/-- The digits behind a sign, if there is at least one. -/
def readFraction (t : List Char) : List Char × List Char :=
  match t with
  | '.' :: c :: t => if isDigit c then ('.' :: c :: t.takeWhile isDigit, t.dropWhile isDigit) else ([], '.' :: c :: t)
  | t => ([], t)

def readExponent (t : List Char) : List Char × List Char :=
  match t with
  | e :: s :: c :: u =>
      if e = 'e' ∨ e = 'E' then
        if isDigit s then (e :: s :: (c :: u).takeWhile isDigit, (c :: u).dropWhile isDigit)
        else if (s = '+' ∨ s = '-') ∧ isDigit c then (e :: s :: c :: u.takeWhile isDigit, u.dropWhile isDigit)
        else ([], t)
      else ([], t)
  | [e, c] => if (e = 'e' ∨ e = 'E') ∧ isDigit c then ([e, c], []) else ([], t)
  | _ => ([], t)

/-- A number at the beginning of a text. -/
def readNumber (t : List Char) : Option (List Char × List Char) :=
  let (sign, u) := if t.head? = some '-' then (['-'], t.drop 1) else ([], t)
  match u with
  | c :: u =>
      if isDigit c then
        let whole := if c = '0' then ([c], u) else (c :: u.takeWhile isDigit, u.dropWhile isDigit)
        let fraction := readFraction whole.2
        let exponent := readExponent fraction.2
        some (sign ++ whole.1 ++ fraction.1 ++ exponent.1, exponent.2)
      else none
  | [] => none

def constants : List (List Char × Json) :=
  [("null".toList, .null), ("true".toList, .bool true), ("false".toList, .bool false),
    ("NaN".toList, .number "NaN".toList), ("Infinity".toList, .number "Infinity".toList),
    ("-Infinity".toList, .number "-Infinity".toList)]

mutual

/-- A value at the beginning of a text, and what follows. -/
def readValue : ℕ → List Char → Option (Json × List Char)
  | 0, _ => none
  | fuel + 1, t =>
      match t with
      | '"' :: t => (readString (t.length + 1) t).map fun r => (.string r.1, r.2)
      | '[' :: t =>
          match skip t with
          | ']' :: t => some (.array [], t)
          | t => (readItems fuel t).map fun r => (.array r.1, r.2)
      | '{' :: t =>
          match skip t with
          | '}' :: t => some (.object [], t)
          | t => (readFields fuel [] t).map fun r => (.object r.1, r.2)
      | t =>
          match constants.find? fun constant => constant.1.isPrefixOf t with
          | some constant => some (constant.2, t.drop constant.1.length)
          | none => (readNumber t).map fun r => (.number r.1, r.2)

def readItems : ℕ → List Char → Option (List Json × List Char)
  | 0, _ => none
  | fuel + 1, t => do
      let (item, t) ← readValue fuel t
      match skip t with
      | ',' :: t => do
          let (items, t) ← readItems fuel (skip t)
          return (item :: items, t)
      | ']' :: t => return ([item], t)
      | _ => none

/-- The last one of equal names counts. -/
def readFields : ℕ → List (List Char × Json) → List Char → Option (List (List Char × Json) × List Char)
  | 0, _, _ => none
  | fuel + 1, fields, t =>
      match t with
      | '"' :: t => do
          let (name, t) ← readString (t.length + 1) t
          match skip t with
          | ':' :: t => do
              let (value, t) ← readValue fuel (skip t)
              match skip t with
              | ',' :: t => readFields fuel (Dict.put fields name value) (skip t)
              | '}' :: t => return (Dict.put fields name value, t)
              | _ => none
          | _ => none
      | _ => none

end

/-- `json.loads`. -/
def loads (t : List Char) : Option Json := do
  let (value, rest) ← readValue (t.length + 1) (skip t)
  if skip rest = [] then some value else none

end Json
