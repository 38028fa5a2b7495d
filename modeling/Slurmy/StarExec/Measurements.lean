import Slurmy.Lib.DecimalText
import Slurmy.StarExec.Names

/-!
# The measurements in a StarExec archive

* `measure`, `number`: what `starexec_export.py` writes for a measurement;
* `summaryRow`: a row of its table;
* `isTimestamped`: `TIMESTAMP`, the lines that have their own time;
* `number_isSome_iff`, `number_isPlain_iff`: which measurements it can write, and which it writes as such a time.

The rows of the summary are as long as its header, as the exporter writes them (`csv` gives `None` for a field that is
missing). The digits that `Decimal` reads are those of Unicode 14, among them the ones behind each zero of
`Decimal.zeros`.
-/

namespace Slurmy
namespace StarExec

open Decimal (Number Context halfway isPlain takeNumber)

/-! ### Numbers -/

/-- The default context. -/
def context : Context := ⟨28, -999999, 999999⟩

/-- The number that `number` writes. `none` is an overflow, which is no `InvalidOperation`. A text that is no finite
number counts as `0.0`, and so does a negative number, but zero is never negative. -/
def measure (value : Text) (multiplier : ℕ) : Option Number :=
  match Decimal.parse value with
  | none => some ⟨false, 0, -1⟩
  | some d => (context.mul d ⟨false, multiplier, 0⟩).map fun r =>
      if r.negative = true ∧ r.coefficient ≠ 0 then ⟨false, 0, -1⟩ else r

/-- `number`. -/
def number (value : Text) (multiplier : ℕ) : Option Text := (measure value multiplier).map Number.str

/-! ### The table -/

/-- `FIELDS`. -/
structure InfoRow where
  benchmark : Text
  solver : Text
  configuration : Text
  status : Text
  cpuTime : Text
  wallclockTime : Text
  memoryUsage : Text
  result : Text
  expected : Text
  szsResult : Text
  szsOutput : Text
  szsStatus : Text

/-- `STATUS`. -/
def statusMnemonics : List (Text × Text) :=
  [("theorem".toList, "THM".toList), ("unsatisfiable".toList, "UNS".toList), ("satisfiable".toList, "SAT".toList),
    ("countersatisfiable".toList, "CSA".toList), ("contradictoryaxioms".toList, "CAX".toList),
    ("finitelysatisfiable".toList, "FSA".toList), ("finitelyunsatisfiable".toList, "FUN".toList),
    ("finitetheorem".toList, "FTH".toList), ("equivalent".toList, "EQV".toList),
    ("tautologousconclusion".toList, "TAC".toList), ("timeout".toList, "TMO".toList), ("gaveup".toList, "GUP".toList),
    ("error".toList, "ERR".toList), ("unknown".toList, "UNK".toList), ("inappropriate".toList, "IAP".toList),
    ("memoryout".toList, "MMO".toList), ("resourceout".toList, "RSO".toList), ("incomplete".toList, "INC".toList)]

/-- `OUTPUT`. -/
def outputMnemonics : List (Text × Text) :=
  [("proof".toList, "Prf".toList), ("refutation".toList, "Ref".toList), ("cnfrefutation".toList, "CRf".toList),
    ("model".toList, "Mod".toList), ("finitemodel".toList, "FMo".toList), ("infinitemodel".toList, "IMo".toList),
    ("saturation".toList, "Sat".toList), ("assurance".toList, "Ass".toList), ("none".toList, "Non".toList),
    ("definitions".toList, "Ass".toList)]

def Row.isComplete (row : Row) : Bool := decide (row.complete.map Char.toLower = "true".toList)

/-- `value or fallback`. -/
def orElse (value fallback : Text) : Text := if value = [] then fallback else value

/-- The state of a complete pair. A number that has been written is read back as the same number. -/
def stateOf (row : Row) (cpu limit : Number) : Text :=
  let timeout := if limit.magnitude ≤ cpu.magnitude ∧ 0 < limit.magnitude then "timeout (cpu)".toList
    else "timeout (wallclock)".toList
  (Dict.get [("time-limit".toList, timeout), ("memory-limit".toList, "memout".toList),
    ("solver-error".toList, "error".toList), ("resource-limiter-error".toList, "error".toList),
    ("worker-error".toList, "error".toList), ("interrupted".toList, "incomplete".toList)] row.status).getD
      "complete".toList

/-- The state, the mnemonic and the output of a pair. -/
def verdict (casefold : Text → Text) (row : Row) : Option (Text × Text × Text) :=
  if row.isComplete then do
    let cpu ← measure row.cpuSeconds 1
    let limit ← measure row.cpuLimit 1
    return (stateOf row cpu limit,
      (Dict.get statusMnemonics (casefold (orElse row.szsStatus "--".toList))).getD "UNK".toList,
      (Dict.get outputMnemonics (casefold row.szsOutput)).getD "Non".toList)
  else some ("incomplete".toList, "-".toList, "-".toList)

/-- `summary_row`. -/
def summaryRow (casefold : Text → Text) (row : Row) (benchmark : Text) : Option InfoRow := do
  let (state, mnemonic, output) ← verdict casefold row
  let cpu ← number row.cpuSeconds 1
  let wall ← number row.wallSeconds 1
  let memory ← number row.maxMemoryKib 1024
  return {
    benchmark := benchmark
    solver := row.solverName
    configuration := row.solverName
    status := state
    cpuTime := cpu
    wallclockTime := wall
    memoryUsage := memory
    result := orElse row.szsStatus "--".toList
    expected := orElse row.expected "--".toList
    szsResult := if row.isComplete then mnemonic ++ '-' :: output else "-".toList
    szsOutput := output
    szsStatus := mnemonic }

/-! ### Timestamps -/

/-- The character, and what follows it. -/
def expect (c : Char) : Option Text → Option Text
  | some (d :: rest) => if d = c then some rest else none
  | _ => none

/-- `TIMESTAMP.match(line)`. A byte is the character with its number. -/
def isTimestamped (line : Text) : Bool :=
  ((expect '/' (takeNumber line)).bind fun rest => expect '\t' (takeNumber rest)).isSome

theorem expect_takeNumber {t : Text} {c : Char} (hc : c ∉ t) (hdigit : c.isDigit = false) (hdot : c ≠ '.') (rest : Text) :
    expect c (takeNumber (t ++ c :: rest)) = if isPlain t then some rest else none := by
  rw [Decimal.takeNumber_append_cons hdigit hdot]
  unfold isPlain
  cases htake : takeNumber t with
  | none => rfl
  | some left =>
    cases left with
    | nil =>
      rw [decide_eq_true rfl, if_pos rfl]
      exact if_pos rfl
    | cons d left =>
      have hd : d ≠ c := fun heq => hc ((Decimal.takeNumber_suffix htake).subset (heq ▸ List.mem_cons_self))
      rw [decide_eq_false (by simp), if_neg Bool.false_ne_true]
      exact if_neg hd

/-- Two numbers are a timestamp when both are plain. -/
theorem isTimestamped_append {a b : Text} (ha : '/' ∉ a) (hb : '\t' ∉ b) (rest : Text) :
    isTimestamped (a ++ '/' :: (b ++ '\t' :: rest)) = (isPlain a && isPlain b) := by
  unfold isTimestamped
  rw [expect_takeNumber ha (by decide) (by decide)]
  cases isPlain a with
  | false => rfl
  | true =>
    rw [if_pos rfl, Option.bind_some, expect_takeNumber hb (by decide) (by decide)]
    cases isPlain b <;> rfl

/-! ### Which measurements can be written -/

theorem wide_context : context.Wide := ⟨by decide, by decide, by decide⟩

/-- The measurement times the multiplier, before it is rounded. -/
def product (d : Number) (multiplier : ℕ) : Number := ⟨d.negative, d.coefficient * multiplier, d.exponent⟩

/-- No overflow: the measurement lies below the numbers that are rounded out of the range. -/
def Bounded (value : Text) (multiplier : ℕ) : Prop :=
  ∀ d, Decimal.parse value = some d → (product d multiplier).magnitude < halfway 28 999972

/-- What is not negative is zero or lies between `10 ^ (-6)` and `10 ^ 28`, up to rounding, and has no exponent above
zero; what is negative stays so. -/
def Plain (value : Text) (multiplier : ℕ) : Prop :=
  ∀ d, Decimal.parse value = some d →
    if d.negative = true then
      10 ^ (-1000026 : ℤ) / 2 < (product d multiplier).magnitude ∧ (product d multiplier).magnitude < halfway 28 999972
    else if d.coefficient = 0 then -6 ≤ d.exponent ∧ d.exponent ≤ 0
    else d.exponent ≤ 0 ∧ halfway 28 (-34) ≤ (product d multiplier).magnitude ∧
      (product d multiplier).magnitude < halfway 28 0

section Numbers

variable {value : Text} {multiplier : ℕ}

theorem mul_eq (d : Number) : context.mul d ⟨false, multiplier, 0⟩ = context.fix (product d multiplier) := by
  unfold Context.mul product
  rw [Bool.bne_false, add_zero]

theorem measure_of_parse {d : Number} (h : Decimal.parse value = some d) : measure value multiplier =
    (context.fix (product d multiplier)).map fun r =>
      if r.negative = true ∧ r.coefficient ≠ 0 then ⟨false, 0, -1⟩ else r := by
  rw [measure, h]
  show (context.mul d ⟨false, multiplier, 0⟩).map _ = _
  rw [mul_eq]

theorem number_isSome_iff : (number value multiplier).isSome = true ↔ Bounded value multiplier := by
  unfold number Bounded
  rw [Option.isSome_map]
  cases hparse : Decimal.parse value with
  | none =>
    rw [measure, hparse]
    exact iff_of_true rfl nofun
  | some d =>
    rw [measure_of_parse hparse, Option.isSome_map, Option.isSome_iff_ne_none, ne_eq, Decimal.fix_eq_none_iff wide_context,
      not_le]
    exact ⟨fun h d' hd' => Option.some.inj hd' ▸ h, fun h => h d rfl⟩

/-- **The measurements that are written as plain numbers.** -/
theorem number_isPlain_iff (hmultiplier : 0 < multiplier) :
    (∃ t, number value multiplier = some t ∧ isPlain t = true) ↔ Plain value multiplier := by
  unfold number Plain
  cases hparse : Decimal.parse value with
  | none =>
    rw [measure, hparse]
    exact iff_of_true ⟨_, rfl, by decide⟩ nofun
  | some d =>
    have hall {P : Number → Prop} : (∀ d', some d = some d' → P d') ↔ P d :=
      ⟨fun h => h d rfl, fun h d' hd' => Option.some.inj hd' ▸ h⟩
    rw [hall, measure_of_parse hparse]
    have hnone := Decimal.fix_eq_none_iff (d := product d multiplier) wide_context
    cases hfix : context.fix (product d multiplier) with
    | none =>
      have hover : halfway 28 999972 ≤ (product d multiplier).magnitude := hnone.1 hfix
      refine iff_of_false (by simp) fun hplain => ?_
      split_ifs at hplain with hnegative hzero
      · exact absurd hplain.2 (not_lt.2 hover)
      · rw [Decimal.magnitude_zero (by simp [product, hzero])] at hover
        exact absurd (Decimal.halfway_pos wide_context.prec 999972) (not_lt.2 hover)
      · have hmono : halfway 28 0 ≤ halfway 28 999972 := Decimal.halfway_mono 28 (by decide)
        exact absurd (hplain.2.2.trans_le hmono) (not_lt.2 hover)
    | some r =>
      have hbounded : (product d multiplier).magnitude < halfway 28 999972 := by
        rw [← not_le]
        exact fun hle => by rw [hnone.2 hle] at hfix; cases hfix
      have hsign : r.negative = d.negative := Decimal.negative_fix (d := product d multiplier) wide_context hfix
      have hzero : r.coefficient = 0 ↔ (product d multiplier).magnitude ≤ 10 ^ (-1000026 : ℤ) / 2 :=
        Decimal.fix_zero_iff wide_context hfix
      have hone (P : Text → Prop) (r : Number) :
          (∃ t, ((some r).map Number.str) = some t ∧ P t) ↔ P r.str := by
        rw [Option.map_some]
        exact ⟨fun ⟨t, ht, hP⟩ => Option.some.inj ht ▸ hP, fun hP => ⟨_, rfl, hP⟩⟩
      rw [Option.map_some, hone, hsign]
      by_cases hnegative : d.negative = true
      · rw [if_pos hnegative]
        by_cases hr : r.coefficient = 0
        · rw [if_neg fun h => h.2 hr, Decimal.isPlain_str, hsign, hnegative]
          exact iff_of_false (fun h => Bool.noConfusion h.1) fun h => absurd h.1 (not_lt.2 (hzero.1 hr))
        · rw [if_pos ⟨hnegative, hr⟩]
          exact iff_of_true (by decide) ⟨not_le.1 (mt hzero.2 hr), hbounded⟩
      · have hfalse : d.negative = false := by simpa using hnegative
        rw [if_neg hnegative, if_neg fun h => hnegative h.1, Decimal.isPlain_str, hsign, hfalse]
        by_cases hc : d.coefficient = 0
        · rw [if_pos hc]
          rw [Decimal.fix_zero (by simp [product, hc])] at hfix
          rw [← Option.some.inj hfix]
          have hdigits : Decimal.digits (product d multiplier).coefficient = 1 := by
            simp [product, hc, Decimal.digits]
          dsimp only
          rw [hdigits]
          refine (and_iff_right rfl).trans ?_
          show min (max d.exponent (-1000026)) 999999 ≤ 0 ∧ -6 < min (max d.exponent (-1000026)) 999999 + 1 ↔ _
          omega
        · rw [if_neg hc]
          have hproduct : (product d multiplier).coefficient ≠ 0 := Nat.mul_ne_zero hc hmultiplier.ne'
          have hplain := Decimal.fix_plain_iff wide_context hproduct hfix
          exact (and_iff_right rfl).trans hplain

end Numbers

end StarExec
end Slurmy
