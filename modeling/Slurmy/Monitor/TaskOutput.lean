import Slurmy.Lib.Base64
import Slurmy.Lib.Utf8Ends
import Slurmy.Export.PairArchives
import Slurmy.Monitor.Protocol

/-!
# The output of a pair

The logs of a pair are shown on request: a script on the cluster takes them out of the archive of its result, and
`parse_task_output` reads what the script prints.

* `Request`, `Stored`, `reply`: `REMOTE_TASK_OUTPUT_SCRIPT`;
* `parseTaskOutput`: the reader;
* `parse_reply`: what is read of the reply;
* `output_shown`: the logs that `call.sh` has packed are shown, long ones without their middle (`Shows`, `Shortened`).

Job IDs, names of archives and keys have passed the script's checks, so that the remote shell reads them as they are.
-/

namespace Slurmy
namespace TaskOutput

open Export.PairArchives (CallLog)
open Protocol (encodeFields)

/-! ### The script -/

structure Request where
  job : Text
  archive : Text
  taskId : ℕ
  taskKey : Text

/-- `[A-Za-z0-9._-]`. -/
def isNameChar (c : Char) : Bool := c.isAlphanum || c = '.' || c = '_' || c = '-'

/-- `[A-Fa-f0-9]`. -/
def isHexChar (c : Char) : Bool := c.isDigit || decide ('a' ≤ c ∧ c ≤ 'f') || decide ('A' ≤ c ∧ c ≤ 'F')

def Request.valid (r : Request) : Bool :=
  !r.job.isEmpty && r.job.all isNameChar && Export.isArchiveName r.archive && !r.taskKey.isEmpty && r.taskKey.all isHexChar

/-- The archive, with the names and the bytes of its members; none of the names is that of a folder above others. -/
inductive Stored
  | missing
  /-- `tar` cannot read it -/
  | broken
  | members (l : List (Text × List ℕ))

def limit : ℕ := 1048576

def Request.stem (r : Request) : Text := "task_".toList ++ padded 9 r.taskId ++ '_' :: r.taskKey

/-- `tar -xO` of all members with a name. -/
def contentsOf (l : List (Text × List ℕ)) (name : Text) : List (List ℕ) := (l.filter fun m => m.1 = name).map Prod.snd

/-- The members that `emit_member` takes. -/
def Stored.found (stored : Stored) (member : Text) : List (List ℕ) :=
  match stored with
  | .members l => if contentsOf l member ≠ [] then contentsOf l member else contentsOf l ("./".toList ++ member)
  | _ => []

def omissionText : Text := "\n\n--- middle omitted by Slurmy monitor ---\n\n".toList

def omission : List ℕ := Utf8.encode omissionText

/-- The bytes that are sent, for a member with this size. -/
def displayed (size : ℕ) (bytes : List ℕ) : List ℕ :=
  if limit < size then bytes.take (limit / 2) ++ omission ++ bytes.drop (bytes.length - limit / 2) else bytes

def boolText (b : Bool) : Text := (if b then "true" else "false").toList

/-- `emit_member`. -/
def emitMember (found : List (List ℕ)) (kind : Text) : List Text :=
  match found with
  | [] => ["TASK_OUTPUT".toList, kind, "-1".toList, "false".toList, []]
  | first :: others =>
      ["TASK_OUTPUT".toList, kind, decimal first.length, boolText (decide (limit < first.length)),
        Base64.encode (displayed first.length (first :: others).flatten)]

/-- The streams, with the ends of the names of their members. -/
def kinds : List (Text × Text) :=
  [("solver".toList, "solver.log".toList), ("solver_stderr".toList, "solver-stderr.log".toList),
    ("limiter_stdout".toList, "limiter-stdout.log".toList), ("controller".toList, "controller.log".toList),
    ("watcher".toList, "watcher.log".toList), ("variables".toList, "var".toList)]

/-- What is printed, each text with a NUL behind it; `tools` says that there are `tar` and `base64`. -/
def reply (tools : Bool) (stored : Stored) (r : Request) : List Text :=
  if !tools then ["ERROR".toList, "The cluster needs tar and base64 to display task output.".toList]
  else if !r.valid then ["ERROR".toList, "Invalid task-output request.".toList]
  else match stored with
    | .missing => ["ERROR".toList, "Result archive not found: ".toList ++ r.archive]
    | _ => kinds.flatMap fun k => emitMember (stored.found (r.stem ++ '.' :: k.2)) k.1

/-! ### The reader -/

structure OutputStream where
  name : Text
  content : Text
  size : ℕ
  truncated : Bool
  present : Bool
  deriving DecidableEq

/-- The `RuntimeError`s, with what their texts name. -/
inductive OutputError
  | truncatedError
  | reported (message : Text)
  | invalidResponse (kind : Text)
  | invalidBase64 (kind : Text)
  deriving DecidableEq

/-- `labels.get(kind, kind)`. -/
def label (kind : Text) : Text :=
  (Dict.get [("solver".toList, "Solver stdout".toList), ("solver_stderr".toList, "Solver stderr".toList),
    ("limiter_stdout".toList, "Limiter stdout".toList),
    ("controller".toList, "Slurmy controller diagnostics".toList), ("watcher".toList, "Runsolver watcher".toList),
    ("variables".toList, "Runsolver variables".toList)] kind).getD kind

/-- The stream of one record, `none` when its text is no base64. -/
def parseStream (kind size truncated encoded : Text) : Option OutputStream :=
  (Base64.decode encoded).map fun raw =>
    { name := label kind
      content := Utf8.decode raw
      size := if isDigits size then number size else raw.length
      truncated := decide (truncated = "true".toList)
      present := decide (size ≠ "-1".toList) }

/-- The `while` loop, over the parts that are left. -/
def parseParts (streams : List (Text × OutputStream)) : List Text → Except OutputError (List (Text × OutputStream))
  | [] => .ok streams
  | part :: rest =>
      if part = [] then .ok streams
      else if part = "ERROR".toList then
        match rest with
        | [] => .error .truncatedError
        | message :: _ => .error (.reported message)
      else if part ≠ "TASK_OUTPUT".toList then .error (.invalidResponse part)
      else
        match rest with
        | kind :: size :: truncated :: encoded :: rest =>
            match parseStream kind size truncated encoded with
            | none => .error (.invalidBase64 kind)
            | some stream => parseParts (Dict.put streams kind stream) rest
        | _ => .error (.invalidResponse part)

/-- `parse_task_output`. -/
def parseTaskOutput (data : List ℕ) : Except OutputError (List (Text × OutputStream)) :=
  parseParts [] ((data.splitOn 0).map Utf8.decode)

/-! ### What is read -/

/-- The stream that is shown. -/
def streamOf (found : List (List ℕ)) (kind : Text) : OutputStream :=
  match found with
  | [] => ⟨label kind, [], 0, false, false⟩
  | first :: others =>
      ⟨label kind, Utf8.decode (displayed first.length (first :: others).flatten), first.length,
        decide (limit < first.length), true⟩

section Reader

variable {found : List (List ℕ)} {kind : Text}

theorem mem_displayed {size : ℕ} {bytes : List ℕ} (h : ∀ b ∈ bytes, b < 256) : ∀ b ∈ displayed size bytes, b < 256 := by
  intro b hb
  unfold displayed at hb
  split_ifs at hb
  · rcases List.mem_append.mp hb with hb | hb
    · rcases List.mem_append.mp hb with hb | hb
      · exact h b (List.mem_of_mem_take hb)
      · exact Utf8.mem_encode_lt omissionText b hb
    · exact h b (List.mem_of_mem_drop hb)
  · exact h b hb

theorem decimal_ne_minusOne (n : ℕ) : decimal n ≠ "-1".toList := by
  intro heq
  have hmem : '-' ∈ decimal n := by
    rw [heq]
    exact List.mem_cons_self
  exact absurd (isDigit_of_mem_decimal hmem) (by decide)

/-- A stream that was sent is read. -/
theorem parseParts_emitMember (hbytes : ∀ bytes ∈ found, ∀ b ∈ bytes, b < 256) (streams : List (Text × OutputStream))
    (rest : List Text) : parseParts streams (emitMember found kind ++ rest) =
      parseParts (Dict.put streams kind (streamOf found kind)) rest := by
  cases found with
  | nil =>
    have hstream : parseStream kind "-1".toList "false".toList [] = some (streamOf [] kind) := by
      rw [parseStream, Base64.decode, Option.map_some]
      rfl
    rw [emitMember]
    simp only [List.cons_append, List.nil_append]
    rw [parseParts, if_neg (by decide), if_neg (by decide), if_neg (fun hne => hne rfl)]
    dsimp only
    rw [hstream]
  | cons first others =>
    have hflatten : ∀ b ∈ (first :: others).flatten, b < 256 := by
      intro b hb
      obtain ⟨bytes, hmem, hb⟩ := List.mem_flatten.mp hb
      exact hbytes bytes hmem b hb
    have htruncated (b : Bool) : decide (boolText b = "true".toList) = b := by cases b <;> decide
    have hstream : parseStream kind (decimal first.length) (boolText (decide (limit < first.length)))
        (Base64.encode (displayed first.length (first :: others).flatten)) = some (streamOf (first :: others) kind) := by
      rw [parseStream, Base64.decode_encode (mem_displayed hflatten), Option.map_some, if_pos (isDigits_decimal _),
        number_decimal, htruncated, decide_eq_true (decimal_ne_minusOne _)]
      rfl
    rw [emitMember]
    simp only [List.cons_append, List.nil_append]
    rw [parseParts, if_neg (by decide), if_neg (by decide), if_neg (fun hne => hne rfl)]
    dsimp only
    rw [hstream]

/-- All streams are read. -/
theorem parseParts_flatMap (found : Text → List (List ℕ)) (hbytes : ∀ name, ∀ bytes ∈ found name, ∀ b ∈ bytes, b < 256)
    (ks : List (Text × Text)) (streams : List (Text × OutputStream)) :
    parseParts streams ((ks.flatMap fun k => emitMember (found k.2) k.1) ++ [[]]) =
      .ok (Dict.putAll streams (ks.map fun k => (k.1, streamOf (found k.2) k.1))) := by
  induction ks generalizing streams with
  | nil => rfl
  | cons k ks ih =>
    rw [List.flatMap_cons, List.append_assoc, parseParts_emitMember (hbytes k.2), ih]
    rfl

theorem zero_not_mem_encode {l : List ℕ} (h : ∀ b ∈ l, b < 256) : Char.ofNat 0 ∉ Base64.encode l := by
  intro hmem
  exact absurd (Base64.mem_encode h _ hmem) (by decide +kernel)

theorem zero_not_mem_emitMember (hbytes : ∀ bytes ∈ found, ∀ b ∈ bytes, b < 256) (hkind : Char.ofNat 0 ∉ kind) :
    ∀ t ∈ emitMember found kind, Char.ofNat 0 ∉ t := by
  cases found with
  | nil =>
    simp only [emitMember, List.forall_mem_cons]
    exact ⟨by decide, hkind, by decide, by decide, List.not_mem_nil, fun t ht => absurd ht List.not_mem_nil⟩
  | cons first others =>
    have hflatten : ∀ b ∈ (first :: others).flatten, b < 256 := by
      intro b hb
      obtain ⟨bytes, hmem, hb⟩ := List.mem_flatten.mp hb
      exact hbytes bytes hmem b hb
    have hbool (b : Bool) : Char.ofNat 0 ∉ boolText b := by cases b <;> decide
    have hsize : Char.ofNat 0 ∉ decimal first.length := fun hmem => absurd (isDigit_of_mem_decimal hmem) (by decide)
    simp only [emitMember, List.forall_mem_cons]
    exact ⟨by decide, hkind, hsize, hbool _, zero_not_mem_encode (mem_displayed hflatten),
      fun t ht => absurd ht List.not_mem_nil⟩

theorem kinds_plain : ∀ k ∈ kinds, Char.ofNat 0 ∉ k.1 := by decide +kernel

theorem nodup_kinds : (kinds.map Prod.fst).Nodup := by decide +kernel

/-- The reply to a valid request is read. -/
theorem parse_reply {stored : Stored} {r : Request} (hvalid : r.valid = true) (hstored : stored ≠ .missing)
    (hbytes : ∀ name, ∀ bytes ∈ stored.found name, ∀ b ∈ bytes, b < 256) :
    parseTaskOutput (encodeFields (reply true stored r)) =
      .ok (kinds.map fun k => (k.1, streamOf (stored.found (r.stem ++ '.' :: k.2)) k.1)) := by
  have hreply : reply true stored r = kinds.flatMap fun k => emitMember (stored.found (r.stem ++ '.' :: k.2)) k.1 := by
    unfold reply
    rw [hvalid]
    cases stored with
    | missing => exact absurd rfl hstored
    | broken => rfl
    | members l => rfl
  have hplain : ∀ t ∈ reply true stored r, Char.ofNat 0 ∉ t := by
    rw [hreply]
    intro t ht
    obtain ⟨k, hk, ht⟩ := List.mem_flatMap.mp ht
    exact zero_not_mem_emitMember (hbytes _) (kinds_plain k hk) t ht
  have hsplit : (encodeFields (reply true stored r)).splitOn 0 = (reply true stored r).map Utf8.encode ++ [[]] := by
    have happend := Protocol.splitOn_fields hplain []
    rwa [List.append_nil, List.splitOn_nil] at happend
  have hnodup : (([] ++ kinds.map fun k : Text × Text => (k.1, streamOf (stored.found (r.stem ++ '.' :: k.2)) k.1)).map
      Prod.fst).Nodup := by
    rw [List.nil_append, List.map_map]
    exact nodup_kinds
  unfold parseTaskOutput
  rw [hsplit, List.map_append, Protocol.decodeFields, hreply]
  refine (parseParts_flatMap (fun ending => stored.found (r.stem ++ '.' :: ending)) (fun _ => hbytes _) kinds []).trans ?_
  rw [Dict.putAll_of_nodup hnodup, List.nil_append]

end Reader

/-! ### The logs of a call -/

section Logs

/-- The archive of a call that has left these files, as UTF-8. -/
def packed (task : ℕ) (key : Text) (logs : List (CallLog × Text)) : List (Text × List ℕ) :=
  ("./".toList, []) :: logs.map fun l => (l.1.file task key, Utf8.encode l.2)

/-- The streams and their logs. -/
def shownLogs : List (Text × CallLog) :=
  [("solver".toList, .solver), ("solver_stderr".toList, .solverStderr), ("limiter_stdout".toList, .limiterStdout),
    ("controller".toList, .controller), ("watcher".toList, .watcher), ("variables".toList, .var)]

theorem kinds_eq : kinds = shownLogs.map fun k => (k.1, k.2.ending) := rfl

theorem file_eq {task : ℕ} {key : Text} {log : CallLog} (h : log ≠ .time) :
    log.file task key = "./task_".toList ++ padded 9 task ++ '_' :: key ++ '.' :: log.ending := by
  cases log <;> first | exact absurd rfl h | rfl

theorem time_ne_file {task : ℕ} {key : Text} {log : CallLog} (h : log ≠ .time) :
    CallLog.file task key .time ≠ log.file task key := by
  intro heq
  rw [file_eq h] at heq
  have hthird : (CallLog.file task key .time)[3]? = some 'i' := rfl
  rw [heq] at hthird
  have hother : ("./task_".toList ++ padded 9 task ++ '_' :: key ++ '.' :: log.ending)[3]? = some 'a' := rfl
  rw [hother] at hthird
  exact absurd hthird (by decide)

/-- Different logs have different names. -/
theorem file_injective (task : ℕ) (key : Text) : Function.Injective (CallLog.file task key) := by
  intro log log' heq
  by_cases hlog : log = .time
  · by_cases hlog' : log' = .time
    · rw [hlog, hlog']
    · rw [hlog] at heq
      exact absurd heq (time_ne_file hlog')
  · by_cases hlog' : log' = .time
    · rw [hlog'] at heq
      exact absurd heq.symm (time_ne_file hlog)
    · rw [file_eq hlog, file_eq hlog', List.append_cancel_left_eq] at heq
      have hending : log.ending = log'.ending := (List.cons.inj heq).2
      revert hending
      cases log <;> cases log' <;> decide

theorem contentsOf_packed {task : ℕ} {key : Text} {logs : List (CallLog × Text)} (log : CallLog) :
    contentsOf (packed task key logs) (log.file task key) =
      (logs.filter fun l => l.1 = log).map fun l => Utf8.encode l.2 := by
  have hfolder : "./".toList ≠ log.file task key := by
    cases log <;> simp [CallLog.file]
  unfold contentsOf packed
  rw [List.filter_cons_of_neg (by simpa using hfolder), List.filter_map, List.map_map]
  refine congrArg (List.map _) (List.filter_congr fun l _ => ?_)
  exact decide_eq_decide.mpr (file_injective task key).eq_iff

/-- No member has a name without `./`. -/
theorem contentsOf_bare {task : ℕ} {key name : Text} (logs : List (CallLog × Text)) (hname : name.head? ≠ some '.') :
    contentsOf (packed task key logs) name = [] := by
  unfold contentsOf packed
  rw [List.map_eq_nil_iff, List.filter_eq_nil_iff]
  intro m hm hmember
  refine hname ?_
  rw [← of_decide_eq_true hmember]
  rcases List.mem_cons.mp hm with rfl | hm
  · rfl
  · obtain ⟨l, -, rfl⟩ := List.mem_map.mp hm
    dsimp only
    cases l.1 <;> rfl

/-- The members that are shown are the logs. -/
theorem found_packed {r : Request} {logs : List (CallLog × Text)} {log : CallLog} (htime : log ≠ .time) :
    (Stored.members (packed r.taskId r.taskKey logs)).found (r.stem ++ '.' :: log.ending) =
      (logs.filter fun l => l.1 = log).map fun l => Utf8.encode l.2 := by
  have hfile : "./".toList ++ (r.stem ++ '.' :: log.ending) = log.file r.taskId r.taskKey := (file_eq htime).symm
  have hbare : contentsOf (packed r.taskId r.taskKey logs) (r.stem ++ '.' :: log.ending) = [] :=
    contentsOf_bare logs fun h => absurd (Option.some.inj h) (by decide)
  unfold Stored.found
  dsimp only
  rw [if_neg (not_not.mpr hbare), hfile, contentsOf_packed]

theorem filter_of_absent {logs : List (CallLog × Text)} {log : CallLog} (h : log ∉ logs.map Prod.fst) :
    (logs.filter fun l => l.1 = log) = [] := by
  rw [List.filter_eq_nil_iff]
  intro l hl hlog
  exact h (List.mem_map.mpr ⟨l, hl, of_decide_eq_true hlog⟩)

theorem filter_of_mem {logs : List (CallLog × Text)} (hlogs : (logs.map Prod.fst).Nodup) {log : CallLog} {t : Text}
    (h : (log, t) ∈ logs) : (logs.filter fun l => l.1 = log) = [(log, t)] := by
  induction logs with
  | nil => cases h
  | cons l logs ih =>
    rw [List.map_cons, List.nodup_cons] at hlogs
    rcases List.mem_cons.mp h with rfl | h
    · rw [List.filter_cons_of_pos (by simp), filter_of_absent hlogs.1]
    · have hne : l.1 ≠ log := by
        rintro rfl
        exact hlogs.1 (List.mem_map.mpr ⟨_, h, rfl⟩)
      rw [List.filter_cons_of_neg (by simpa using hne), ih hlogs.2 h]

/-- A text without its middle; where a cut goes through a character, what is left of it is replaced. -/
def Shortened (half : ℕ) (t shown : Text) : Prop :=
  ∃ front middle back k k', t = front ++ middle ++ back ∧ k ≤ 1 ∧ k' ≤ 3 ∧
    shown = front ++ List.replicate k Utf8.replacement ++ omissionText ++ (List.replicate k' Utf8.replacement ++ back) ∧
    ((Utf8.encode front).length ≤ half ∧ half < (Utf8.encode front).length + 4) ∧
    (Utf8.encode back).length ≤ half ∧ half < (Utf8.encode back).length + 4

/-- A long text is shown without its middle. -/
theorem decode_displayed {t : Text} (hlong : limit < (Utf8.encode t).length) :
    Shortened (limit / 2) t (Utf8.decode (displayed (Utf8.encode t).length (Utf8.encode t))) := by
  obtain ⟨half, hhalf⟩ : ∃ half, half = limit / 2 := ⟨_, rfl⟩
  have hlimit : limit = 2 * half := by
    rw [hhalf]
    rfl
  have hpos : 0 < half := by
    rw [hhalf]
    decide
  obtain ⟨front, rest, k, ht, hk, htake, hfront, hfront'⟩ := Utf8.decode_take (show half < (Utf8.encode t).length by omega)
  obtain ⟨rest', back, k', ht', hk', hdrop, hback, hback'⟩ :=
    Utf8.decode_drop (show (Utf8.encode t).length - half < (Utf8.encode t).length by omega)
  have hsplit : ∃ middle, rest = middle ++ back := by
    rcases List.suffix_or_suffix_of_suffix (ht ▸ List.suffix_append front rest) (ht' ▸ List.suffix_append rest' back)
      with ⟨more, hmore⟩ | ⟨middle, hmiddle⟩
    · have hwhole := congrArg (fun t => (Utf8.encode t).length) ht
      have hbytes := congrArg (fun t => (Utf8.encode t).length) hmore
      simp only [Utf8.encode_append, List.length_append] at hwhole hbytes
      omega
    · exact ⟨middle, hmiddle.symm⟩
  obtain ⟨middle, rfl⟩ := hsplit
  refine ⟨front, middle, back, k, k', by rw [ht, List.append_assoc], hk, hk', ?_, ?_, ?_⟩
  · unfold displayed
    rw [if_pos hlong, ← hhalf, omission]
    have hbetween := Utf8.decode_between (c := '\n') (by decide) "\n--- middle omitted by Slurmy monitor ---\n\n".toList
      ((Utf8.encode t).take half) ((Utf8.encode t).drop ((Utf8.encode t).length - half))
    rw [htake, hdrop] at hbetween
    exact hbetween
  · rw [← hhalf]
    exact ⟨hfront, hfront'⟩
  · rw [← hhalf]
    omega

/-- What is shown of a log: the log, or its absence. -/
structure Shows (logs : List (CallLog × Text)) (log : CallLog) (stream : OutputStream) : Prop where
  present : stream.present = true ↔ log ∈ logs.map Prod.fst
  absent : log ∉ logs.map Prod.fst → stream.content = [] ∧ stream.size = 0 ∧ stream.truncated = false
  size : ∀ t, (log, t) ∈ logs → stream.size = (Utf8.encode t).length
  truncated : ∀ t, (log, t) ∈ logs → (stream.truncated = true ↔ limit < (Utf8.encode t).length)
  whole : ∀ t, (log, t) ∈ logs → stream.truncated = false → stream.content = t
  shortened : ∀ t, (log, t) ∈ logs → stream.truncated = true → Shortened (limit / 2) t stream.content

theorem streamOf_shows {logs : List (CallLog × Text)} (hlogs : (logs.map Prod.fst).Nodup) (log : CallLog) (kind : Text) :
    Shows logs log (streamOf ((logs.filter fun l => l.1 = log).map fun l => Utf8.encode l.2) kind) := by
  by_cases hlog : log ∈ logs.map Prod.fst
  · obtain ⟨l, hl, rfl⟩ := List.mem_map.mp hlog
    have honly : ∀ t, (l.1, t) ∈ logs → t = l.2 := by
      intro t ht
      have hget := Dict.get_of_mem hlogs ht
      exact Option.some.inj (hget.symm.trans (Dict.get_of_mem hlogs hl))
    have hstream : streamOf ((logs.filter fun m => m.1 = l.1).map fun m => Utf8.encode m.2) kind =
        ⟨label kind, Utf8.decode (displayed (Utf8.encode l.2).length (Utf8.encode l.2)), (Utf8.encode l.2).length,
          decide (limit < (Utf8.encode l.2).length), true⟩ := by
      rw [filter_of_mem hlogs (show (l.1, l.2) ∈ logs from hl), List.map_singleton, streamOf, List.flatten_singleton]
    rw [hstream]
    constructor
    case present => exact iff_of_true rfl hlog
    case absent => exact fun h => absurd hlog h
    case size =>
      intro t ht
      rw [honly t ht]
    case truncated =>
      intro t ht
      rw [honly t ht]
      exact decide_eq_true_iff
    case whole =>
      intro t ht hshort
      rw [honly t ht]
      dsimp only
      rw [displayed, if_neg (of_decide_eq_false hshort), Utf8.decode_encode]
    case shortened =>
      intro t ht hlong
      rw [honly t ht]
      exact decode_displayed (of_decide_eq_true hlong)
  · have habsent (t : Text) : (log, t) ∉ logs := fun h => hlog (List.mem_map.mpr ⟨_, h, rfl⟩)
    rw [filter_of_absent hlog]
    constructor
    case present => exact iff_of_false Bool.false_ne_true hlog
    case absent => exact fun _ => ⟨rfl, rfl, rfl⟩
    all_goals exact fun t ht => absurd ht (habsent t)

theorem found_bytes {r : Request} (logs : List (CallLog × Text)) (name : Text) :
    ∀ bytes ∈ (Stored.members (packed r.taskId r.taskKey logs)).found name, ∀ b ∈ bytes, b < 256 := by
  have hmembers (member : Text) : ∀ bytes ∈ contentsOf (packed r.taskId r.taskKey logs) member, ∀ b ∈ bytes, b < 256 := by
    intro bytes hbytes
    obtain ⟨m, hm, rfl⟩ := List.mem_map.mp hbytes
    rcases List.mem_cons.mp (List.mem_of_mem_filter hm) with rfl | hm
    · exact fun b hb => absurd hb List.not_mem_nil
    · obtain ⟨l, -, rfl⟩ := List.mem_map.mp hm
      exact Utf8.mem_encode_lt l.2
  unfold Stored.found
  dsimp only
  split_ifs
  · exact hmembers _
  · exact hmembers _

/-- Of the logs of a call, those that are shown are shown as they are, or without their middle; the others are known
to be missing. -/
theorem output_shown {r : Request} (hvalid : r.valid = true) {logs : List (CallLog × Text)}
    (hlogs : (logs.map Prod.fst).Nodup) :
    ∃ streams, parseTaskOutput (encodeFields (reply true (.members (packed r.taskId r.taskKey logs)) r)) = .ok streams ∧
      streams.map Prod.fst = shownLogs.map Prod.fst ∧
      ∀ k ∈ shownLogs, ∃ stream, Dict.get streams k.1 = some stream ∧ stream.name = label k.1 ∧ Shows logs k.2 stream := by
  have htime : ∀ k ∈ shownLogs, k.2 ≠ .time := by decide +kernel
  refine ⟨_, parse_reply hvalid (fun h => by cases h) (found_bytes logs), ?_, fun k hk => ?_⟩
  · rw [kinds_eq, List.map_map, List.map_map]
    rfl
  · have hkind : (k.1, k.2.ending) ∈ kinds := by
      rw [kinds_eq]
      exact List.mem_map.mpr ⟨k, hk, rfl⟩
    have hget := Dict.get_of_mem
      (d := kinds.map fun k : Text × Text => (k.1, streamOf ((Stored.members (packed r.taskId r.taskKey logs)).found
        (r.stem ++ '.' :: k.2)) k.1)) (by rw [List.map_map]; exact nodup_kinds) (List.mem_map.mpr ⟨_, hkind, rfl⟩)
    refine ⟨_, hget, ?_, ?_⟩
    · dsimp only
      cases (Stored.members (packed r.taskId r.taskKey logs)).found (r.stem ++ '.' :: k.2.ending) <;> rfl
    · dsimp only
      rw [found_packed (htime k hk)]
      exact streamOf_shows hlogs k.2 k.1

def sampleRequest : Request := ⟨"night.1".toList, "batch_000001.tar.gz".toList, 7, "0a9f".toList⟩

def sampleLogs : List (CallLog × Text) :=
  [(.time, "1.2".toList), (.solver, "% SZS status Theorem\n".toList), (.watcher, "Subset of the processes é\n".toList)]

theorem output_shown_sample :
    ∃ streams, parseTaskOutput (encodeFields (reply true (.members (packed 7 "0a9f".toList sampleLogs)) sampleRequest)) =
        .ok streams ∧ streams.map Prod.fst = shownLogs.map Prod.fst ∧
      ∀ k ∈ shownLogs, ∃ stream, Dict.get streams k.1 = some stream ∧ stream.name = label k.1 ∧
        Shows sampleLogs k.2 stream :=
  output_shown (r := sampleRequest) (by decide +kernel) (by decide +kernel)

end Logs

end TaskOutput
end Slurmy
