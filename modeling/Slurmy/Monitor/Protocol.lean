import Slurmy.Lib.Dict
import Slurmy.Lib.Utf8
import Slurmy.Text

/-!
# The records of a snapshot

What the cluster prints for `monitor.py`, and how it is read.

* `protocolArity`, `decodeProtocol`: the kinds of records, and the reader;
* `Record`, `encodeRecords`: records, and what is printed for them;
* `decodeProtocol_encodeRecords`: they come back;
* `Detects`, `EndsInLastField`: what is asked where the output ends early, and where it goes unnoticed;
* `decodeProtocol_detects_iff`: exactly there.
-/

namespace Slurmy
namespace Protocol

/-! ### The reader -/

/-- `PROTOCOL_ARITY`. -/
def protocolArity : List (Text × ℕ) :=
  [("CALL_PROGRESS".toList, 2), ("BATCH_TASK".toList, 3), ("REMOTE_HOME".toList, 1), ("DETAIL".toList, 1),
    ("JOB".toList, 2), ("METADATA".toList, 2), ("SUMMARY".toList, 2), ("LEGACY_RESULTS".toList, 2),
    ("PROGRESS_CSV".toList, 2), ("PROGRESS_TSV".toList, 2), ("SUBMISSION_CSV".toList, 2),
    ("SUBMISSION_STATE".toList, 2), ("CONTROLLER_STATE".toList, 2), ("CONTROLLER_LOG".toList, 2),
    ("QUEUE_AVAILABLE".toList, 1), ("RESULT_OVERRIDE".toList, 3), ("SUBMISSION_TSV".toList, 2),
    ("RESULTS_CSV".toList, 2), ("RESULTS_TSV".toList, 2), ("RESULTS_JSONL".toList, 2), ("MANIFEST".toList, 2),
    ("TASKDEF".toList, 7), ("LOG".toList, 3), ("SQUEUE".toList, 1), ("SACCT".toList, 1)]

structure Record where
  kind : Text
  fields : List Text
  deriving DecidableEq

/-- The two `RuntimeError`s, with the kind their texts name. -/
inductive ProtocolError
  | unknownRecord (kind : Text)
  | truncated (kind : Text)
  deriving DecidableEq

/-- The `while` loop, over the parts that are left. -/
def decodeParts : List (List ℕ) → Except ProtocolError (List Record)
  | [] => .ok []
  | part :: rest =>
      if part = [] then .ok []
      else
        match Dict.get protocolArity (Utf8.decode part) with
        | none => .error (.unknownRecord (Utf8.decode part))
        | some arity =>
            if rest.length < arity then .error (.truncated (Utf8.decode part))
            else
              (decodeParts (rest.drop arity)).map fun records =>
                ⟨Utf8.decode part, (rest.take arity).map Utf8.decode⟩ :: records
termination_by parts => parts.length
decreasing_by
  rw [List.length_drop, List.length_cons]
  omega

/-- `decode_protocol`. -/
def decodeProtocol (data : List ℕ) : Except ProtocolError (List Record) := decodeParts (data.splitOn 0)

/-! ### What is printed -/

/-- `printf '%s\0'`. -/
def terminated (t : Text) : List ℕ := Utf8.encode t ++ [0]

def encodeFields (fields : List Text) : List ℕ := fields.flatMap terminated

def encodeRecord (r : Record) : List ℕ := terminated r.kind ++ encodeFields r.fields

def encodeRecords (rs : List Record) : List ℕ := rs.flatMap encodeRecord

/-- A record of a kind that is known, with fields in the right number and without NULs. -/
structure Record.Valid (r : Record) : Prop where
  arity : Dict.get protocolArity r.kind = some r.fields.length
  fields : ∀ f ∈ r.fields, Char.ofNat 0 ∉ f

/-! ### The parts -/

theorem arity_pos {kind : Text} {n : ℕ} (h : Dict.get protocolArity kind = some n) : 0 < n := by
  have hall : ∀ p ∈ protocolArity, 0 < p.2 := by decide +kernel
  exact hall _ (Dict.mem_of_get h)

/-- The kinds have characters, and no NULs. -/
theorem kind_plain {kind : Text} {n : ℕ} (h : Dict.get protocolArity kind = some n) :
    kind ≠ [] ∧ Char.ofNat 0 ∉ kind := by
  have hall : ∀ p ∈ protocolArity, p.1 ≠ [] ∧ Char.ofNat 0 ∉ p.1 := by decide +kernel
  exact hall _ (Dict.mem_of_get h)

theorem splitOn_terminated {t : Text} (h : Char.ofNat 0 ∉ t) (l : List ℕ) :
    (terminated t ++ l).splitOn 0 = Utf8.encode t :: l.splitOn 0 := by
  rw [terminated, List.append_assoc, List.singleton_append]
  exact List.splitOn_append_cons_self_of_not_mem (Utf8.not_mem_encode h) l

theorem splitOn_fields {fields : List Text} (h : ∀ f ∈ fields, Char.ofNat 0 ∉ f) (l : List ℕ) :
    (encodeFields fields ++ l).splitOn 0 = fields.map Utf8.encode ++ l.splitOn 0 := by
  induction fields with
  | nil => rfl
  | cons f fields ih =>
    rw [List.forall_mem_cons] at h
    rw [encodeFields, List.flatMap_cons, List.append_assoc, splitOn_terminated h.1, List.map_cons, List.cons_append]
    exact congrArg _ (ih h.2)

theorem decodeFields (fields : List Text) : (fields.map Utf8.encode).map Utf8.decode = fields := by
  rw [List.map_map]
  exact List.map_id'' Utf8.decode_encode fields

/-! ### Whole records -/

theorem decodeProtocol_nil : decodeProtocol [] = .ok [] := by
  rw [decodeProtocol, List.splitOn_nil, decodeParts, if_pos rfl]

/-- A part that is a kind. -/
theorem decodeParts_kind {kind : Text} {arity : ℕ} (h : Dict.get protocolArity kind = some arity)
    (rest : List (List ℕ)) :
    decodeParts (Utf8.encode kind :: rest) =
      if rest.length < arity then .error (.truncated kind)
      else (decodeParts (rest.drop arity)).map fun rs => ⟨kind, (rest.take arity).map Utf8.decode⟩ :: rs := by
  have hne : Utf8.encode kind ≠ [] := by
    intro hnil
    have hkind : kind = Utf8.decode [] := hnil ▸ (Utf8.decode_encode kind).symm
    exact (kind_plain h).1 hkind
  rw [decodeParts, if_neg hne, Utf8.decode_encode, h]

/-- What is read of one record, and of what follows. -/
theorem decodeProtocol_record {r : Record} (hr : r.Valid) (l : List ℕ) :
    decodeProtocol (encodeRecord r ++ l) = (decodeProtocol l).map (r :: ·) := by
  unfold decodeProtocol
  have hlen : r.fields.length = (r.fields.map Utf8.encode).length := (List.length_map _).symm
  rw [encodeRecord, List.append_assoc, splitOn_terminated (kind_plain hr.arity).2, splitOn_fields hr.fields,
    decodeParts_kind hr.arity, if_neg (by rw [List.length_append, List.length_map]; omega), hlen, List.drop_left,
    List.take_left, decodeFields]

/-- What is read of several records, and of what follows. -/
theorem decodeProtocol_records {rs : List Record} (hrs : ∀ r ∈ rs, r.Valid) (l : List ℕ) :
    decodeProtocol (encodeRecords rs ++ l) = (decodeProtocol l).map (rs ++ ·) := by
  induction rs with
  | nil =>
    show decodeProtocol l = _
    cases decodeProtocol l <;> rfl
  | cons r rs ih =>
    rw [List.forall_mem_cons] at hrs
    rw [encodeRecords, List.flatMap_cons, List.append_assoc, decodeProtocol_record hrs.1]
    have hrest : decodeProtocol (rs.flatMap encodeRecord ++ l) = _ := ih hrs.2
    rw [hrest]
    cases decodeProtocol l <;> rfl

theorem decodeProtocol_encodeRecords {rs : List Record} (hrs : ∀ r ∈ rs, r.Valid) :
    decodeProtocol (encodeRecords rs) = .ok rs := by
  have h := decodeProtocol_records hrs []
  rw [List.append_nil, decodeProtocol_nil] at h
  rw [h]
  exact congrArg _ (List.append_nil rs)

/-! ### Output that ends early -/

/-- In a kind. -/
theorem decodeProtocol_kind {r : Record} (hr : r.Valid) {u : List ℕ} (hu : u <+: Utf8.encode r.kind) (hne : u ≠ []) :
    ∃ e, decodeProtocol u = .error e := by
  have hzero : 0 ∉ u := fun h => Utf8.not_mem_encode (kind_plain hr.arity).2 (hu.subset h)
  rw [decodeProtocol, List.splitOn_eq_singleton hzero, decodeParts, if_neg hne]
  cases hkind : Dict.get protocolArity (Utf8.decode u) with
  | none => exact ⟨_, rfl⟩
  | some arity => exact ⟨_, if_pos (arity_pos hkind)⟩

section Fields

variable {r : Record} (hr : r.Valid) {front rest : List Text} {f : Text} (hfields : r.fields = front ++ f :: rest)
  {u : List ℕ} (hu : u <+: Utf8.encode f)

include hr hfields hu

theorem splitOn_cut : (terminated r.kind ++ encodeFields front ++ u).splitOn 0 =
    Utf8.encode r.kind :: (front.map Utf8.encode ++ [u]) := by
  have hfront : ∀ g ∈ front, Char.ofNat 0 ∉ g := fun g hg =>
    hr.fields g (hfields ▸ List.mem_append_left _ hg)
  have hf : Char.ofNat 0 ∉ f := hr.fields f (hfields ▸ List.mem_append_right front List.mem_cons_self)
  have hzero : 0 ∉ u := fun h => Utf8.not_mem_encode hf (hu.subset h)
  rw [List.append_assoc, splitOn_terminated (kind_plain hr.arity).2, splitOn_fields hfront,
    List.splitOn_eq_singleton hzero]

/-- In a field that is not the last one: there are too few parts. -/
theorem decodeProtocol_field (hrest : rest ≠ []) :
    decodeProtocol (terminated r.kind ++ encodeFields front ++ u) = .error (.truncated r.kind) := by
  have hlen : (front.map Utf8.encode ++ [u]).length < r.fields.length := by
    have hpos := List.length_pos_iff.2 hrest
    simp only [hfields, List.length_append, List.length_map, List.length_cons, List.length_nil]
    omega
  rw [decodeProtocol, splitOn_cut hr hfields hu, decodeParts_kind hr.arity, if_pos hlen]

/-- In the last field: the number of parts is right. -/
theorem decodeProtocol_lastField (hrest : rest = []) :
    decodeProtocol (terminated r.kind ++ encodeFields front ++ u) = .ok [⟨r.kind, front ++ [Utf8.decode u]⟩] := by
  have hlen : r.fields.length = (front.map Utf8.encode ++ [u]).length := by
    simp only [hfields, hrest, List.length_append, List.length_map, List.length_cons, List.length_nil]
  rw [decodeProtocol, splitOn_cut hr hfields hu, decodeParts_kind hr.arity, hlen, if_neg (lt_irrefl _), List.drop_length,
    List.take_length, List.map_append, decodeFields, decodeParts]
  rfl

end Fields

/-- What is left of a record ends within its last field. A field whose last character is the replacement
character may lack bytes of it. -/
def Record.EndsInLastField (r : Record) (u : List ℕ) : Prop :=
  ∃ front last w, r.fields = front ++ [last] ∧ u = terminated r.kind ++ encodeFields front ++ w ∧
    w <+: Utf8.encode last ∧ w ≠ Utf8.encode last ∧
    ¬∃ t, last = t ++ [Utf8.replacement] ∧ (Utf8.encode t).length < w.length

def EndsInLastField (rs : List Record) (p : List ℕ) : Prop :=
  ∃ rs₁ r rs₂ u, rs = rs₁ ++ r :: rs₂ ∧ p = encodeRecords rs₁ ++ u ∧ r.EndsInLastField u

/-- What is asked of the reader when the records were cut to `p`. -/
def Detects (rs : List Record) (p : List ℕ) : Prop :=
  (∃ e, decodeProtocol p = .error e) ∨ ∃ rs', rs' <+: rs ∧ decodeProtocol p = .ok rs'

/-- A record that is cut elsewhere is refused, is missing, or is all there. -/
theorem detects_record {r : Record} (hr : r.Valid) {u : List ℕ} (hu : u <+: encodeRecord r) (hne : u ≠ encodeRecord r)
    (h : ¬r.EndsInLastField u) : Detects [r] u := by
  by_cases hkind : u <+: Utf8.encode r.kind
  · by_cases hnil : u = []
    · exact Or.inr ⟨[], List.nil_prefix, hnil ▸ decodeProtocol_nil⟩
    · exact Or.inl (decodeProtocol_kind hr hkind hnil)
  obtain ⟨v, rfl⟩ : terminated r.kind <+: u := by
    rcases List.prefix_or_prefix_of_prefix hu (List.prefix_append _ _) with hshort | hlong
    · rcases List.prefix_concat_iff.1 hshort with heq | hshort
      · exact heq ▸ List.prefix_rfl
      · exact absurd hshort hkind
    · exact hlong
  have hv : v ≠ encodeFields r.fields := fun heq => hne (by rw [heq, encodeRecord])
  obtain ⟨front, f, rest, w, hfields, rfl, hw, hwne⟩ :=
    Gather.prefix_flatMap ((List.prefix_append_right_inj _).1 hu) hv
  have hw : w <+: Utf8.encode f := (List.prefix_concat_iff.1 hw).resolve_left hwne
  rw [← List.append_assoc] at h ⊢
  by_cases hrest : rest = []
  · by_cases hsame : Utf8.decode w = f
    · refine Or.inr ⟨[r], List.prefix_rfl, (decodeProtocol_lastField hr hfields hw hrest).trans ?_⟩
      rw [hsame, ← hrest, ← hfields]
    · refine absurd ⟨front, f, w, hrest ▸ hfields, rfl, hw, ?_, fun ht => hsame ?_⟩ h
      · rintro rfl
        exact hsame (Utf8.decode_encode f)
      · have hwhole : w ≠ Utf8.encode f := fun heq => hsame (heq ▸ Utf8.decode_encode f)
        exact (Utf8.decode_prefix hw hwhole).2 ht
  · exact Or.inl ⟨_, decodeProtocol_field hr hfields hw hrest⟩

section Cuts

variable {rs : List Record} (hrs : ∀ r ∈ rs, r.Valid)

include hrs

theorem detects {p : List ℕ} (hp : p <+: encodeRecords rs) (hne : p ≠ encodeRecords rs) (h : ¬EndsInLastField rs p) :
    Detects rs p := by
  obtain ⟨rs₁, r, rs₂, u, rfl, rfl, hu, hune⟩ := Gather.prefix_flatMap hp hne
  have hr : r.Valid := hrs r (List.mem_append_right rs₁ List.mem_cons_self)
  have hread : decodeProtocol (rs₁.flatMap encodeRecord ++ u) = _ :=
    decodeProtocol_records (fun r' hr' => hrs r' (List.mem_append_left (r :: rs₂) hr')) u
  rcases detects_record hr hu hune fun hends => h ⟨rs₁, r, rs₂, u, rfl, rfl, hends⟩ with ⟨e, he⟩ | ⟨rs', hrs', hok⟩
  · rw [he] at hread
    exact Or.inl ⟨e, hread⟩
  · rw [hok] at hread
    refine Or.inr ⟨rs₁ ++ rs', (List.prefix_append_right_inj rs₁).2 (hrs'.trans ?_), hread⟩
    exact List.cons_prefix_cons.2 ⟨rfl, List.nil_prefix⟩

/-- A record is returned that was not sent. -/
theorem not_detects {p : List ℕ} (h : EndsInLastField rs p) : ¬Detects rs p := by
  obtain ⟨rs₁, r, rs₂, u, rfl, rfl, front, last, w, hfields, rfl, hw, hne, hlast⟩ := h
  have hr : r.Valid := hrs r (List.mem_append_right rs₁ List.mem_cons_self)
  have hread : decodeProtocol (encodeRecords rs₁ ++ (terminated r.kind ++ encodeFields front ++ w)) =
      .ok (rs₁ ++ [⟨r.kind, front ++ [Utf8.decode w]⟩]) := by
    rw [decodeProtocol_records fun r' hr' => hrs r' (List.mem_append_left _ hr'),
      decodeProtocol_lastField hr hfields hw rfl]
    rfl
  rintro (⟨e, he⟩ | ⟨rs', hprefix, hok⟩)
  · rw [hread] at he
    cases he
  · rw [hread] at hok
    have hsent : rs₁ ++ [⟨r.kind, front ++ [Utf8.decode w]⟩] <+: rs₁ ++ r :: rs₂ := Except.ok.inj hok ▸ hprefix
    have hsame := (List.cons_prefix_cons.1 ((List.prefix_append_right_inj rs₁).1 hsent)).1
    have hfields' := congrArg Record.fields hsame
    rw [hfields] at hfields'
    have hdecode := (List.cons.inj (List.append_cancel_left hfields')).1
    exact hlast ((Utf8.decode_prefix hw hne).1 hdecode)

/-- A last field that is not empty can be cut to nothing. -/
theorem getLast_of_detects (h : ∀ p, p <+: encodeRecords rs → p ≠ encodeRecords rs → Detects rs p) {r : Record}
    (hr : r ∈ rs) : r.fields.getLast? = some [] := by
  obtain ⟨rs₁, rs₂, rfl⟩ := List.append_of_mem hr
  have hne : r.fields ≠ [] := List.length_pos_iff.1 (arity_pos (hrs r hr).arity)
  obtain ⟨front, last, hfields⟩ : ∃ front last, r.fields = front ++ [last] :=
    ⟨_, _, (List.dropLast_append_getLast hne).symm⟩
  rw [hfields, List.getLast?_concat]
  by_contra hlast
  have hlast : Utf8.encode last ≠ [] := fun hnil =>
    hlast (congrArg some ((Utf8.decode_encode last).symm.trans (congrArg Utf8.decode hnil)))
  have hends : EndsInLastField (rs₁ ++ r :: rs₂) (encodeRecords rs₁ ++ (terminated r.kind ++ encodeFields front ++ [])) :=
    ⟨rs₁, r, rs₂, _, rfl, rfl, front, last, [], hfields, rfl, List.nil_prefix, hlast.symm, fun ⟨_, _, hlen⟩ =>
      Nat.not_lt_zero _ hlen⟩
  have hwhole : encodeRecords (rs₁ ++ r :: rs₂) = encodeRecords rs₁ ++ (terminated r.kind ++ encodeFields front ++ []) ++
      (terminated last ++ encodeRecords rs₂) := by
    simp only [encodeRecords, List.flatMap_append, List.flatMap_cons, encodeRecord, encodeFields, hfields, List.flatMap_nil,
      List.append_assoc, List.nil_append]
  refine not_detects hrs hends (h _ (hwhole ▸ List.prefix_append _ _) fun heq => ?_)
  rw [hwhole, List.self_eq_append_right, List.append_eq_nil_iff] at heq
  exact List.append_ne_nil_of_right_ne_nil _ (List.cons_ne_nil 0 []) heq.1

/-- Records come back. Where the output ends early, that is noticed unless it ends within the last field of a
record, which is read as if it were all there. -/
theorem decodeProtocol_detects_iff : decodeProtocol (encodeRecords rs) = .ok rs ∧
    (∀ p, p <+: encodeRecords rs → p ≠ encodeRecords rs → (Detects rs p ↔ ¬EndsInLastField rs p)) ∧
    ((∀ p, p <+: encodeRecords rs → p ≠ encodeRecords rs → Detects rs p) ↔
      ∀ r ∈ rs, r.fields.getLast? = some []) := by
  refine ⟨decodeProtocol_encodeRecords hrs, fun p hp hne => ⟨fun h hends => not_detects hrs hends h, detects hrs hp hne⟩,
    fun h r hr => getLast_of_detects hrs h hr, fun hempty p hp hne => detects hrs hp hne ?_⟩
  rintro ⟨rs₁, r, rs₂, u, rfl, -, front, last, w, hfields, -, hw, hwne, -⟩
  have hlast := hempty r (List.mem_append_right rs₁ List.mem_cons_self)
  rw [hfields, List.getLast?_concat, Option.some.injEq] at hlast
  rw [hlast] at hw hwne
  exact hwne (List.prefix_nil.1 hw)

end Cuts

/-- The home directory of the account, and the job that is shown. -/
def sample : List Record := [⟨"REMOTE_HOME".toList, ["/home".toList]⟩, ⟨"DETAIL".toList, [[]]⟩]

theorem valid_sample : ∀ r ∈ sample, r.Valid := by
  intro r hr
  have harity : ∀ r ∈ sample, Dict.get protocolArity r.kind = some r.fields.length ∧
      ∀ f ∈ r.fields, Char.ofNat 0 ∉ f := by decide +kernel
  exact ⟨(harity r hr).1, (harity r hr).2⟩

theorem decodeProtocol_detects_sample : decodeProtocol (encodeRecords sample) = .ok sample ∧
    (∀ p, p <+: encodeRecords sample → p ≠ encodeRecords sample → (Detects sample p ↔ ¬EndsInLastField sample p)) ∧
    ((∀ p, p <+: encodeRecords sample → p ≠ encodeRecords sample → Detects sample p) ↔
      ∀ r ∈ sample, r.fields.getLast? = some []) :=
  decodeProtocol_detects_iff valid_sample

/-- The output that ends after `REMOTE_HOME`, a NUL and `/ho`. -/
def shortened : List ℕ := terminated "REMOTE_HOME".toList ++ Utf8.encode "/ho".toList

/-- The home directory is read as `/ho`. -/
theorem shortened_home : decodeProtocol shortened = .ok [⟨"REMOTE_HOME".toList, ["/ho".toList]⟩] ∧
    ¬∀ rs : List Record, (∀ r ∈ rs, r.Valid) → decodeProtocol (encodeRecords rs) = .ok rs ∧
      ∀ p, p <+: encodeRecords rs → p ≠ encodeRecords rs → Detects rs p := by
  have hcut : Utf8.encode "/ho".toList <+: Utf8.encode "/home".toList := by decide +kernel
  have hread := decodeProtocol_lastField (valid_sample _ List.mem_cons_self) (List.nil_append ["/home".toList]).symm hcut rfl
  rw [Utf8.decode_encode] at hread
  have hlast : ¬∃ t, "/home".toList = t ++ [Utf8.replacement] ∧
      (Utf8.encode t).length < (Utf8.encode "/ho".toList).length := by
    rintro ⟨t, ht, -⟩
    have hgetLast := congrArg List.getLast? ht
    rw [List.getLast?_concat] at hgetLast
    exact absurd hgetLast (by decide +kernel)
  have hends : EndsInLastField sample shortened :=
    ⟨[], _, _, shortened, rfl, rfl, [], "/home".toList, Utf8.encode "/ho".toList, rfl, by decide +kernel, hcut,
      by decide +kernel, hlast⟩
  exact ⟨hread, fun h => not_detects valid_sample hends
    ((h sample valid_sample).2 shortened (by decide +kernel) (by decide +kernel))⟩

end Protocol
end Slurmy
