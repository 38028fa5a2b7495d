import Slurmy.Export.StatusPattern
import Slurmy.Export.Verbose
import Slurmy.Lib.PosixPath

/-!
# Statuses in archived logs

`slurmy-sync.py` looks for the SZS statuses of the pairs in their archived logs, of which it reads the first and the
last half MiB.

* `readMemberEdges`, `reported`, `scanMembers`: the bytes that are read, and the status that is taken from them;
* `Cut`, `Joined`, `Entered`: a status that is not one of the log, since its word goes on behind the first half MiB,
  it goes over from the first half MiB to the last, or the last half MiB begins in the middle of something;
* `Faithful`: the status that is taken is one of the log, and the last that can be found;
* `faithful_iff`: exactly when it is none of the three.
-/

namespace Slurmy
namespace Export
namespace Statuses

open Findall

/-- `half` -/
def half : ℕ := 512 * 1024

/-- `read_member_edges`; `seekFails` says that the end of the member cannot be read. -/
def readMemberEdges (log : List ℕ) (seekFails : Bool) : List ℕ :=
  if log.length ≤ half * 2 then log.take (half * 2)
  else
    let beginning := log.take half
    let ending := if seekFails then [] else (log.drop (log.length - half)).take half
    beginning ++ 10 :: ending

/-- `found[-1]`, with its place in the bytes that are read. -/
def reported (log : List ℕ) : Option Status := (statuses (readMemberEdges log false)).getLast?

/-- `found[-1].decode("ascii", "replace")`. -/
def reportedWord (log : List ℕ) : Option Text := (reported log).map fun e => e.value.map Char.ofNat

/-- A member of an archive; `none` when it cannot be extracted. -/
structure LogMember where
  name : Text
  isFile : Bool
  content : Option (List ℕ)

/-- The number in a name that `TASK_LOG_RE` matches. -/
def logTask (name : Text) : Option ℕ :=
  if matchesTask ".solver.log".toList name then
    some (number (before '_' ((((name.splitOn '/').getLast?).getD []).drop 5)))
  else none

/-- One round of the loop over the members of an archive. -/
def scanMember (found : List (ℕ × Text)) (member : LogMember) : List (ℕ × Text) :=
  match logTask (PosixPath.parse member.name).str, member.content.bind reportedWord with
  | some task, some word => if member.isFile then Dict.put found task word else found
  | _, _ => found

/-- `ArchiveStatusCache.scan` of an archive that is not in the cache. -/
def scanMembers (members : List LogMember) : List (ℕ × Text) := members.foldl scanMember []

/-! ### The parts of a log -/

def beginning (log : List ℕ) : List ℕ := log.take half

def middle (log : List ℕ) : List ℕ := (log.drop half).take (log.length - half * 2)

def ending (log : List ℕ) : List ℕ := log.drop (log.length - half)

/-- A status lies in the first and the last half MiB: each of its bytes does. -/
def Within (log : List ℕ) (s : Status) : Prop :=
  ∀ i, s.start ≤ i → i < s.stop → i < half ∨ log.length ≤ i + half

section Parts

variable (a m b : List ℕ) (e : Status)

/-- The place in a log with the part `m` between `a` and `b`, when `m` has been replaced by a newline. -/
def place (i : ℕ) : ℕ := if i ≤ a.length then i else i + m.length - 1

def inWhole : Status := ⟨place a m e.start, place a m e.stop, e.value⟩

/-- The word of the status goes on behind `a`. -/
def Cut : Prop := e.stop = a.length ∧ m.head?.any isStatusByte = true

/-- The status begins before the newline and ends behind it. -/
def Joined : Prop := e.start < a.length ∧ a.length < e.stop

/-- The status begins in `b`: at once where a word has not ended, or inside a status of the log. -/
def Entered : Prop :=
  a.length < e.start ∧ ((e.start = a.length + 1 ∧ m.getLast?.any isWordByte = true) ∨
    ∃ s ∈ statuses (a ++ (m ++ b)), s.start < place a m e.start ∧ place a m e.start < s.stop)

end Parts

/-! ### Statuses of the parts and of the log -/

variable {a m b : List ℕ} {e s : Status} (hm : m ≠ [])

theorem start_ne (h : Occurs statusPattern (a ++ 10 :: b) e) : e.start ≠ a.length := by
  obtain ⟨u, p, htext, -, rfl⟩ := occurs_iff.1 h
  intro hstart
  obtain ⟨rfl, hp⟩ := List.append_inj htext hstart.symm
  exact p.ne_text (List.cons_ne_nil 10 []) (fun c hc => by rw [List.mem_singleton.1 hc]; rfl) hp.symm

theorem inWhole_front (hstart : e.start ≤ a.length) (hstop : e.stop ≤ a.length) : inWhole a m e = e := by
  unfold inWhole place
  rw [if_pos hstart, if_pos hstop]

/-- A status of the log in its first part is found without the middle. -/
theorem mem_edges_of_front (h : s ∈ statuses (a ++ (m ++ b))) (hstop : s.stop ≤ a.length) :
    s ∈ statuses (a ++ 10 :: b) :=
  mem_findall_transfer h hstop (occurs_front (occurs_of_mem h) hstop fun _ c hc => by
    obtain rfl := Option.some.inj hc
    rfl)

/-- A status of the log in its last part occurs without the middle. -/
theorem occurs_edges_of_behind (h : Occurs statusPattern (a ++ (m ++ b)) s) (hstart : a.length + m.length ≤ s.start) :
    Occurs statusPattern (a ++ 10 :: b) ⟨s.start + 1 - m.length, s.stop + 1 - m.length, s.value⟩ := by
  have hlen : (a ++ m).length = a.length + m.length := List.length_append
  have hstop := h.start_lt
  rw [← List.append_assoc] at h
  have hmove := h.move (y := a ++ [10]) (hlen ▸ hstart) fun _ r hread => by
    obtain ⟨n, word⟩ := r
    obtain ⟨-, p, hp, hn, hword⟩ := parts_of_statusAt hread
    rw [List.getLast?_concat, ← hp]
    exact (statusAt_of_parts p rfl).trans (by rw [hn, hword])
  rw [hlen, List.length_append, List.length_singleton, List.append_assoc, List.singleton_append] at hmove
  have hstart' : s.start - (a.length + m.length) + (a.length + 1) = s.start + 1 - m.length := by omega
  have hstop' : s.stop - (a.length + m.length) + (a.length + 1) = s.stop + 1 - m.length := by omega
  rwa [hstart', hstop'] at hmove

include hm

theorem head?_middle (c : ℕ) : c ∈ (m ++ b).head? ↔ c ∈ m.head? := by
  rw [List.head?_append_of_ne_nil _ hm]

theorem mem_of_front (h : e ∈ statuses (a ++ 10 :: b)) (hstop : e.stop ≤ a.length) :
    e ∈ statuses (a ++ (m ++ b)) ↔ ¬ Cut a m e := by
  constructor
  · rintro hmem ⟨hend, hword⟩
    obtain ⟨c, hc, hstatus⟩ := (Option.any_eq_true _ _).1 hword
    rw [not_word_behind (occurs_of_mem hmem) hend c ((head?_middle hm c).2 hc)] at hstatus
    cases hstatus
  · intro hcut
    refine mem_findall_transfer h hstop (occurs_front (occurs_of_mem h) hstop fun hend c hc => ?_)
    by_contra hstatus
    rw [Bool.not_eq_false] at hstatus
    exact hcut ⟨hend, (Option.any_eq_true _ _).2 ⟨c, (head?_middle hm c).1 hc, hstatus⟩⟩

theorem mem_of_joined (h : e ∈ statuses (a ++ 10 :: b)) (hjoined : Joined a e) :
    inWhole a m e ∈ statuses (a ++ (m ++ b)) ↔ ∀ c ∈ m, isBlank c = true := by
  have hwhole : inWhole a m e = ⟨e.start, e.stop + m.length - 1, e.value⟩ := by
    unfold inWhole place
    rw [if_pos hjoined.1.le, if_neg (Nat.not_le.2 hjoined.2)]
  have hiff := occurs_blanks_iff (occurs_of_mem h) (c := 10) rfl hjoined.1 hjoined.2 hm
  rw [hwhole]
  refine ⟨fun hmem => hiff.1 (occurs_of_mem hmem), fun hblank => mem_findall_iff.2 ⟨hiff.2 hblank, ?_⟩⟩
  intro g hg hlt
  by_contra hcover
  -- a status that it begins in ends with its first three bytes, so it is found without the middle too
  have hstop := stop_of_inner (hiff.2 hblank) (occurs_of_mem hg) hlt (Nat.lt_of_not_le hcover)
  simp only at hstop
  have hthree : e.start + 3 ≤ a.length := szs_before_blank (occurs_of_mem h) rfl hjoined.1 hjoined.2
  have hle := stop_le_start h (mem_edges_of_front hg (by omega)) hlt
  omega

theorem mem_of_behind (h : e ∈ statuses (a ++ 10 :: b)) (hstart : a.length < e.start) :
    inWhole a m e ∈ statuses (a ++ (m ++ b)) ↔ ¬ Entered a m b e := by
  have hpos : 0 < m.length := List.length_pos_iff.2 hm
  have hlt := (occurs_of_mem h).start_lt
  have hwhole : inWhole a m e = ⟨e.start + m.length - 1, e.stop + m.length - 1, e.value⟩ := by
    unfold inWhole place
    rw [if_neg (by omega), if_neg (by omega)]
  have hplace : place a m e.start = e.start + m.length - 1 := if_neg (by omega)
  have hlast : (a ++ m).getLast? = m.getLast? := List.getLast?_append_of_ne_nil a hm
  unfold Entered
  rw [hwhole, hplace]
  constructor
  · rintro hmem ⟨-, ⟨hfirst, hword⟩ | ⟨s, hs, hbefore, hcover⟩⟩
    · obtain ⟨x, p, htext, hprev, heq⟩ := occurs_iff.1 (occurs_of_mem hmem)
      have hx := (Found.mk.inj heq).1
      rw [← List.append_assoc] at htext
      obtain ⟨rfl, -⟩ := List.append_inj htext (by rw [List.length_append]; omega)
      rw [hlast, hword] at hprev
      cases hprev
    · have hle := stop_le_start hmem hs hbefore
      simp only at hle
      omega
  · intro hentered
    refine mem_findall_iff.2 ⟨?_, fun s hs hbefore => ?_⟩
    · have hoccurs := occurs_of_mem h
      rw [← List.singleton_append, ← List.append_assoc] at hoccurs
      have hmove := hoccurs.move (y := a ++ m) (by rw [List.length_append]; exact hstart) fun hfirst r hread => by
        obtain ⟨n, word⟩ := r
        obtain ⟨-, p, hp, hn, hword⟩ := parts_of_statusAt hread
        rw [List.length_append] at hfirst
        have hprev : (a ++ m).getLast?.any isWordByte = false := by
          rw [hlast]
          by_contra hword
          exact hentered ⟨hstart, .inl ⟨hfirst, Bool.eq_true_of_not_eq_false hword⟩⟩
        rw [← hp]
        exact (statusAt_of_parts p hprev).trans (by rw [hn, hword])
      rw [List.length_append, List.length_append, List.length_singleton, List.append_assoc] at hmove
      have hstart' : e.start - (a.length + 1) + (a.length + m.length) = e.start + m.length - 1 := by omega
      have hstop' : e.stop - (a.length + 1) + (a.length + m.length) = e.stop + m.length - 1 := by omega
      rwa [hstart', hstop'] at hmove
    · by_contra hcover
      exact hentered ⟨hstart, .inr ⟨s, hs, hbefore, Nat.lt_of_not_le hcover⟩⟩

omit hm

/-- Where the log has a status in its last part, one is found without the middle that ends behind its beginning. -/
theorem exists_edges_of_behind (h : s ∈ statuses (a ++ (m ++ b))) (hstart : a.length + m.length ≤ s.start) :
    ∃ f ∈ statuses (a ++ 10 :: b), s.start + 1 - m.length < f.stop :=
  exists_found (occurs_edges_of_behind (occurs_of_mem h) hstart)

theorem edges_ne_nil (h : s ∈ statuses (a ++ (m ++ b))) (hs : s.stop ≤ a.length ∨ a.length + m.length ≤ s.start) :
    statuses (a ++ 10 :: b) ≠ [] := by
  rcases hs with hstop | hstart
  · exact List.ne_nil_of_mem (mem_edges_of_front h hstop)
  · obtain ⟨f, hf, -⟩ := exists_edges_of_behind h hstart
    exact List.ne_nil_of_mem hf

section Last

variable (hlast : (statuses (a ++ 10 :: b)).getLast? = some e)

include hlast

/-- Behind a last status of the first part there is none of the two parts in the log. -/
theorem start_le_of_front (hstop : e.stop ≤ a.length) (h : s ∈ statuses (a ++ (m ++ b)))
    (hs : s.stop ≤ a.length ∨ a.length + m.length ≤ s.start) : s.start ≤ e.start := by
  have hlt := (occurs_of_mem (mem_of_last hlast)).start_lt
  rcases hs with hfront | hbehind
  · have hslt := (occurs_of_mem h).start_lt
    rcases stop_le_of_last hlast (mem_edges_of_front h hfront) with rfl | hle
    · exact le_rfl
    · omega
  · obtain ⟨f, hf, hcover⟩ := exists_edges_of_behind h hbehind
    rcases stop_le_of_last hlast hf with rfl | hle
    · omega
    · omega

/-- Behind a last status of the last part that the log has too, the log has none. -/
theorem start_le_of_behind (hstart : a.length < e.start) (hmem : inWhole a m e ∈ statuses (a ++ (m ++ b)))
    (h : s ∈ statuses (a ++ (m ++ b))) : s.start ≤ (inWhole a m e).start := by
  have hlt := (occurs_of_mem (mem_of_last hlast)).start_lt
  by_contra hbehind
  have hle := stop_le_start h hmem (Nat.lt_of_not_le hbehind)
  have hplace : (inWhole a m e).stop = e.stop + m.length - 1 := if_neg (by omega)
  obtain ⟨f, hf, hcover⟩ := exists_edges_of_behind h (by omega)
  rcases stop_le_of_last hlast hf with rfl | hle'
  · omega
  · omega

end Last

/-! ### The log -/

/-- The status of the log at the place of one in the bytes that are read. -/
def inLog (log : List ℕ) (e : Status) : Status :=
  if log.length ≤ half * 2 then e else inWhole (beginning log) (middle log) e

/-- The status that is reported is one of the log, and the last one in the first and the last half MiB if there is
any. -/
structure Faithful (log : List ℕ) : Prop where
  isStatus : ∀ e, reported log = some e → inLog log e ∈ statuses log
  last : (∃ s ∈ statuses log, Within log s) → ∃ e, reported log = some e ∧ Within log (inLog log e) ∧
    ∀ s ∈ statuses log, Within log s → s.start ≤ (inLog log e).start

/-- The last status in the bytes of a log of more than one MiB that are read is not cut, does not begin in the middle
of something, and goes over to the last half MiB only where just blanks have been left out, and no status lies in the
first or in the last half MiB. -/
def Unharmed (log : List ℕ) : Prop :=
  half * 2 < log.length → ∀ e, reported log = some e →
    ¬ Cut (beginning log) (middle log) e ∧ ¬ Entered (beginning log) (middle log) (ending log) e ∧
    (Joined (beginning log) e → (∀ c ∈ middle log, isBlank c = true) ∧ ∀ s ∈ statuses log, ¬ Within log s)

/-- The word of a status. -/
def wordOf (s : Status) : Text := s.value.map Char.ofNat

/-- The word that is reported is that of a status of the log, and of the last one in the first and the last half MiB
if there is any. -/
structure NeverCut (log : List ℕ) : Prop where
  complete : ∀ w, reportedWord log = some w → ∃ s ∈ statuses log, wordOf s = w
  last : (∃ s ∈ statuses log, Within log s) → ∃ s ∈ statuses log, Within log s ∧
    (∀ s' ∈ statuses log, Within log s' → s'.start ≤ s.start) ∧ reportedWord log = some (wordOf s)

variable {log t : List ℕ}

theorem value_inLog (log : List ℕ) (e : Status) : (inLog log e).value = e.value := by
  unfold inLog
  split <;> rfl

theorem neverCut_of_faithful (h : Faithful log) : NeverCut log where
  complete w hw := by
    obtain ⟨e, he, rfl⟩ := Option.map_eq_some_iff.1 hw
    exact ⟨inLog log e, h.isStatus e he, by rw [wordOf, value_inLog]⟩
  last hs := by
    obtain ⟨e, he, hwithin, hlast⟩ := h.last hs
    refine ⟨inLog log e, h.isStatus e he, hwithin, hlast, ?_⟩
    rw [reportedWord, he, wordOf, value_inLog]
    rfl

/-- A log of at most one MiB is read as it is. -/
theorem faithful_of_short (h : log.length ≤ half * 2) : Faithful log := by
  have hedges : readMemberEdges log false = log := by
    unfold readMemberEdges
    rw [if_pos h, List.take_of_length_le h]
  have hin : ∀ e, inLog log e = e := fun e => if_pos h
  have hwithin : ∀ s : Status, Within log s := fun s i _ _ => by omega
  constructor
  · intro e he
    rw [reported, hedges] at he
    rw [hin]
    exact mem_of_last he
  · rintro ⟨s, hs, -⟩
    obtain ⟨e, he⟩ := Option.ne_none_iff_exists'.1 fun hnone =>
      List.ne_nil_of_mem hs (List.getLast?_eq_none_iff.1 hnone)
    refine ⟨e, by rw [reported, hedges, he], hwithin _, fun s' hs' _ => ?_⟩
    rw [hin]
    have hlt := (occurs_of_mem hs').start_lt
    rcases stop_le_of_last he hs' with rfl | hle
    · exact le_rfl
    · omega

section Long

variable (h : half * 2 < log.length)

include h

theorem beginning_length : (beginning log).length = half := by
  rw [beginning, List.length_take]
  omega

theorem middle_length : (middle log).length = log.length - half * 2 := by
  rw [middle, List.length_take, List.length_drop]
  omega

theorem middle_ne : middle log ≠ [] := List.ne_nil_of_length_pos (by rw [middle_length h]; omega)

theorem log_eq : beginning log ++ (middle log ++ ending log) = log := by
  have hend : ending log = (log.drop half).drop (log.length - half * 2) := by
    have hlen : half + (log.length - half * 2) = log.length - half := by omega
    rw [ending, List.drop_drop, hlen]
  rw [hend, middle, List.take_append_drop, beginning, List.take_append_drop]

theorem edges_eq : readMemberEdges log false = beginning log ++ 10 :: ending log := by
  have hlen : (log.drop (log.length - half)).length = half := by
    rw [List.length_drop]
    omega
  unfold readMemberEdges
  rw [if_neg (by omega)]
  simp only [Bool.false_eq_true, if_false, beginning, ending]
  rw [List.take_of_length_le hlen.le]

theorem within_iff (hlt : s.start < s.stop) : Within log s ↔
    s.stop ≤ (beginning log).length ∨ (beginning log).length + (middle log).length ≤ s.start := by
  rw [beginning_length h, middle_length h]
  constructor
  · intro hwithin
    have hfirst := hwithin s.start le_rfl hlt
    by_contra hnot
    rw [not_or] at hnot
    have hcross := hwithin half (by omega) (by omega)
    omega
  · rintro (hstop | hstart) i hi hi'
    · exact .inl (by omega)
    · exact .inr (by omega)

end Long

/-- In a longer log, the place of the status that is reported is that of a status of the log exactly if nothing has
happened to it. -/
theorem mem_inLog_iff (h : half * 2 < log.length) {e : Status} (he : reported log = some e) :
    inLog log e ∈ statuses log ↔ ¬ Cut (beginning log) (middle log) e ∧
      ¬ Entered (beginning log) (middle log) (ending log) e ∧
      (Joined (beginning log) e → ∀ c ∈ middle log, isBlank c = true) := by
  have hmem : e ∈ statuses (beginning log ++ 10 :: ending log) := by
    rw [reported, edges_eq h] at he
    exact mem_of_last he
  have hin : inLog log e = inWhole (beginning log) (middle log) e := if_neg (Nat.not_le.2 h)
  have hlt := (occurs_of_mem hmem).start_lt
  have hne := start_ne (occurs_of_mem hmem)
  have hm : middle log ≠ [] := middle_ne h
  have hwhole : inLog log e ∈ statuses log ↔
      inWhole (beginning log) (middle log) e ∈ statuses (beginning log ++ (middle log ++ ending log)) := by
    rw [hin, log_eq h]
  rw [hwhole]
  rcases Nat.lt_or_gt_of_ne hne with hbefore | hbehind
  · by_cases hstop : e.stop ≤ (beginning log).length
    · rw [inWhole_front hbefore.le hstop, mem_of_front hm hmem hstop]
      refine ⟨fun hcut => ⟨hcut, fun hentered => ?_, fun hjoined => ?_⟩, fun hall => hall.1⟩
      · have := hentered.1
        omega
      · have := hjoined.2
        omega
    · have hjoined : Joined (beginning log) e := ⟨hbefore, Nat.lt_of_not_le hstop⟩
      rw [mem_of_joined hm hmem hjoined]
      refine ⟨fun hblank => ⟨fun hcut => ?_, fun hentered => ?_, fun _ => hblank⟩, fun hall => hall.2.2 hjoined⟩
      · exact hstop hcut.1.le
      · have := hentered.1
        omega
  · rw [mem_of_behind hm hmem hbehind]
    refine ⟨fun hentered => ⟨fun hcut => ?_, hentered, fun hjoined => ?_⟩, fun hall => hall.2.1⟩
    · have := hcut.1
      omega
    · have := hjoined.1
      omega

theorem unharmed_of_faithful (h : half * 2 < log.length) (hf : Faithful log) : Unharmed log := by
  intro _ e he
  have hmem := hf.isStatus e he
  obtain ⟨hcut, hentered, hblank⟩ := (mem_inLog_iff h he).1 hmem
  refine ⟨hcut, hentered, fun hjoined => ⟨hblank hjoined, fun s hs hwithin => ?_⟩⟩
  obtain ⟨e', he', hwithin', -⟩ := hf.last ⟨s, hs, hwithin⟩
  obtain rfl : e = e' := Option.some.inj (he.symm.trans he')
  obtain ⟨hstart, hstop⟩ := hjoined
  have hin : inLog log e = ⟨e.start, e.stop + (middle log).length - 1, e.value⟩ := by
    unfold inLog inWhole place
    rw [if_neg (by omega), if_pos hstart.le, if_neg (by omega)]
  rw [within_iff h (occurs_of_mem hmem).start_lt, hin] at hwithin'
  have hm : 0 < (middle log).length := List.length_pos_iff.2 (middle_ne h)
  rcases hwithin' with hle | hle
  · simp only at hle
    omega
  · simp only at hle
    omega

theorem faithful_of_unharmed (h : half * 2 < log.length) (hu : Unharmed log) : Faithful log where
  isStatus e he := by
    obtain ⟨hcut, hentered, hjoined⟩ := hu h e he
    exact (mem_inLog_iff h he).2 ⟨hcut, hentered, fun hj => (hjoined hj).1⟩
  last := by
    rintro ⟨s, hs, hwithin⟩
    have hparts : ∀ s ∈ statuses log, Within log s →
        s ∈ statuses (beginning log ++ (middle log ++ ending log)) ∧
        (s.stop ≤ (beginning log).length ∨ (beginning log).length + (middle log).length ≤ s.start) := by
      intro s hs hwithin
      rw [log_eq h]
      exact ⟨hs, (within_iff h (occurs_of_mem hs).start_lt).1 hwithin⟩
    obtain ⟨e, he⟩ : ∃ e, reported log = some e := by
      rw [reported, edges_eq h]
      exact Option.ne_none_iff_exists'.1 fun hnone =>
        edges_ne_nil (hparts s hs hwithin).1 (hparts s hs hwithin).2 (List.getLast?_eq_none_iff.1 hnone)
    obtain ⟨hcut, hentered, hjoined⟩ := hu h e he
    have hmem : inLog log e ∈ statuses log := (mem_inLog_iff h he).2 ⟨hcut, hentered, fun hj => (hjoined hj).1⟩
    have hlast : (statuses (beginning log ++ 10 :: ending log)).getLast? = some e := by
      rwa [reported, edges_eq h] at he
    have hin : inLog log e = inWhole (beginning log) (middle log) e := if_neg (Nat.not_le.2 h)
    refine ⟨e, he, ?_⟩
    rw [within_iff h (occurs_of_mem hmem).start_lt]
    have hlt := (occurs_of_mem (mem_of_last hlast)).start_lt
    rcases Nat.lt_or_gt_of_ne (start_ne (occurs_of_mem (mem_of_last hlast))) with hbefore | hbehind
    · have hstop : e.stop ≤ (beginning log).length := by
        by_contra hstop
        exact (hjoined ⟨hbefore, Nat.lt_of_not_le hstop⟩).2 s hs hwithin
      rw [hin, inWhole_front hbefore.le hstop]
      exact ⟨.inl hstop, fun s' hs' hw => start_le_of_front hlast hstop (hparts s' hs' hw).1 (hparts s' hs' hw).2⟩
    · rw [hin] at hmem ⊢
      refine ⟨.inr ?_, fun s' hs' hw => start_le_of_behind hlast hbehind (by rwa [log_eq h]) (hparts s' hs' hw).1⟩
      have hplace : (inWhole (beginning log) (middle log) e).start = e.start + (middle log).length - 1 :=
        if_neg (by omega)
      omega

theorem faithful_iff (log : List ℕ) : Faithful log ↔ Unharmed log := by
  rcases Nat.lt_or_ge (half * 2) log.length with h | h
  · exact ⟨unharmed_of_faithful h, faithful_of_unharmed h⟩
  · exact iff_of_true (faithful_of_short h) fun hlong => absurd hlong (Nat.not_lt.2 h)

/-- What `scan` finds for a task has been reported from a log of the archive. -/
theorem exists_log_of_mem {members : List LogMember} {found : List (ℕ × Text)} {r : ℕ × Text}
    (h : r ∈ members.foldl scanMember found) : r ∈ found ∨ ∃ member ∈ members, ∃ log, member.content = some log ∧
      logTask (PosixPath.parse member.name).str = some r.1 ∧ reportedWord log = some r.2 := by
  induction members generalizing found with
  | nil => exact .inl h
  | cons member members ih =>
    rcases ih h with hfound | ⟨other, hother, hlog⟩
    · unfold scanMember at hfound
      split at hfound
      · next task word htask hword =>
        split at hfound
        · rcases Dict.mem_put hfound with hfound | rfl
          · exact .inl hfound
          · obtain ⟨log, hlog, hreported⟩ := Option.bind_eq_some_iff.1 hword
            exact .inr ⟨member, List.mem_cons_self, log, hlog, htask, hreported⟩
        · exact .inl hfound
      · exact .inl hfound
    · exact .inr ⟨other, List.mem_cons_of_mem member hother, hlog⟩

/-- From archives with such logs only whole statuses come. -/
theorem scanMembers_complete {members : List LogMember}
    (hlogs : ∀ member ∈ members, ∀ log, member.content = some log → Unharmed log) {r : ℕ × Text}
    (h : r ∈ scanMembers members) : ∃ member ∈ members, ∃ log, member.content = some log ∧
      ∃ s ∈ statuses log, wordOf s = r.2 := by
  rcases exists_log_of_mem h with hnil | ⟨member, hmember, log, hlog, -, hreported⟩
  · cases hnil
  · have hfaithful := (faithful_iff log).2 (hlogs member hmember log hlog)
    exact ⟨member, hmember, log, hlog, (neverCut_of_faithful hfaithful).complete _ hreported⟩

/-- What is reported is a status of the log, and the last one in the first and the last half MiB if there is any,
exactly for the logs in which nothing happens to the last status that is read; then its word is never cut. From
archives with such logs `scan` takes only words of their statuses. -/
theorem archived_status_iff (log : List ℕ) (members : List LogMember) :
    (Faithful log ↔ Unharmed log) ∧ (Unharmed log → NeverCut log) ∧
      ((∀ member ∈ members, ∀ log, member.content = some log → Unharmed log) → ∀ r ∈ scanMembers members,
        ∃ member ∈ members, ∃ log, member.content = some log ∧ ∃ s ∈ statuses log, wordOf s = r.2) :=
  ⟨faithful_iff log, fun h => neverCut_of_faithful ((faithful_iff log).2 h),
    fun hlogs _ h => scanMembers_complete hlogs h⟩

/-! ### A word that is cut -/

/-- `SZS status Theor` -/
def cutParts : Parts where
  szs := [83, 90, 83]
  blanks := [32]
  status := [115, 116, 97, 116, 117, 115]
  blanks' := [32]
  word := [84, 104, 101, 111, 114]
  rest := []
  szs_lower := rfl
  status_lower := rfl
  blank := by decide
  blank' := by decide
  blanks_ne := by decide
  blanks'_ne := by decide
  word_head := rfl
  word_bytes := by decide
  rest_head := by decide

/-- `SZS status Theorem` -/
def fullParts : Parts := { cutParts with word := [84, 104, 101, 111, 114, 101, 109], word_head := rfl, word_bytes := by decide }

/-- Newlines, and a status whose word goes on behind the first half MiB. -/
def cutLog : List ℕ :=
  List.replicate (half - 16) 10 ++ (fullParts.matched ++ List.replicate half 10)

theorem word_at (h : Occurs statusPattern t s) : ∃ c, t[s.start]? = some c ∧ isWordByte c = true := by
  obtain ⟨u, p, rfl, -, rfl⟩ := occurs_iff.1 h
  obtain ⟨x, y, z, hszs, -, -⟩ := p.head_szs
  refine ⟨x, ?_, p.szs_word (hszs ▸ List.mem_cons_self)⟩
  rw [List.getElem?_append_right le_rfl, Nat.sub_self, Parts.text, hszs]
  rfl

/-- A match between newlines is the only status. -/
theorem eq_of_newlines {n k : ℕ} {p : Parts}
    (ht : t = List.replicate n 10 ++ (p.matched ++ List.replicate k 10)) :
    (∃ s, s ∈ statuses t) ∧ ∀ s ∈ statuses t, s = ⟨n, n + p.length, p.word⟩ := by
  subst ht
  have hnewline : ∀ i, i < n ∨ n + p.length ≤ i → ∀ c,
      (List.replicate n 10 ++ (p.matched ++ List.replicate k 10))[i]? = some c → c = 10 := by
    rintro i (hi | hi) c hc
    · rw [List.getElem?_append_left (by rwa [List.length_replicate])] at hc
      exact (List.mem_replicate.1 (List.mem_of_getElem? hc)).2
    · rw [← List.append_assoc, List.getElem?_append_right (by
        rwa [List.length_append, List.length_replicate, p.matched_length])] at hc
      exact (List.mem_replicate.1 (List.mem_of_getElem? hc)).2
  have hplace : ∀ s, Occurs statusPattern (List.replicate n 10 ++ (p.matched ++ List.replicate k 10)) s →
      n ≤ s.start ∧ s.start < n + p.length := by
    intro s hs
    obtain ⟨c, hc, hword⟩ := word_at hs
    by_contra hnot
    rw [hnewline s.start (by omega) c hc] at hword
    cases hword
  have hrest : ∀ c ∈ (List.replicate k 10).head?, isStatusByte c = false := fun c hc => by
    rw [(List.mem_replicate.1 (List.mem_of_mem_head? hc)).2]
    rfl
  have hprev : (List.replicate n 10).getLast?.any isWordByte = false := by
    rw [List.getLast?_replicate]
    split <;> rfl
  have hoccurs : Occurs statusPattern (List.replicate n 10 ++ (p.matched ++ List.replicate k 10))
      ⟨n, n + p.length, p.word⟩ :=
    ⟨_, _, p.length, rfl, List.length_replicate.symm, by rw [List.length_replicate], statusAt_matched p hprev hrest⟩
  have hmem : (⟨n, n + p.length, p.word⟩ : Status) ∈
      statuses (List.replicate n 10 ++ (p.matched ++ List.replicate k 10)) := by
    refine mem_findall_iff.2 ⟨hoccurs, fun g hg hlt => ?_⟩
    have hstart := (hplace g (occurs_of_mem hg)).1
    simp only at hlt
    omega
  refine ⟨⟨_, hmem⟩, fun s hs => ?_⟩
  obtain ⟨hfirst, hlast⟩ := hplace s (occurs_of_mem hs)
  rcases Nat.eq_or_lt_of_le hfirst with heq | hlt
  · exact (occurs_of_mem hs).eq_of_start hoccurs heq.symm
  · have hle := stop_le_start hs hmem hlt
    simp only at hle
    omega

theorem half_eq : half = half - 16 + 16 := by
  have hle : 16 ≤ half := by decide
  omega

/-- The bytes of the log that are read end in the middle of the word. -/
theorem edges_cutLog : readMemberEdges cutLog false =
    List.replicate (half - 16) 10 ++ (cutParts.matched ++ List.replicate (half + 1) 10) := by
  have hlog : cutLog = (List.replicate (half - 16) 10 ++ cutParts.matched) ++ ([101, 109] ++ List.replicate half 10) := by
    simp only [cutLog, List.append_assoc]
    rfl
  have hfirst : (List.replicate (half - 16) 10 ++ cutParts.matched).length = half := by
    rw [List.length_append, List.length_replicate]
    exact half_eq.symm
  have hlen : cutLog.length = half + (2 + half) := by
    rw [hlog, List.length_append, hfirst, List.length_append, List.length_replicate]
    rfl
  have hlong : half * 2 < cutLog.length := by omega
  have hbeginning : beginning cutLog = List.replicate (half - 16) 10 ++ cutParts.matched := by
    rw [beginning, hlog]
    exact List.take_left' hfirst
  have hending : ending cutLog = List.replicate half 10 := by
    have hdrop : cutLog.length - half = half + 2 := by omega
    rw [ending, hdrop, hlog, ← List.append_assoc]
    refine List.drop_left' ?_
    rw [List.length_append, hfirst]
    rfl
  rw [edges_eq hlong, hbeginning, hending, List.append_assoc]
  rfl

/-- `Theor` is reported, and the log has no such status. -/
theorem theor_reported : reportedWord cutLog = some "Theor".toList ∧ ¬ NeverCut cutLog := by
  have hreported : reportedWord cutLog = some "Theor".toList := by
    obtain ⟨⟨s, hs⟩, hall⟩ := eq_of_newlines edges_cutLog
    obtain ⟨e, he⟩ : ∃ e, reported cutLog = some e := Option.ne_none_iff_exists'.1 fun hnone =>
      List.ne_nil_of_mem hs (List.getLast?_eq_none_iff.1 hnone)
    rw [reportedWord, he, hall e (mem_of_last he)]
    rfl
  refine ⟨hreported, fun h => ?_⟩
  obtain ⟨s, hs, hword⟩ := h.complete _ hreported
  obtain ⟨-, hall⟩ := eq_of_newlines (t := cutLog) rfl
  rw [hall s hs] at hword
  cases hword

end Statuses
end Export
end Slurmy
