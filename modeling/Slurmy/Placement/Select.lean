import Mathlib.Tactic
import Mathlib.Data.List.Sort
import Slurmy.Lib.Dict
import Slurmy.Lib.ShellArith

/-!
# Cores for a call

`batch.sh` reads the topology of its node and chooses the cores of a call.

* `Node`: what `lscpu` and the kernel say about the CPUs;
* `Tables`: the arrays that the script fills from it;
* `Request`, `Request.read`: what a call asks for, as it is written and as the shell reads it;
* `candidates`, `selectFrom`: the choice, socket by socket;
* `place`, `placeWave`: the CPUs of a call, and of calls that run together;
* `get_coreCpu`, `whole_iff`: what the arrays hold.
-/

namespace Slurmy
namespace Placement

/-- A line of `lscpu -p=CPU,CORE,SOCKET`. -/
structure Cpu where
  cpu : ℕ
  core : ℕ
  socket : ℕ
  deriving DecidableEq

/-- `$socket:$core`. -/
abbrev Key := ℕ × ℕ

def Cpu.key (c : Cpu) : Key := (c.socket, c.core)

/-- The lines of `lscpu`, one for each CPU, and the ranges of `Cpus_allowed_list`. -/
structure Node where
  cpus : List Cpu
  nodup : (cpus.map Cpu.cpu).Nodup
  ranges : List (ℕ × ℕ)

/-- `${ALLOWED[$cpu]:-}`. -/
def Node.allowed (n : Node) (cpu : ℕ) : Bool := n.ranges.any fun r => decide (r.1 ≤ cpu) && decide (cpu ≤ r.2)

/-! ### The arrays -/

/-- `CORE_CPU`, `CORE_SOCKET`, `SOCKET_TOTAL` and `SOCKET_ALLOWED`. -/
structure Tables where
  coreCpu : List (Key × List ℕ)
  coreSocket : List (Key × ℕ)
  socketTotal : List (ℕ × ℕ)
  socketAllowed : List (ℕ × ℕ)

def Tables.empty : Tables := ⟨[], [], [], []⟩

/-- One line of `lscpu`. -/
def Tables.read (allowed : ℕ → Bool) (t : Tables) (c : Cpu) : Tables :=
  let t := { t with socketTotal := Dict.put t.socketTotal c.socket ((Dict.get t.socketTotal c.socket).getD 0 + 1) }
  if allowed c.cpu then
    { t with
      socketAllowed := Dict.put t.socketAllowed c.socket ((Dict.get t.socketAllowed c.socket).getD 0 + 1)
      coreCpu := Dict.put t.coreCpu c.key ((Dict.get t.coreCpu c.key).getD [] ++ [c.cpu])
      coreSocket := Dict.put t.coreSocket c.key c.socket }
  else t

def Node.tables (n : Node) : Tables := n.cpus.foldl (Tables.read n.allowed) Tables.empty

/-- `sort -t: -k1,1n -k2,2n` of the keys of `CORE_CPU`. -/
def Tables.coreKeys (t : Tables) : List Key :=
  (t.coreCpu.map Prod.fst).insertionSort fun a b => toLex a ≤ toLex b

/-- `sort -n` of the keys of `SOCKET_TOTAL`. -/
def Tables.sockets (t : Tables) : List ℕ := (t.socketTotal.map Prod.fst).insertionSort (· ≤ ·)

/-- `core_threads`. -/
def Tables.threads (t : Tables) (key : Key) : List ℕ := (Dict.get t.coreCpu key).getD []

/-- All CPUs of the socket are allowed. -/
def Tables.whole (t : Tables) (socket : ℕ) : Bool :=
  (Dict.get t.socketAllowed socket).getD 0 = (Dict.get t.socketTotal socket).getD 0

/-! ### The choice -/

/-- `TASK_CORES`, `TASK_CPUS` and `TASK_THREADS_PER_CORE` of a call, as the numbers that are written, and the
`EXCLUSIVE_CPU` of its batch. -/
structure Request where
  cores : ℕ
  cpus : ℕ
  threads : ℕ
  exclusiveCpu : Bool
  deriving DecidableEq

def Request.need (r : Request) : ℤ := ShellArith.wrap r.cores

def Request.socketLimit (r : Request) : ℤ := ShellArith.wrap r.cpus

def Request.threadsNeeded (r : Request) : ℤ := ShellArith.wrap r.threads

/-- The numbers as the shell reads them; one below zero counts as none. -/
def Request.read (r : Request) : Request :=
  ⟨r.need.toNat, r.socketLimit.toNat, r.threadsNeeded.toNat, r.exclusiveCpu⟩

theorem Request.read_exclusiveCpu (r : Request) : r.read.exclusiveCpu = r.exclusiveCpu := rfl

/-- Numbers of 63 bits are read as they are written. -/
theorem Request.read_of_small {r : Request} (hcores : r.cores < 2 ^ 63) (hcpus : r.cpus < 2 ^ 63)
    (hthreads : r.threads < 2 ^ 63) : r.read = r := by
  unfold Request.read Request.need Request.socketLimit Request.threadsNeeded
  rw [ShellArith.wrap_natCast hcores, ShellArith.wrap_natCast hcpus, ShellArith.wrap_natCast hthreads]
  simp only [Int.toNat_natCast]

variable (t : Tables) (used : List Key) (r : Request)

/-- The cores of a socket that are free and have the threads. -/
def candidates (socket : ℕ) : List Key :=
  t.coreKeys.filter fun key =>
    decide (Dict.get t.coreSocket key = some socket) && decide (key ∉ used) &&
      decide (r.threadsNeeded ≤ (t.threads key).length)

/-- A core of the socket is in use. -/
def busy (socket : ℕ) : Bool :=
  t.coreKeys.any fun key => decide (Dict.get t.coreSocket key = some socket) && decide (key ∈ used)

/-- The variables `selected`, `reserved` and `used_sockets`. -/
structure Selection where
  selected : List Key
  reserved : List Key
  usedSockets : ℕ

def Selection.empty : Selection := ⟨[], [], 0⟩

/-- `if (( ${#selected[@]} < need )); then selected+=("$key"); fi` for some keys. -/
def select (need : ℤ) (selected keys : List Key) : List Key :=
  keys.foldl (fun selected key => if (selected.length : ℤ) < need then selected ++ [key] else selected) selected

/-- The loop over the sockets. -/
def selectFrom : List ℕ → Selection → Selection
  | [], s => s
  | socket :: sockets, s =>
      if (s.usedSockets : ℤ) < r.socketLimit then
        let keys := candidates t used r socket
        if r.exclusiveCpu && (busy t used socket || !t.whole socket) then selectFrom sockets s
        else
          let s := { s with reserved := if r.exclusiveCpu then s.reserved ++ keys else s.reserved }
          if keys.isEmpty then selectFrom sockets s
          else
            let s := { s with selected := select r.need s.selected keys, usedSockets := s.usedSockets + 1 }
            if !r.exclusiveCpu && decide ((s.selected.length : ℤ) = r.need) then s else selectFrom sockets s
      else s

/-- The CPUs of a call, and the cores that are marked as used. -/
structure Placed where
  mask : List ℕ
  reserved : List Key
  deriving DecidableEq

/-- `none` for `placement_failure`. -/
def place : Option Placed :=
  let s := selectFrom t used r t.sockets Selection.empty
  if (s.selected.length : ℤ) = r.need ∧ (r.exclusiveCpu = true → (s.usedSockets : ℤ) = r.socketLimit) then
    some
      { mask := s.selected.flatMap fun key =>
          (List.range r.threadsNeeded.toNat).filterMap fun thread => (t.threads key)[thread]?
        reserved := if r.exclusiveCpu then s.reserved else s.selected }
  else none

/-- The calls of a wave, one after the other. -/
def placeWave : List Key → List Request → Option (List Placed)
  | _, [] => some []
  | used, r :: rs => do
      let p ← place t used r
      let ps ← placeWave (used ++ p.reserved) rs
      return p :: ps

/-! ### What the arrays hold -/

section Arrays

variable (n : Node)

/-- The allowed CPUs of a core. -/
def Node.siblings (key : Key) : List ℕ :=
  ((n.cpus.filter fun c => n.allowed c.cpu).filter fun c => decide (c.key = key)).map Cpu.cpu

/-- The arrays after some lines. -/
structure Holds (allowed : ℕ → Bool) (cpus : List Cpu) (t : Tables) : Prop where
  coreCpu : ∀ key, (Dict.get t.coreCpu key).getD [] =
    ((cpus.filter fun c => allowed c.cpu).filter fun c => decide (c.key = key)).map Cpu.cpu
  keys : ∀ key, key ∈ t.coreCpu.map Prod.fst ↔ ∃ c ∈ cpus, allowed c.cpu = true ∧ c.key = key
  nodup : (t.coreCpu.map Prod.fst).Nodup
  coreSocket : ∀ key ∈ t.coreCpu.map Prod.fst, Dict.get t.coreSocket key = some key.1
  socketTotal : ∀ socket, (Dict.get t.socketTotal socket).getD 0 = (cpus.filter fun c => decide (c.socket = socket)).length
  socketAllowed : ∀ socket, (Dict.get t.socketAllowed socket).getD 0 =
    ((cpus.filter fun c => decide (c.socket = socket)).filter fun c => allowed c.cpu).length
  sockets : ∀ socket, socket ∈ t.socketTotal.map Prod.fst ↔ ∃ c ∈ cpus, c.socket = socket
  sockets_nodup : (t.socketTotal.map Prod.fst).Nodup

theorem holds_empty (allowed : ℕ → Bool) : Holds allowed [] Tables.empty where
  coreCpu _ := rfl
  keys _ := by simp [Tables.empty]
  nodup := List.nodup_nil
  coreSocket _ h := by cases h
  socketTotal _ := rfl
  socketAllowed _ := rfl
  sockets _ := by simp [Tables.empty]
  sockets_nodup := List.nodup_nil

theorem filter_concat {α : Type*} (p : α → Bool) (l : List α) (a : α) :
    (l ++ [a]).filter p = l.filter p ++ if p a = true then [a] else [] := by
  rw [List.filter_append, List.filter_singleton]
  cases p a <;> rfl

/-- One more line. -/
theorem Holds.read {allowed : ℕ → Bool} {cpus : List Cpu} {t : Tables} (h : Holds allowed cpus t) (c : Cpu) :
    Holds allowed (cpus ++ [c]) (t.read allowed c) := by
  -- the sockets count every line, the cores only the allowed ones
  have htotal : ∀ socket, (Dict.get (Dict.put t.socketTotal c.socket ((Dict.get t.socketTotal c.socket).getD 0 + 1))
      socket).getD 0 = ((cpus ++ [c]).filter fun c => decide (c.socket = socket)).length := by
    intro socket
    rw [Dict.get_put, filter_concat, List.length_append, ← h.socketTotal socket]
    by_cases hsocket : socket = c.socket
    · simp [hsocket]
    · simp [hsocket, Ne.symm hsocket]
  have hsockets : ∀ socket, socket ∈ (Dict.put t.socketTotal c.socket
      ((Dict.get t.socketTotal c.socket).getD 0 + 1)).map Prod.fst ↔ ∃ c' ∈ cpus ++ [c], c'.socket = socket := by
    intro socket
    rw [Dict.mem_keys_put, h.sockets socket]
    simp only [List.mem_append, List.mem_singleton, or_and_right, exists_or, exists_eq_left, eq_comm (a := socket)]
  have hnodup := Dict.nodup_keys_put h.sockets_nodup c.socket ((Dict.get t.socketTotal c.socket).getD 0 + 1)
  unfold Tables.read
  by_cases hc : allowed c.cpu = true
  · rw [if_pos hc]
    refine ⟨fun key => ?_, fun key => ?_, Dict.nodup_keys_put h.nodup _ _, fun key hkey => ?_, htotal, fun socket => ?_,
      hsockets, hnodup⟩
    · show (Dict.get (Dict.put t.coreCpu c.key ((Dict.get t.coreCpu c.key).getD [] ++ [c.cpu])) key).getD [] = _
      rw [Dict.get_put, filter_concat, if_pos hc, filter_concat, List.map_append, ← h.coreCpu key]
      by_cases hkey : key = c.key
      · simp [hkey]
      · simp [hkey, Ne.symm hkey]
    · show key ∈ (Dict.put t.coreCpu c.key ((Dict.get t.coreCpu c.key).getD [] ++ [c.cpu])).map Prod.fst ↔ _
      rw [Dict.mem_keys_put, h.keys key]
      constructor
      · rintro (⟨c', hc', hallowed, hkey⟩ | rfl)
        · exact ⟨c', List.mem_append_left _ hc', hallowed, hkey⟩
        · exact ⟨c, List.mem_append_right _ List.mem_cons_self, hc, rfl⟩
      · rintro ⟨c', hc', hallowed, hkey⟩
        rcases List.mem_append.1 hc' with hc' | hc'
        · exact .inl ⟨c', hc', hallowed, hkey⟩
        · rw [List.mem_singleton.1 hc'] at hkey
          exact .inr hkey.symm
    · show Dict.get (Dict.put t.coreSocket c.key c.socket) key = some key.1
      rw [Dict.get_put]
      split
      · next heq =>
        rw [heq]
        rfl
      · next hne => exact h.coreSocket key (((Dict.mem_keys_put _ _ _ _).1 hkey).resolve_right hne)
    · show (Dict.get (Dict.put t.socketAllowed c.socket ((Dict.get t.socketAllowed c.socket).getD 0 + 1)) socket).getD 0 = _
      rw [Dict.get_put, filter_concat, List.filter_append, List.length_append, ← h.socketAllowed socket]
      by_cases hsocket : socket = c.socket
      · simp [hsocket, hc]
      · simp [hsocket, Ne.symm hsocket]
  · rw [if_neg hc]
    refine ⟨fun key => ?_, fun key => ?_, h.nodup, h.coreSocket, htotal, fun socket => ?_, hsockets, hnodup⟩
    · rw [filter_concat, if_neg hc, List.append_nil]
      exact h.coreCpu key
    · rw [h.keys key]
      constructor
      · rintro ⟨c', hc', hallowed, hkey⟩
        exact ⟨c', List.mem_append_left _ hc', hallowed, hkey⟩
      · rintro ⟨c', hc', hallowed, hkey⟩
        rcases List.mem_append.1 hc' with hc' | hc'
        · exact ⟨c', hc', hallowed, hkey⟩
        · rw [List.mem_singleton.1 hc'] at hallowed
          exact absurd hallowed hc
    · rw [filter_concat, List.filter_append, List.length_append, h.socketAllowed socket]
      by_cases hsocket : c.socket = socket
      · simp [hsocket, hc]
      · simp [hsocket]

theorem holds_tables : Holds n.allowed n.cpus n.tables := by
  have hread : ∀ (cpus done : List Cpu) (t : Tables), Holds n.allowed done t →
      Holds n.allowed (done ++ cpus) (cpus.foldl (Tables.read n.allowed) t) := by
    intro cpus
    induction cpus with
    | nil =>
      intro done t h
      rwa [List.append_nil]
    | cons c cpus ih =>
      intro done t h
      have hnext := ih (done ++ [c]) (t.read n.allowed c) (h.read c)
      rwa [List.append_assoc] at hnext
  exact hread n.cpus [] Tables.empty (holds_empty n.allowed)

theorem threads_tables (key : Key) : n.tables.threads key = n.siblings key := (holds_tables n).coreCpu key

theorem mem_coreKeys {key : Key} : key ∈ n.tables.coreKeys ↔ ∃ c ∈ n.cpus, n.allowed c.cpu = true ∧ c.key = key := by
  rw [← (holds_tables n).keys key]
  exact (List.perm_insertionSort _ _).mem_iff

theorem nodup_coreKeys : n.tables.coreKeys.Nodup :=
  (List.perm_insertionSort _ _).nodup_iff.2 (holds_tables n).nodup

theorem mem_sockets {socket : ℕ} : socket ∈ n.tables.sockets ↔ ∃ c ∈ n.cpus, c.socket = socket := by
  rw [← (holds_tables n).sockets socket]
  exact (List.perm_insertionSort _ _).mem_iff

theorem nodup_sockets : n.tables.sockets.Nodup :=
  (List.perm_insertionSort _ _).nodup_iff.2 (holds_tables n).sockets_nodup

theorem coreSocket_tables {key : Key} (h : key ∈ n.tables.coreKeys) : Dict.get n.tables.coreSocket key = some key.1 :=
  (holds_tables n).coreSocket key ((List.perm_insertionSort _ _).mem_iff.1 h)

theorem whole_iff {socket : ℕ} :
    n.tables.whole socket = true ↔ ∀ c ∈ n.cpus, c.socket = socket → n.allowed c.cpu = true := by
  unfold Tables.whole
  rw [decide_eq_true_eq, (holds_tables n).socketAllowed, (holds_tables n).socketTotal, List.length_filter_eq_length_iff]
  constructor
  · intro h c hc hsocket
    exact h c (List.mem_filter.2 ⟨hc, decide_eq_true hsocket⟩)
  · intro h c hc
    exact h c (List.mem_filter.1 hc).1 (of_decide_eq_true (List.mem_filter.1 hc).2)

end Arrays

end Placement
end Slurmy
