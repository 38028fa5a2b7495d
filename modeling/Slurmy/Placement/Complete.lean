import Slurmy.Lib.Fullest
import Slurmy.Placement.Sound

/-!
# When a call finds its cores

The loop takes the sockets in their order, so it may use up the number of sockets before it comes to those
that hold enough cores.

* `Node.suitable`, `Node.usable`: the cores of a socket that a call can use, and the sockets it may use;
* `Fits`: some sockets hold what the call asks for;
* `place_isSome_iff`: what the loop finds;
* `place_complete_iff`: exactly when it finds a place that exists.
-/

namespace Slurmy
namespace Placement

variable (n : Node) (r : Request)

/-- The cores of a socket with an allowed CPU. -/
def Node.cores (socket : ℕ) : List Key :=
  ((n.cpus.filter fun c => n.allowed c.cpu).map Cpu.key).dedup.filter fun key => key.1 = socket

/-- Those with enough of them. -/
def Node.suitable (threads socket : ℕ) : ℕ :=
  ((n.cores socket).filter fun key => threads ≤ (n.siblings key).length).length

def Node.isWhole (socket : ℕ) : Bool := n.cpus.all fun c => decide (c.socket = socket → n.allowed c.cpu = true)

/-- The sockets that a call may use, by number: with `EXCLUSIVE_CPU`, those that are allowed as a whole. -/
def Node.usable (exclusive : Bool) : List ℕ :=
  (((n.cpus.map Cpu.socket).dedup).insertionSort (· ≤ ·)).filter fun socket => !exclusive || n.isWhole socket

/-- Some sockets hold the cores, by the numbers as they are written: at most `r.cpus` of them, with `EXCLUSIVE_CPU` that
many. -/
def Fits : Prop :=
  ∃ S : Finset ℕ, (∀ socket ∈ S, socket ∈ n.usable r.exclusiveCpu) ∧
    (if r.exclusiveCpu then S.card = r.cpus else S.card ≤ r.cpus) ∧ r.cores ≤ ∑ socket ∈ S, n.suitable r.threads socket

/-- The first sockets with a suitable core, as many as the call may use, by the numbers as the shell reads them. -/
def firstSockets : List ℕ :=
  ((n.usable r.exclusiveCpu).filter fun socket => 0 < n.suitable r.read.threads socket).take r.read.cpus

/-- They hold the cores. -/
def FirstSuffice : Prop :=
  (0 ≤ r.need ∧ r.need ≤ ((firstSockets n r).map (n.suitable r.read.threads)).sum) ∧
    (r.exclusiveCpu = true → ((firstSockets n r).length : ℤ) = r.socketLimit)

/-- Not even the fullest sockets hold the cores, or there are too few sockets. -/
def NoneSuffice : Prop :=
  (((Fullest.fullest (n.suitable r.threads) (n.usable r.exclusiveCpu)).take r.cpus).map (n.suitable r.threads)).sum <
      r.cores ∨
    (r.exclusiveCpu = true ∧ (n.usable r.exclusiveCpu).length < r.cpus)

instance : Decidable (FirstSuffice n r) := by
  unfold FirstSuffice
  infer_instance

instance : Decidable (NoneSuffice n r) := by
  unfold NoneSuffice
  infer_instance

/-! ### The sockets -/

variable {n r}

theorem sockets_eq : n.tables.sockets = ((n.cpus.map Cpu.socket).dedup).insertionSort (· ≤ ·) := by
  have hperm : n.tables.sockets.Perm (((n.cpus.map Cpu.socket).dedup).insertionSort (· ≤ ·)) := by
    refine (List.perm_ext_iff_of_nodup (nodup_sockets n)
      ((List.perm_insertionSort _ _).nodup_iff.2 (List.nodup_dedup _))).2 fun socket => ?_
    rw [mem_sockets n, (List.perm_insertionSort _ _).mem_iff, List.mem_dedup, List.mem_map]
  exact hperm.eq_of_pairwise (fun _ _ _ _ h h' => le_antisymm h h') (List.pairwise_insertionSort _ _)
    (List.pairwise_insertionSort _ _)

theorem nodup_usable (exclusive : Bool) : (n.usable exclusive).Nodup :=
  ((List.perm_insertionSort _ _).nodup_iff.2 (List.nodup_dedup _)).filter _

theorem length_candidates (socket : ℕ) : (candidates n.tables [] r socket).length = n.suitable r.read.threads socket := by
  refine List.Perm.length_eq ((List.perm_ext_iff_of_nodup (nodup_candidates socket)
    (((List.nodup_dedup _).filter _).filter _)).2 fun key => ?_)
  rw [mem_candidates, mem_coreKeys, List.mem_filter, decide_eq_true_eq]
  rw [List.mem_filter, decide_eq_true_eq, List.mem_dedup, List.mem_map]
  constructor
  · rintro ⟨⟨c, hc, hallowed, hkey⟩, hsocket, -, hthreads⟩
    exact ⟨⟨⟨c, List.mem_filter.2 ⟨hc, hallowed⟩, hkey⟩, hsocket⟩, hthreads⟩
  · rintro ⟨⟨⟨c, hc, hkey⟩, hsocket⟩, hthreads⟩
    exact ⟨⟨c, (List.mem_filter.1 hc).1, (List.mem_filter.1 hc).2, hkey⟩, hsocket, List.not_mem_nil, hthreads⟩

theorem isWhole_eq (socket : ℕ) : n.isWhole socket = n.tables.whole socket := by
  rw [Bool.eq_iff_iff, whole_iff]
  unfold Node.isWhole
  rw [List.all_eq_true]
  simp only [decide_eq_true_eq]

/-- With no core in use, the sockets that the loop visits. -/
theorem useful_eq : useful n.tables [] r n.tables.sockets =
    (n.usable r.exclusiveCpu).filter fun socket => 0 < n.suitable r.read.threads socket := by
  unfold useful Node.usable
  rw [sockets_eq, List.filter_filter]
  refine List.filter_congr fun socket _ => ?_
  have hbusy : busy n.tables [] socket = false := by
    unfold busy
    rw [List.any_eq_false]
    intro key _
    simp
  have hempty : (!(candidates n.tables [] r socket).isEmpty) = decide (0 < n.suitable r.read.threads socket) := by
    rw [← length_candidates]
    cases candidates n.tables [] r socket <;> simp
  unfold eligible
  rw [hempty, hbusy, isWhole_eq, Bool.false_or, Bool.and_comm]
  cases r.exclusiveCpu <;> cases n.tables.whole socket <;> rfl

/-! ### The choice -/

theorem sum_candidates (sockets : List ℕ) :
    (sockets.flatMap (candidates n.tables [] r)).length = (sockets.map (n.suitable r.read.threads)).sum := by
  rw [List.length_flatMap]
  exact congrArg List.sum (List.map_congr_left fun socket _ => length_candidates socket)

/-- As many as there are is all that is wanted. -/
theorem natCast_min_toNat {need : ℤ} {sum : ℕ} : ((min need.toNat sum : ℕ) : ℤ) = need ↔ 0 ≤ need ∧ need ≤ sum := by omega

/-- The loop has used all sockets that it may use. -/
theorem natCast_eq_of_le {limit : ℤ} {visited first : ℕ} (hall : (visited : ℤ) = limit) (hle : visited ≤ first)
    (hfirst : first ≤ limit.toNat) : (first : ℤ) = limit := by omega

/-- The loop finds the cores on the first sockets, or nowhere. -/
theorem place_isSome_iff : (place n.tables [] r).isSome = true ↔ FirstSuffice n r := by
  obtain ⟨visited, hvisited⟩ : ∃ visited, Visits n.tables [] r n.tables.sockets Selection.empty
      (selectFrom n.tables [] r n.tables.sockets Selection.empty) visited :=
    selectFrom_spec n.tables.sockets (Nat.zero_le _)
  have hfirst : (useful n.tables [] r n.tables.sockets).take (r.read.cpus - Selection.empty.usedSockets) =
      firstSockets n r := by
    rw [useful_eq]
    rfl
  obtain ⟨htake, hused, hselected, -, hall⟩ := hvisited
  rw [hfirst] at htake hall
  have hcount : (selectFrom n.tables [] r n.tables.sockets Selection.empty).usedSockets = visited.length :=
    hused.trans (Nat.zero_add _)
  have hlength : (selectFrom n.tables [] r n.tables.sockets Selection.empty).selected.length =
      min r.need.toNat (visited.map (n.suitable r.read.threads)).sum := by
    rw [hselected, List.length_take, ← sum_candidates]
    rfl
  have hbound : (firstSockets n r).length ≤ r.socketLimit.toNat := List.length_take_le _ _
  have hsome : (place n.tables [] r).isSome = true ↔
      ((selectFrom n.tables [] r n.tables.sockets Selection.empty).selected.length : ℤ) = r.need ∧
        (r.exclusiveCpu = true →
          ((selectFrom n.tables [] r n.tables.sockets Selection.empty).usedSockets : ℤ) = r.socketLimit) := by
    unfold place
    dsimp only
    split
    · next h => exact iff_of_true rfl h
    · next h => exact iff_of_false Bool.false_ne_true h
  rw [hsome, hlength, hcount, natCast_min_toNat]
  unfold FirstSuffice
  constructor
  · rintro ⟨⟨hneed, hcores⟩, hexclusive⟩
    -- the sockets that it has visited are the first ones
    obtain ⟨rest, hrest⟩ := htake
    have hsum : (visited.map (n.suitable r.read.threads)).sum ≤
        ((firstSockets n r).map (n.suitable r.read.threads)).sum := by
      rw [← hrest, List.map_append, List.sum_append]
      exact Nat.le_add_right _ _
    refine ⟨⟨hneed, hcores.trans (Int.ofNat_le.mpr hsum)⟩, fun h => natCast_eq_of_le (hexclusive h) ?_ hbound⟩
    rw [← hrest, List.length_append]
    exact Nat.le_add_right _ _
  · rintro ⟨⟨hneed, hcores⟩, hexclusive⟩
    -- the loop has gone over all sockets that it may use, or has stopped with enough cores
    rcases hall with rfl | ⟨hshared, hfull⟩
    · exact ⟨⟨hneed, hcores⟩, hexclusive⟩
    · rw [hlength] at hfull
      refine ⟨natCast_min_toNat.mp hfull, fun h => ?_⟩
      rw [hshared] at h
      cases h

theorem fits_iff : Fits n r ↔ ¬ NoneSuffice n r := by
  unfold Fits NoneSuffice
  rw [not_or, not_lt, not_and, not_lt]
  cases hexclusive : r.exclusiveCpu with
  | true =>
    simp only [if_true, forall_const]
    rw [Fullest.exists_sum_eq_iff (nodup_usable true), and_comm]
  | false =>
    simp only [Bool.false_eq_true, if_false, false_implies, and_true]
    rw [Fullest.exists_sum_iff (nodup_usable false)]

variable (n r)

/-- A place that exists is found when the first sockets hold the cores, and is missed otherwise. -/
theorem place_complete_iff :
    (Fits n r → (place n.tables [] r).isSome = true) ↔ FirstSuffice n r ∨ NoneSuffice n r := by
  rw [fits_iff, place_isSome_iff]
  by_cases hnone : NoneSuffice n r
  · exact iff_of_true (fun h => absurd hnone h) (.inr hnone)
  · rw [or_iff_left hnone]
    exact ⟨fun h => h hnone, fun h _ => h⟩

/-- Two sockets with two cores each; the first core is not allowed. -/
def fragmented : Node where
  cpus := [⟨0, 0, 0⟩, ⟨1, 1, 0⟩, ⟨2, 2, 1⟩, ⟨3, 3, 1⟩]
  nodup := by decide
  ranges := [(1, 3)]

/-- Two cores on one socket. -/
def pairRequest : Request := ⟨2, 1, 1, false⟩

/-- The second socket has both cores, but the loop stops after the first one. -/
theorem place_misses : Fits fragmented pairRequest ∧ place fragmented.tables [] pairRequest = none := by
  refine ⟨⟨{1}, ?_, ?_, ?_⟩, ?_⟩
  · intro socket hsocket
    rw [Finset.mem_singleton.1 hsocket]
    decide +kernel
  · decide
  · rw [Finset.sum_singleton]
    decide +kernel
  · decide +kernel

end Placement
end Slurmy
