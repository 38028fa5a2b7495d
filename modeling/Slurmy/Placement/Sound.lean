import Slurmy.Placement.Select

/-!
# The cores of a call are what it asks for

* `selectFrom_spec`: the sockets that the loop visits, and what it takes from them;
* `Sound`: the cores, the siblings and the sockets of a call;
* `placeWave_sound`: every call of a wave gets them, by the numbers as the shell reads them.
-/

namespace Slurmy
namespace Placement

variable {t : Tables} {used : List Key} {r : Request}

/-! ### The loop -/

theorem take_take_append {α : Type*} (n : ℕ) (l m : List α) : (l.take n ++ m).take n = (l ++ m).take n := by
  by_cases h : l.length ≤ n
  · rw [List.take_of_length_le h]
  · have hlen : (l.take n).length = n := by
      rw [List.length_take]
      omega
    rw [List.take_left' hlen, List.take_append_of_le_length (by omega)]

/-- As many keys as are wanted. -/
theorem select_eq {need : ℤ} {selected keys : List Key} (h : selected.length ≤ need.toNat) :
    select need selected keys = (selected ++ keys).take need.toNat := by
  unfold select
  induction keys generalizing selected with
  | nil => rw [List.foldl_nil, List.append_nil, List.take_of_length_le h]
  | cons key keys ih =>
    rw [List.foldl_cons]
    by_cases hlt : (selected.length : ℤ) < need
    · rw [if_pos hlt, ih (by rw [List.length_append, List.length_singleton]; omega), List.append_assoc]
      rfl
    · have hlen : selected.length = need.toNat := by omega
      rw [if_neg hlt, ih h, List.take_left' hlen, List.take_left' hlen]

variable (t used r)

/-- The loop may take cores from the socket. -/
def eligible (socket : ℕ) : Bool := !(r.exclusiveCpu && (busy t used socket || !t.whole socket))

/-- The sockets that have cores for the call, in their order. -/
def useful (sockets : List ℕ) : List ℕ :=
  sockets.filter fun socket => eligible t used r socket && !(candidates t used r socket).isEmpty

variable {t used r}

/-- The loop visits the useful sockets, as many as it may, or until it has enough. -/
structure Visits (t : Tables) (used : List Key) (r : Request) (sockets : List ℕ) (s s' : Selection)
    (visited : List ℕ) : Prop where
  visited_take : visited <+: (useful t used r sockets).take (r.read.cpus - s.usedSockets)
  usedSockets : s'.usedSockets = s.usedSockets + visited.length
  selected : s'.selected = (s.selected ++ visited.flatMap (candidates t used r)).take r.read.cores
  reserved : r.exclusiveCpu = true → s'.reserved = s.reserved ++ visited.flatMap (candidates t used r)
  all : visited = (useful t used r sockets).take (r.read.cpus - s.usedSockets) ∨
    (r.exclusiveCpu = false ∧ (s'.selected.length : ℤ) = r.need)

theorem Visits.stay {sockets : List ℕ} {s : Selection} (hs : s.selected.length ≤ r.read.cores)
    (h : (useful t used r sockets).take (r.read.cpus - s.usedSockets) = []) : Visits t used r sockets s s [] where
  visited_take := List.nil_prefix
  usedSockets := rfl
  selected := by rw [List.flatMap_nil, List.append_nil, List.take_of_length_le hs]
  reserved _ := by rw [List.flatMap_nil, List.append_nil]
  all := .inl h.symm

theorem selectFrom_spec (sockets : List ℕ) {s : Selection} (hs : s.selected.length ≤ r.read.cores) :
    ∃ visited, Visits t used r sockets s (selectFrom t used r sockets s) visited := by
  induction sockets generalizing s with
  | nil => exact ⟨[], .stay hs List.take_nil⟩
  | cons socket sockets ih =>
    rw [selectFrom]
    by_cases hroom : (s.usedSockets : ℤ) < r.socketLimit
    · rw [if_pos hroom]
      by_cases hskip : (r.exclusiveCpu && (busy t used socket || !t.whole socket)) = true
      · -- the socket is not free as a whole
        have huseful : useful t used r (socket :: sockets) = useful t used r sockets := by
          unfold useful
          rw [List.filter_cons_of_neg]
          unfold eligible
          rw [hskip]
          exact Bool.false_ne_true
        obtain ⟨visited, hvisited⟩ := ih hs
        simp only [if_pos hskip]
        exact ⟨visited, huseful ▸ hvisited.visited_take, hvisited.usedSockets, hvisited.selected, hvisited.reserved,
          huseful ▸ hvisited.all⟩
      · have heligible : eligible t used r socket = true := by
          unfold eligible
          rw [Bool.not_eq_true _ |>.mp hskip]
          rfl
        simp only [if_neg hskip]
        by_cases hnone : (candidates t used r socket).isEmpty = true
        · -- it has no core for the call
          have hkeys := List.isEmpty_iff.1 hnone
          have huseful : useful t used r (socket :: sockets) = useful t used r sockets := by
            unfold useful
            rw [List.filter_cons_of_neg]
            rw [hnone, Bool.not_true, Bool.and_false]
            exact Bool.false_ne_true
          have hsame : ({ s with
              reserved := if r.exclusiveCpu = true then s.reserved ++ candidates t used r socket else s.reserved } :
              Selection) = s := by
            rw [hkeys, List.append_nil, ite_self]
          obtain ⟨visited, hvisited⟩ := ih hs
          rw [if_pos hnone, hsame]
          exact ⟨visited, huseful ▸ hvisited.visited_take, hvisited.usedSockets, hvisited.selected, hvisited.reserved,
            huseful ▸ hvisited.all⟩
        · have huseful : useful t used r (socket :: sockets) = socket :: useful t used r sockets := by
            unfold useful
            rw [List.filter_cons_of_pos]
            rw [heligible, Bool.not_eq_true _ |>.mp hnone]
            rfl
          -- the socket is used
          have hmore : s.usedSockets < r.read.cpus := Int.lt_toNat.mpr hroom
          have htake : (useful t used r (socket :: sockets)).take (r.read.cpus - s.usedSockets) =
              socket :: (useful t used r sockets).take (r.read.cpus - (s.usedSockets + 1)) := by
            rw [huseful, show r.read.cpus - s.usedSockets = (r.read.cpus - (s.usedSockets + 1)) + 1 by omega,
              List.take_succ_cons]
          rw [if_neg hnone]
          have hselect : select r.need s.selected (candidates t used r socket) =
            (s.selected ++ candidates t used r socket).take r.read.cores := select_eq hs
          by_cases hstop : (!r.exclusiveCpu &&
              decide (((select r.need s.selected (candidates t used r socket)).length : ℤ) = r.need)) = true
          · rw [if_pos hstop]
            -- there are enough cores, and sockets are shared
            rw [Bool.and_eq_true, Bool.not_eq_true', decide_eq_true_eq] at hstop
            refine ⟨[socket], ?_, rfl, ?_, fun hexclusive => ?_, .inr hstop⟩
            · rw [htake]
              exact List.prefix_append [socket] _
            · rw [List.flatMap_singleton]
              exact hselect
            · rw [hstop.1] at hexclusive
              cases hexclusive
          · rw [if_neg hstop]
            have hlength : (select r.need s.selected (candidates t used r socket)).length ≤ r.read.cores := by
              rw [hselect, List.length_take]
              exact min_le_left _ _
            obtain ⟨visited, hvisited⟩ := ih (s := { s with
              reserved := if r.exclusiveCpu = true then s.reserved ++ candidates t used r socket else s.reserved
              selected := select r.need s.selected (candidates t used r socket)
              usedSockets := s.usedSockets + 1 }) hlength
            refine ⟨socket :: visited, ?_, ?_, ?_, fun hexclusive => ?_, ?_⟩
            · rw [htake]
              exact List.prefix_cons_inj socket |>.2 hvisited.visited_take
            · rw [hvisited.usedSockets, List.length_cons]
              show s.usedSockets + 1 + visited.length = s.usedSockets + (visited.length + 1)
              omega
            · rw [hvisited.selected, hselect, take_take_append, List.flatMap_cons, List.append_assoc]
            · rw [hvisited.reserved hexclusive, if_pos hexclusive, List.flatMap_cons, List.append_assoc]
            · rw [htake]
              exact hvisited.all.imp (fun h => congrArg _ h) id
    · rw [if_neg hroom]
      -- no socket may be used any more
      have hfull : r.read.cpus ≤ s.usedSockets := Int.toNat_le.mpr (not_lt.mp hroom)
      exact ⟨[], .stay hs (by rw [Nat.sub_eq_zero_of_le hfull, List.take_zero])⟩

/-! ### A call -/

section Call

variable {n : Node}

theorem mem_candidates {socket : ℕ} {key : Key} :
    key ∈ candidates n.tables used r socket ↔ key ∈ n.tables.coreKeys ∧ key.1 = socket ∧ key ∉ used ∧
      r.read.threads ≤ (n.siblings key).length := by
  unfold candidates
  rw [List.mem_filter, threads_tables, Bool.and_eq_true, Bool.and_eq_true, decide_eq_true_eq, decide_eq_true_eq,
    decide_eq_true_eq, and_assoc]
  refine and_congr_right fun hkey => ?_
  rw [coreSocket_tables n hkey, Option.some.injEq]
  exact and_congr_right' (and_congr_right' Int.toNat_le.symm)

theorem nodup_candidates (socket : ℕ) : (candidates n.tables used r socket).Nodup := (nodup_coreKeys n).filter _

theorem nodup_flatMap_candidates {sockets : List ℕ} (h : sockets.Nodup) :
    (sockets.flatMap (candidates n.tables used r)).Nodup := by
  rw [List.nodup_flatMap]
  refine ⟨fun socket _ => nodup_candidates socket, h.imp fun {a b} hab => ?_⟩
  intro key ha hb
  exact hab ((mem_candidates.1 ha).2.1.symm.trans (mem_candidates.1 hb).2.1)

/-- The first `r.read.threads` siblings, as the loop over the threads collects them. -/
theorem filterMap_threads {l : List ℕ} {m : ℕ} : (List.range m).filterMap (fun i => l[i]?) = l.take m := by
  induction m with
  | zero => rfl
  | succ m ih =>
    rw [List.range_succ, List.filterMap_append, ih, List.take_add_one]
    rfl

theorem nodup_siblings (key : Key) : (n.siblings key).Nodup :=
  ((List.filter_sublist.trans List.filter_sublist).map Cpu.cpu).nodup n.nodup

theorem mem_siblings {key : Key} {cpu : ℕ} :
    cpu ∈ n.siblings key ↔ n.allowed cpu = true ∧ ⟨cpu, key.2, key.1⟩ ∈ n.cpus := by
  unfold Node.siblings
  rw [List.mem_map]
  constructor
  · rintro ⟨c, hc, rfl⟩
    obtain ⟨hallowed, hkey⟩ := List.mem_filter.1 hc
    rw [decide_eq_true_eq] at hkey
    subst hkey
    exact ⟨(List.mem_filter.1 hallowed).2, (List.mem_filter.1 hallowed).1⟩
  · rintro ⟨hallowed, hc⟩
    exact ⟨⟨cpu, key.2, key.1⟩, List.mem_filter.2 ⟨List.mem_filter.2 ⟨hc, hallowed⟩, decide_eq_true rfl⟩, rfl⟩

/-- What a call gets that asks for `r`: `parts` are its cores with their CPUs. -/
structure Sound (n : Node) (r : Request) (p : Placed) (parts : List (Key × List ℕ)) : Prop where
  mask : p.mask = parts.flatMap Prod.snd
  mask_nodup : p.mask.Nodup
  cores : parts.length = r.cores
  cores_nodup : (parts.map Prod.fst).Nodup
  threads : ∀ part ∈ parts, part.2.length = r.threads
  siblings : ∀ part ∈ parts, ∀ cpu ∈ part.2, ⟨cpu, part.1.2, part.1.1⟩ ∈ n.cpus
  allowed : ∀ cpu ∈ p.mask, n.allowed cpu = true
  sockets : (parts.map fun part => part.1.1).toFinset.card ≤ r.cpus
  whole : r.exclusiveCpu = true → ∀ part ∈ parts, ∀ c ∈ n.cpus, c.socket = part.1.1 → n.allowed c.cpu = true
  reserved : r.exclusiveCpu = true → (p.reserved.map Prod.fst).toFinset.card = r.cpus ∧
    (∀ part ∈ parts, part.1 ∈ p.reserved) ∧
    ∀ key ∈ p.reserved, ∀ c ∈ n.cpus, c.socket = key.1 → n.allowed c.cpu = true

/-- The sockets of a call, as the loop has visited them. -/
theorem place_cases {p : Placed} (h : place n.tables used r = some p) :
    ∃ visited selected, visited <+: (useful n.tables used r n.tables.sockets).take r.read.cpus ∧
      selected = (visited.flatMap (candidates n.tables used r)).take r.read.cores ∧ selected.length = r.read.cores ∧
      p.mask = selected.flatMap (fun key => (n.siblings key).take r.read.threads) ∧
      (r.exclusiveCpu = true → visited.length = r.read.cpus ∧
        p.reserved = visited.flatMap (candidates n.tables used r)) := by
  obtain ⟨visited, hvisited⟩ : ∃ visited, Visits n.tables used r n.tables.sockets Selection.empty
      (selectFrom n.tables used r n.tables.sockets Selection.empty) visited :=
    selectFrom_spec n.tables.sockets (Nat.zero_le _)
  unfold place at h
  dsimp only at h
  split at h
  · next hcond =>
    cases h
    have hlength : (selectFrom n.tables used r n.tables.sockets Selection.empty).selected.length = r.read.cores :=
      (Int.toNat_natCast _).symm.trans (congrArg Int.toNat hcond.1)
    refine ⟨visited, _, hvisited.visited_take, hvisited.selected, hvisited.selected ▸ hlength, ?_, fun hexclusive => ?_⟩
    · simp only [threads_tables, filterMap_threads, hvisited.selected]
      rfl
    · have hcount := hvisited.usedSockets.trans (Nat.zero_add _)
      refine ⟨?_, ?_⟩
      · rw [← hcount]
        exact (Int.toNat_natCast _).symm.trans (congrArg Int.toNat (hcond.2 hexclusive))
      · simp only [if_pos hexclusive]
        rw [hvisited.reserved hexclusive]
        rfl
  · cases h

theorem mem_useful {socket : ℕ} (h : socket ∈ useful n.tables used r n.tables.sockets) :
    socket ∈ n.tables.sockets ∧ (candidates n.tables used r socket) ≠ [] ∧
      (r.exclusiveCpu = true → ∀ c ∈ n.cpus, c.socket = socket → n.allowed c.cpu = true) := by
  obtain ⟨hmem, hcond⟩ := List.mem_filter.1 h
  rw [Bool.and_eq_true] at hcond
  refine ⟨hmem, fun hnil => ?_, fun hexclusive => ?_⟩
  · rw [hnil] at hcond
    cases hcond.2
  · have heligible := hcond.1
    unfold eligible at heligible
    rw [hexclusive, Bool.true_and, Bool.not_or, Bool.not_not, Bool.and_eq_true] at heligible
    exact (whole_iff n).1 heligible.2

/-- The cores on some sockets, and nothing else. -/
theorem mem_flatMap_candidates {visited : List ℕ} {key : Key}
    (h : key ∈ visited.flatMap (candidates n.tables used r)) :
    key.1 ∈ visited ∧ r.read.threads ≤ (n.siblings key).length := by
  obtain ⟨socket, hsocket, hkey⟩ := List.mem_flatMap.1 h
  obtain ⟨-, rfl, -, hthreads⟩ := mem_candidates.1 hkey
  exact ⟨hsocket, hthreads⟩

theorem toFinset_sockets {visited : List ℕ} (h : ∀ socket ∈ visited, candidates n.tables used r socket ≠ []) :
    ((visited.flatMap (candidates n.tables used r)).map Prod.fst).toFinset = visited.toFinset := by
  ext socket
  rw [List.mem_toFinset, List.mem_toFinset, List.mem_map]
  constructor
  · rintro ⟨key, hkey, rfl⟩
    exact (mem_flatMap_candidates hkey).1
  · intro hsocket
    obtain ⟨key, hkey⟩ := List.exists_mem_of_ne_nil _ (h socket hsocket)
    exact ⟨key, List.mem_flatMap.2 ⟨socket, hsocket, hkey⟩, (mem_candidates.1 hkey).2.1⟩

theorem key_unique {key key' : Key} {cpu : ℕ} (h : cpu ∈ n.siblings key) (h' : cpu ∈ n.siblings key') : key = key' := by
  have heq := List.inj_on_of_nodup_map n.nodup (mem_siblings.1 h).2 (mem_siblings.1 h').2 rfl
  rw [Cpu.mk.injEq] at heq
  exact Prod.ext heq.2.2 heq.2.1

/-- A call that gets a place gets what it asks for. -/
theorem place_sound {p : Placed} (h : place n.tables used r = some p) : ∃ parts, Sound n r.read p parts := by
  obtain ⟨visited, selected, hvisited, hselected, hlength, hmask, hreserved⟩ := place_cases h
  have husefulSub : visited ⊆ useful n.tables used r n.tables.sockets := fun socket hsocket =>
    List.mem_of_mem_take (hvisited.subset hsocket)
  have hvisitedNodup : visited.Nodup :=
    (hvisited.sublist.trans ((List.take_sublist _ _).trans List.filter_sublist)).nodup (nodup_sockets n)
  have hvisitedLength : visited.length ≤ r.read.cpus :=
    hvisited.length_le.trans ((List.length_take_le _ _))
  -- the cores that are chosen are on sockets that the loop has visited
  have hkeys : ∀ key ∈ selected, key.1 ∈ visited ∧ r.read.threads ≤ (n.siblings key).length := fun key hkey =>
    mem_flatMap_candidates (List.mem_of_mem_take (hselected ▸ hkey))
  have hnodup : selected.Nodup :=
    hselected ▸ (List.take_sublist _ _).nodup (nodup_flatMap_candidates hvisitedNodup)
  have hparts : ∀ part ∈ selected.map (fun key => (key, (n.siblings key).take r.read.threads)),
      part.1 ∈ selected ∧ part.2 = (n.siblings part.1).take r.read.threads := by
    intro part hpart
    obtain ⟨key, hkey, rfl⟩ := List.mem_map.1 hpart
    exact ⟨hkey, rfl⟩
  have hwhole : ∀ socket ∈ visited, r.exclusiveCpu = true → ∀ c ∈ n.cpus, c.socket = socket → n.allowed c.cpu = true :=
    fun socket hsocket hexclusive => (mem_useful (husefulSub hsocket)).2.2 hexclusive
  refine ⟨selected.map fun key => (key, (n.siblings key).take r.read.threads), ?_, ?_, ?_, ?_, ?_, ?_, ?_, ?_, ?_, ?_⟩
  · rw [hmask, List.flatMap_map]
  · rw [hmask, List.nodup_flatMap]
    refine ⟨fun key _ => (List.take_sublist _ _).nodup (nodup_siblings key), hnodup.imp fun {a b} hab => ?_⟩
    -- a CPU is on one core only
    intro cpu ha hb
    exact hab (key_unique (List.mem_of_mem_take ha) (List.mem_of_mem_take hb))
  · rw [List.length_map, hlength]
  · rw [List.map_map]
    exact (List.map_id selected).symm ▸ hnodup
  · intro part hpart
    rw [(hparts part hpart).2, List.length_take]
    exact min_eq_left (hkeys _ (hparts part hpart).1).2
  · intro part hpart cpu hcpu
    rw [(hparts part hpart).2] at hcpu
    exact (mem_siblings.1 (List.mem_of_mem_take hcpu)).2
  · intro cpu hcpu
    rw [hmask] at hcpu
    obtain ⟨key, -, hcpu⟩ := List.mem_flatMap.1 hcpu
    exact (mem_siblings.1 (List.mem_of_mem_take hcpu)).1
  · have hsub : ((selected.map fun key => (key, (n.siblings key).take r.read.threads)).map
        fun part => part.1.1).toFinset ⊆ visited.toFinset := by
      intro socket hsocket
      obtain ⟨part, hpart, rfl⟩ := List.mem_map.1 (List.mem_toFinset.1 hsocket)
      exact List.mem_toFinset.2 (hkeys _ (hparts part hpart).1).1
    exact (Finset.card_le_card hsub).trans ((List.toFinset_card_le visited).trans hvisitedLength)
  · rw [Request.read_exclusiveCpu]
    intro hexclusive part hpart
    exact hwhole _ (hkeys _ (hparts part hpart).1).1 hexclusive
  · rw [Request.read_exclusiveCpu]
    intro hexclusive
    obtain ⟨hcount, hkept⟩ := hreserved hexclusive
    refine ⟨?_, fun part hpart => ?_, fun key hkey => ?_⟩
    · rw [hkept, toFinset_sockets fun socket hsocket => (mem_useful (husefulSub hsocket)).2.1,
        List.toFinset_card_of_nodup hvisitedNodup, hcount]
    · rw [hkept]
      exact List.mem_of_mem_take (hselected ▸ (hparts part hpart).1)
    · rw [hkept] at hkey
      exact hwhole _ (mem_flatMap_candidates hkey).1 hexclusive

/-- So do all calls of a wave, by the numbers as the shell reads them. -/
theorem placeWave_sound (n : Node) (used : List Key) (rs : List Request) {ps : List Placed}
    (h : placeWave n.tables used rs = some ps) :
    List.Forall₂ (fun r p => ∃ parts, Sound n r.read p parts) rs ps := by
  induction rs generalizing used ps with
  | nil =>
    cases h
    exact .nil
  | cons r rs ih =>
    rw [placeWave] at h
    simp only [Option.bind_eq_bind, Option.bind_eq_some_iff, Option.pure_def, Option.some.injEq] at h
    obtain ⟨p, hp, ps, hps, rfl⟩ := h
    exact .cons (place_sound hp) (ih _ hps)

/-- A node with two sockets, of which one is allowed as a whole. -/
def halfNode : Node where
  cpus := [⟨0, 0, 0⟩, ⟨1, 1, 0⟩, ⟨2, 2, 1⟩, ⟨3, 3, 1⟩, ⟨4, 0, 0⟩, ⟨5, 1, 0⟩, ⟨6, 2, 1⟩, ⟨7, 3, 1⟩]
  nodup := by decide
  ranges := [(1, 3), (6, 7)]

theorem placeWave_sound_half :
    List.Forall₂ (fun r p => ∃ parts, Sound halfNode r.read p parts) [(⟨2, 1, 2, true⟩ : Request)]
      [⟨[2, 6, 3, 7], [(1, 2), (1, 3)]⟩] :=
  placeWave_sound halfNode [] [⟨2, 1, 2, true⟩] (by decide +kernel)

/-- More cores than 64 bits can count, which the shell reads as one. -/
def hugeRequest : Request := ⟨18446744073709551617, 1, 1, false⟩

/-- It gets one core. -/
theorem placeWave_huge : placeWave halfNode.tables [] [hugeRequest] = some [⟨[1], [(0, 1)]⟩] ∧
    ¬ ∃ parts, Sound halfNode hugeRequest ⟨[1], [(0, 1)]⟩ parts := by
  refine ⟨by decide +kernel, ?_⟩
  rintro ⟨parts, h⟩
  -- each core contributes one CPU to the mask
  have hlength : (parts.flatMap Prod.snd).length = parts.length * 1 := by
    rw [List.length_flatMap, List.map_congr_left h.threads, List.map_const', List.sum_replicate]
    rfl
  rw [← h.mask, h.cores] at hlength
  exact absurd hlength (by decide)

end Call

end Placement
end Slurmy
