import Mathlib.Data.List.Basic
import Mathlib.Data.List.Nodup

/-!
# Dictionaries in the order of insertion

The dictionaries of Python, as lists of their items; `List.lookup` finds the value of a key.

* `get`, `put`, `erase`: `d.get(k)`, `d[k] = v` and `del d[k]`;
* `lookup_put_self`, `lookup_put_of_ne`, `lookup_erase`, `lookup_mapValues`: what is found afterwards;
* `mem_keys`, `nodup_keys_put`, `mapValues_put`: the keys, and values that are put after a change;
* `putAll`, `get_putAll`: several items, the last one of a key counts;
* `perm_of_get`: dictionaries with the same items.
-/

namespace Dict

variable {κ β γ : Type*} [DecidableEq κ]

def get (d : List (κ × β)) (k : κ) : Option β := d.lookup k

/-- A new key comes last, another one keeps its place. -/
def put (d : List (κ × β)) (k : κ) (v : β) : List (κ × β) :=
  if (d.lookup k).isSome then d.map fun p => if p.1 = k then (k, v) else p else d ++ [(k, v)]

def erase (d : List (κ × β)) (k : κ) : List (κ × β) := d.filter fun p => p.1 ≠ k

def mapValues (f : β → γ) (d : List (κ × β)) : List (κ × γ) := d.map fun p => (p.1, f p.2)

theorem lookup_cons (p : κ × β) (d : List (κ × β)) (k : κ) :
    (p :: d).lookup k = if k = p.1 then some p.2 else d.lookup k := by
  rw [List.lookup_cons]
  by_cases h : k = p.1
  · simp [h]
  · rw [if_neg h, beq_false_of_ne h]

@[simp] theorem lookup_put_self (d : List (κ × β)) (k : κ) (v : β) :
    (put d k v).lookup k = some v := by
  unfold put
  split
  · next h =>
    induction d with
    | nil => cases h
    | cons p d ih =>
      rw [List.map_cons, lookup_cons]
      by_cases hp : p.1 = k
      · simp [hp]
      · rw [lookup_cons, if_neg (Ne.symm hp)] at h
        rw [if_neg hp, if_neg (Ne.symm hp)]
        exact ih h
  · next h =>
    rw [List.lookup_append, Option.not_isSome_iff_eq_none.1 h, lookup_cons, if_pos rfl]
    rfl

theorem lookup_put_of_ne (d : List (κ × β)) {k k' : κ} (v : β) (h : k' ≠ k) :
    (put d k v).lookup k' = d.lookup k' := by
  have hmap : (d.map fun p => if p.1 = k then (k, v) else p).lookup k' = d.lookup k' := by
    induction d with
    | nil => rfl
    | cons p d ih =>
      rw [List.map_cons, lookup_cons, lookup_cons, ih]
      by_cases hp : p.1 = k
      · rw [if_pos hp, if_neg h, if_neg (by rwa [hp])]
      · rw [if_neg hp]
  unfold put
  split
  · exact hmap
  · rw [List.lookup_append, lookup_cons, if_neg h]
    exact Option.or_none

theorem lookup_erase (d : List (κ × β)) (k k' : κ) :
    (erase d k).lookup k' = if k' = k then none else d.lookup k' := by
  unfold erase
  induction d with
  | nil => simp
  | cons p d ih =>
    by_cases hp : p.1 = k
    · rw [List.filter_cons_of_neg (by simpa using hp), ih, lookup_cons]
      by_cases hk : k' = k
      · rw [if_pos hk, if_pos hk]
      · rw [if_neg hk, if_neg hk, if_neg (by rwa [hp])]
    · rw [List.filter_cons_of_pos (by simpa using hp), lookup_cons, lookup_cons, ih]
      by_cases hk : k' = k
      · rw [if_neg (by rwa [hk, eq_comm]), if_pos hk, if_pos hk]
      · rw [if_neg hk, if_neg hk]

theorem lookup_mapValues (f : β → γ) (d : List (κ × β)) (k : κ) :
    (mapValues f d).lookup k = (d.lookup k).map f := by
  unfold mapValues
  induction d with
  | nil => rfl
  | cons p d ih =>
    rw [List.map_cons, lookup_cons, lookup_cons, ih]
    split
    · rfl
    · rfl

/-! ### `get` -/

@[simp] theorem get_put_self (d : List (κ × β)) (k : κ) (v : β) : get (put d k v) k = some v :=
  lookup_put_self d k v

theorem get_put_of_ne (d : List (κ × β)) {k k' : κ} (v : β) (h : k' ≠ k) : get (put d k v) k' = get d k' :=
  lookup_put_of_ne d v h

theorem get_cons (p : κ × β) (d : List (κ × β)) (k : κ) :
    get (p :: d) k = if k = p.1 then some p.2 else get d k := lookup_cons p d k

theorem get_erase (d : List (κ × β)) (k k' : κ) : get (erase d k) k' = if k' = k then none else get d k' :=
  lookup_erase d k k'

theorem get_append (d e : List (κ × β)) (k : κ) : get (d ++ e) k = (get d k).or (get e k) := by
  induction d with
  | nil => rfl
  | cons p d ih =>
    rw [List.cons_append, get_cons, get_cons, ih]
    split <;> rfl

/-- Only the keys with `keep` are left. -/
theorem get_filter (keep : κ → Bool) (d : List (κ × β)) (k : κ) :
    get (d.filter fun p => keep p.1) k = if keep k then get d k else none := by
  induction d with
  | nil => simp [get]
  | cons p d ih =>
    by_cases hp : keep p.1 = true
    · have hcons : (p :: d).filter (fun p => keep p.1) = p :: d.filter fun p => keep p.1 :=
        List.filter_cons_of_pos hp
      rw [hcons, get_cons, get_cons, ih]
      by_cases hk : k = p.1
      · subst hk
        rw [if_pos rfl, if_pos rfl, if_pos hp]
      · rw [if_neg hk, if_neg hk]
    · have hcons : (p :: d).filter (fun p => keep p.1) = d.filter fun p => keep p.1 :=
        List.filter_cons_of_neg hp
      rw [hcons, ih, get_cons]
      by_cases hk : k = p.1
      · subst hk
        rw [if_neg hp, if_neg hp]
      · rw [if_neg hk]

theorem get_eq_none {d : List (κ × β)} {k : κ} (h : ∀ p ∈ d, p.1 ≠ k) : get d k = none := by
  induction d with
  | nil => rfl
  | cons p d ih =>
    rw [get_cons, if_neg (h p List.mem_cons_self).symm]
    exact ih fun q hq => h q (List.mem_cons_of_mem p hq)

/-- A dictionary with a value for every one of some keys. -/
theorem get_map (f : κ → β) {ks : List κ} {k : κ} :
    get (ks.map fun k => (k, f k)) k = if k ∈ ks then some (f k) else none := by
  induction ks with
  | nil => rfl
  | cons a ks ih =>
    unfold get at ih ⊢
    rw [List.map_cons, lookup_cons, ih]
    by_cases hk : k = a
    · rw [if_pos hk, if_pos (hk ▸ List.mem_cons_self), hk]
    · simp [hk]

/-! ### Keys -/

theorem mem_keys {d : List (κ × β)} {k : κ} : k ∈ d.map Prod.fst ↔ (d.lookup k).isSome = true := by
  induction d with
  | nil => simp
  | cons p d ih =>
    rw [List.map_cons, List.mem_cons, lookup_cons, ih]
    by_cases hk : k = p.1
    · simp [hk]
    · simp [hk]

theorem mem_of_get {d : List (κ × β)} {k : κ} {v : β} (h : get d k = some v) : (k, v) ∈ d := by
  obtain ⟨front, rest, rfl, -⟩ := List.lookup_eq_some_iff.1 h
  exact List.mem_append_right front List.mem_cons_self

/-- An item under a key that occurs once. -/
theorem get_of_mem {d : List (κ × β)} (h : (d.map Prod.fst).Nodup) {p : κ × β} (hp : p ∈ d) : get d p.1 = some p.2 := by
  induction d with
  | nil => cases hp
  | cons q d ih =>
    obtain ⟨hq, hd⟩ := List.nodup_cons.1 h
    rw [get_cons]
    rcases List.mem_cons.1 hp with rfl | hp
    · exact if_pos rfl
    · have hne : p.1 ≠ q.1 := fun heq => hq (heq ▸ List.mem_map_of_mem hp)
      rw [if_neg hne]
      exact ih hd hp

theorem keys_put (d : List (κ × β)) (k : κ) (v : β) :
    (put d k v).map Prod.fst =
      if (d.lookup k).isSome then d.map Prod.fst else d.map Prod.fst ++ [k] := by
  unfold put
  split
  · rw [List.map_map]
    apply List.map_congr_left
    intro p _
    by_cases hp : p.1 = k
    · simp [hp]
    · simp [hp]
  · rw [List.map_append]
    rfl

theorem mem_keys_put (d : List (κ × β)) (k k' : κ) (v : β) :
    k' ∈ (put d k v).map Prod.fst ↔ k' ∈ d.map Prod.fst ∨ k' = k := by
  rw [keys_put]
  split
  · next h =>
    have hk : k ∈ d.map Prod.fst := mem_keys.2 h
    exact ⟨.inl, fun hor => hor.elim id fun heq => heq ▸ hk⟩
  · rw [List.mem_append, List.mem_singleton]

theorem get_put (d : List (κ × β)) (k k' : κ) (v : β) : get (put d k v) k' = if k' = k then some v else get d k' := by
  split
  · next h => rw [h, get_put_self]
  · next h => exact get_put_of_ne d v h

theorem nodup_keys_put {d : List (κ × β)} (h : (d.map Prod.fst).Nodup) (k : κ) (v : β) :
    ((put d k v).map Prod.fst).Nodup := by
  rw [keys_put]
  split
  · exact h
  · next hk =>
    rw [List.nodup_append]
    refine ⟨h, List.pairwise_singleton _ k, fun a ha b hb hab => hk ?_⟩
    rw [List.mem_singleton] at hb
    rw [← hb, ← hab]
    exact mem_keys.1 ha

theorem mapValues_put (f : β → γ) (d : List (κ × β)) (k : κ) (v : β) :
    mapValues f (put d k v) = put (mapValues f d) k (f v) := by
  unfold put
  rw [lookup_mapValues, Option.isSome_map]
  split
  · rw [mapValues, mapValues, List.map_map, List.map_map]
    apply List.map_congr_left
    intro p _
    by_cases hp : p.1 = k
    · simp [hp]
    · simp [hp]
  · rw [mapValues, mapValues, List.map_append]
    rfl

/-- The same with other keys. -/
theorem map_put {κ' : Type*} [DecidableEq κ'] {f : κ → κ'} (hf : Function.Injective f) (g : β → γ) (d : List (κ × β))
    (k : κ) (v : β) :
    (put d k v).map (fun p => (f p.1, g p.2)) = put (d.map fun p => (f p.1, g p.2)) (f k) (g v) := by
  have hlookup : (d.map fun p => (f p.1, g p.2)).lookup (f k) = (d.lookup k).map g := by
    induction d with
    | nil => rfl
    | cons p d ih =>
      rw [List.map_cons, lookup_cons, lookup_cons, ih]
      by_cases hp : k = p.1
      · rw [if_pos hp, if_pos (congrArg f hp), Option.map_some]
      · rw [if_neg hp, if_neg (hf.ne hp)]
  unfold put
  rw [hlookup, Option.isSome_map]
  split
  · rw [List.map_map, List.map_map]
    apply List.map_congr_left
    intro p _
    by_cases hp : p.1 = k
    · simp [hp]
    · simp [hp, hf.eq_iff]
  · rw [List.map_append]
    rfl

theorem mem_put {d : List (κ × β)} {p : κ × β} {k : κ} {v : β} (h : p ∈ put d k v) : p ∈ d ∨ p = (k, v) := by
  unfold put at h
  split at h
  · obtain ⟨q, hq, heq⟩ := List.mem_map.mp h
    split at heq
    · exact .inr heq.symm
    · exact .inl (heq ▸ hq)
  · exact (List.mem_append.mp h).imp id List.mem_singleton.mp

/-! ### One item after the other -/

def putAll (d items : List (κ × β)) : List (κ × β) := items.foldl (fun d p => put d p.1 p.2) d

variable {d items : List (κ × β)}

theorem nodup_keys_putAll (h : (d.map Prod.fst).Nodup) (items : List (κ × β)) :
    ((putAll d items).map Prod.fst).Nodup := by
  induction items generalizing d with
  | nil => exact h
  | cons p items ih => exact ih (nodup_keys_put h p.1 p.2)

theorem mem_putAll {p : κ × β} (h : p ∈ putAll d items) : p ∈ d ∨ p ∈ items := by
  induction items generalizing d with
  | nil => exact .inl h
  | cons q items ih =>
    rcases ih h with h | h
    · rcases mem_put h with h | h
      · exact .inl h
      · exact .inr (List.mem_cons.mpr (.inl h))
    · exact .inr (List.mem_cons_of_mem q h)

/-- The last item with a key counts. -/
theorem get_putAll (d items : List (κ × β)) (k : κ) : get (putAll d items) k = (get items.reverse k).or (get d k) := by
  induction items generalizing d with
  | nil => rfl
  | cons p items ih =>
    show get (putAll (put d p.1 p.2) items) k = _
    rw [ih, List.reverse_cons, get_append, Option.or_assoc, get_put, get_cons]
    by_cases hk : k = p.1
    · rw [if_pos hk, if_pos hk, Option.some_or]
    · rw [if_neg hk, if_neg hk]
      rfl

theorem get_reverse {d : List (κ × β)} (h : (d.map Prod.fst).Nodup) (k : κ) : get d.reverse k = get d k := by
  have hreverse : (d.reverse.map Prod.fst).Nodup := by
    rw [List.map_reverse]
    exact List.nodup_reverse.mpr h
  cases hget : get d k with
  | none =>
    refine get_eq_none fun p hp heq => ?_
    have hsome := get_of_mem h (List.mem_reverse.mp hp)
    rw [heq, hget] at hsome
    cases hsome
  | some v => exact get_of_mem hreverse (List.mem_reverse.mpr (mem_of_get hget))

/-- Dictionaries with the same items. -/
theorem perm_of_get {d e : List (κ × β)} (hd : (d.map Prod.fst).Nodup) (he : (e.map Prod.fst).Nodup)
    (h : ∀ k, get d k = get e k) : d.Perm e := by
  refine (List.perm_ext_iff_of_nodup (List.Nodup.of_map _ hd) (List.Nodup.of_map _ he)).mpr fun p => ⟨fun hp => ?_, fun hp => ?_⟩
  · exact mem_of_get (k := p.1) (v := p.2) ((h p.1).symm.trans (get_of_mem hd hp))
  · exact mem_of_get (k := p.1) (v := p.2) ((h p.1).trans (get_of_mem he hp))

/-- Items with new keys come behind the others. -/
theorem putAll_of_nodup (h : ((d ++ items).map Prod.fst).Nodup) : putAll d items = d ++ items := by
  induction items generalizing d with
  | nil => exact (List.append_nil d).symm
  | cons p items ih =>
    have hp : p.1 ∉ d.map Prod.fst := by
      rw [List.map_append, List.map_cons] at h
      exact fun hmem => (List.nodup_append.mp h).2.2 p.1 hmem p.1 List.mem_cons_self rfl
    have hput : put d p.1 p.2 = d ++ [p] := by
      rw [put, if_neg fun hsome => hp (mem_keys.mpr hsome)]
    show putAll (put d p.1 p.2) items = _
    rw [hput, ih (by rwa [List.append_assoc, List.singleton_append]), List.append_assoc, List.singleton_append]

theorem mem_keys_putAll (k : κ) :
    k ∈ (putAll d items).map Prod.fst ↔ k ∈ d.map Prod.fst ∨ k ∈ items.map Prod.fst := by
  induction items generalizing d with
  | nil => exact ⟨.inl, fun h => h.elim id fun h => by cases h⟩
  | cons p items ih =>
    show k ∈ (putAll (put d p.1 p.2) items).map Prod.fst ↔ _
    rw [ih, mem_keys_put, List.map_cons, List.mem_cons, or_assoc]

end Dict
