import Mathlib.Data.List.Sort
import Mathlib.Data.List.Range

/-!
# Lists gathered from parts

The parts of some indices, one after the other; making a part may fail.

* `mapM_congr`, `mapM_bind`, `mapM_eq_some_iff`, `mapM_eq_none_iff`: making a list, when every member can be made;
* `gather`: all parts, if all can be made, `gather_eq_some_iff`;
* `gather_filter`, `gather_range`: indices without a part may be left out;
* `flatMap_eq_iff`: parts whose members tell their index can be told apart again;
* `flatMap_inj`: so can parts of one length;
* `prefix_flatMap`: where the whole can be cut.
-/

namespace Gather

section MapM

variable {α β γ : Type*} {f g : α → Option β} {l : List α}

theorem mapM_congr (h : ∀ a ∈ l, f a = g a) : l.mapM f = l.mapM g := by
  induction l with
  | nil => rfl
  | cons a l ih =>
    rw [List.mapM_cons, List.mapM_cons, h a List.mem_cons_self,
      ih fun b hb => h b (List.mem_cons_of_mem a hb)]

theorem mapM_bind (f : α → Option β) (g : β → Option γ) (l : List α) :
    l.mapM (fun a => (f a).bind g) = (l.mapM f).bind fun bs => bs.mapM g := by
  induction l with
  | nil => rfl
  | cons a l ih =>
    rw [List.mapM_cons, List.mapM_cons, ih]
    cases f a with
    | none => rfl
    | some b => cases l.mapM f with
      | none => cases hg : g b <;> simp [hg]
      | some bs => simp [List.mapM_cons]

theorem mapM_eq_some_iff {bs : List β} :
    l.mapM f = some bs ↔ List.Forall₂ (fun a b => f a = some b) l bs := by
  induction l generalizing bs with
  | nil => cases bs <;> simp
  | cons a l ih =>
    rw [List.mapM_cons]
    simp only [Option.bind_eq_bind, Option.bind_eq_some_iff, Option.pure_def, Option.some.injEq]
    constructor
    · rintro ⟨b, hb, cs, hcs, rfl⟩
      exact .cons hb (ih.1 hcs)
    · rintro (_ | ⟨hb, hbs⟩)
      exact ⟨_, hb, _, ih.2 hbs, rfl⟩

theorem mapM_eq_none_iff : l.mapM f = none ↔ ∃ a ∈ l, f a = none := by
  induction l with
  | nil => simp
  | cons a l ih =>
    rw [List.mapM_cons, List.exists_mem_cons_iff, ← ih]
    cases f a with
    | none => simp
    | some b => cases l.mapM f <;> simp

/-- Everything that can be made is made from something. -/
theorem exists_of_mem_mapM {bs : List β} (h : l.mapM f = some bs) {b : β} (hb : b ∈ bs) :
    ∃ a ∈ l, f a = some b := by
  rw [mapM_eq_some_iff] at h
  induction h with
  | nil => cases hb
  | cons hhead _ ih =>
    rcases List.mem_cons.1 hb with rfl | hb
    · exact ⟨_, List.mem_cons_self, hhead⟩
    · obtain ⟨a, ha, hab⟩ := ih hb
      exact ⟨a, List.mem_cons_of_mem _ ha, hab⟩

theorem exists_of_mapM {bs : List β} (h : l.mapM f = some bs) {a : α} (ha : a ∈ l) :
    ∃ b ∈ bs, f a = some b := by
  rw [mapM_eq_some_iff] at h
  induction h with
  | nil => cases ha
  | cons hhead _ ih =>
    rcases List.mem_cons.1 ha with rfl | ha
    · exact ⟨_, List.mem_cons_self, hhead⟩
    · obtain ⟨b, hb, hab⟩ := ih ha
      exact ⟨b, List.mem_cons_of_mem _ hb, hab⟩

/-- Lists that have been made are equal only if every member is. -/
theorem eq_of_mapM_eq {bs : List β} (hf : l.mapM f = some bs) (hg : l.mapM g = some bs) : ∀ a ∈ l, f a = g a := by
  rw [mapM_eq_some_iff] at hf hg
  induction hf with
  | nil => exact fun a ha => by cases ha
  | cons hhead _ ih =>
    obtain ⟨hhead', htail'⟩ := List.forall₂_cons.1 hg
    intro a ha
    rcases List.mem_cons.1 ha with rfl | ha
    · rw [hhead, hhead']
    · exact ih htail' a ha

end MapM

variable {ι β : Type*}

def gather (parts : ι → Option (List β)) (l : List ι) : Option (List β) := (l.mapM parts).map List.flatten

variable {parts parts' : ι → Option (List β)} {l : List ι}

@[simp] theorem gather_nil : gather parts [] = some [] := rfl

theorem gather_cons (i : ι) :
    gather parts (i :: l) = (parts i).bind fun b => (gather parts l).map (b ++ ·) := by
  unfold gather
  rw [List.mapM_cons]
  cases parts i with
  | none => rfl
  | some b => cases l.mapM parts <;> rfl

theorem gather_eq_some_iff [DecidableEq ι] {bs : List β} :
    gather parts l = some bs ↔ ∃ f : ι → List β, (∀ i ∈ l, parts i = some (f i)) ∧ bs = l.flatMap f := by
  constructor
  · intro h
    refine ⟨fun i => (parts i).getD [], ?_⟩
    induction l generalizing bs with
    | nil =>
      cases h
      exact ⟨fun i hi => (by cases hi), rfl⟩
    | cons i l ih =>
      rw [gather_cons] at h
      obtain ⟨b, hb, h⟩ := Option.bind_eq_some_iff.1 h
      obtain ⟨cs, hcs, rfl⟩ := Option.map_eq_some_iff.1 h
      obtain ⟨hparts, rfl⟩ := ih hcs
      constructor
      · intro j hj
        rcases List.mem_cons.1 hj with rfl | hj
        · show parts j = some ((parts j).getD [])
          rw [hb, Option.getD_some]
        · exact hparts j hj
      · rw [List.flatMap_cons, hb]
        rfl
  · rintro ⟨f, hf, rfl⟩
    induction l with
    | nil => rfl
    | cons i l ih =>
      rw [gather_cons, hf i List.mem_cons_self, ih fun j hj => hf j (List.mem_cons_of_mem i hj)]
      rfl

theorem gather_congr (h : ∀ i ∈ l, parts i = parts' i) : gather parts l = gather parts' l := by
  induction l with
  | nil => rfl
  | cons i l ih =>
    rw [gather_cons, gather_cons, h i List.mem_cons_self, ih fun j hj => h j (List.mem_cons_of_mem i hj)]

/-- Indices with empty parts may be left out. -/
theorem gather_filter (p : ι → Bool) (h : ∀ i ∈ l, p i = false → parts i = some []) :
    gather parts (l.filter p) = gather parts l := by
  induction l with
  | nil => rfl
  | cons i l ih =>
    have hrest := ih fun j hj => h j (List.mem_cons_of_mem i hj)
    by_cases hp : p i = true
    · rw [List.filter_cons_of_pos hp, gather_cons, gather_cons, hrest]
    · rw [List.filter_cons_of_neg hp, hrest, gather_cons,
        h i List.mem_cons_self (Bool.eq_false_iff.2 hp)]
      cases gather parts l <;> rfl

/-- Numbers in order are a part of a range. -/
theorem filter_range {l : List ℕ} (hsorted : l.Pairwise (· < ·)) {n : ℕ} (hlt : ∀ i ∈ l, i < n) :
    (List.range n).filter (· ∈ l) = l := by
  have hperm : ((List.range n).filter (· ∈ l)).Perm l := by
    rw [List.perm_ext_iff_of_nodup (List.nodup_range.filter _) (hsorted.imp fun h => h.ne)]
    intro i
    rw [List.mem_filter, List.mem_range, decide_eq_true_eq]
    exact ⟨And.right, fun hi => ⟨hlt i hi, hi⟩⟩
  exact hperm.eq_of_pairwise' ((List.pairwise_lt_range.imp le_of_lt).filter _) (hsorted.imp le_of_lt)

theorem gather_range {parts : ℕ → Option (List β)} {l : List ℕ} (hsorted : l.Pairwise (· < ·)) {n : ℕ}
    (hlt : ∀ i ∈ l, i < n) (hempty : ∀ i, i ∉ l → parts i = some []) :
    gather parts l = gather parts (List.range n) := by
  have hfilter : gather parts ((List.range n).filter (· ∈ l)) = gather parts (List.range n) :=
    gather_filter (fun i => decide (i ∈ l)) fun i _ hi => hempty i (by simpa using hi)
  rw [← hfilter, filter_range hsorted hlt]

section Tags

variable [DecidableEq ι] {tag : β → ι} {f g : ι → List β}

theorem filter_flatMap (hnodup : l.Nodup) (hf : ∀ i ∈ l, ∀ b ∈ f i, tag b = i) {i : ι} (hi : i ∈ l) :
    (l.flatMap f).filter (fun b => tag b = i) = f i := by
  induction l with
  | nil => cases hi
  | cons j l ih =>
    have hl : ∀ k ∈ l, ∀ b ∈ f k, tag b = k := fun k hk => hf k (List.mem_cons_of_mem j hk)
    have hj : ∀ b ∈ f j, tag b = j := hf j List.mem_cons_self
    rw [List.nodup_cons] at hnodup
    rw [List.flatMap_cons, List.filter_append]
    rcases List.mem_cons.1 hi with rfl | hi
    · have hself : (f i).filter (fun b => tag b = i) = f i :=
        List.filter_eq_self.2 fun b hb => decide_eq_true (hj b hb)
      have hother : (l.flatMap f).filter (fun b => tag b = i) = [] := by
        rw [List.filter_eq_nil_iff]
        intro b hb hbi
        obtain ⟨k, hk, hbk⟩ := List.mem_flatMap.1 hb
        have hki : k = i := (hl k hk b hbk).symm.trans (of_decide_eq_true hbi)
        exact hnodup.1 (hki ▸ hk)
      rw [hself, hother, List.append_nil]
    · have hother : (f j).filter (fun b => tag b = i) = [] := by
        rw [List.filter_eq_nil_iff]
        intro b hb hbi
        have hji : j = i := (hj b hb).symm.trans (of_decide_eq_true hbi)
        exact hnodup.1 (hji ▸ hi)
      rw [hother, List.nil_append, ih hnodup.2 hl hi]

/-- Parts whose members tell their index are known from the whole. -/
theorem flatMap_eq_iff (hnodup : l.Nodup) (hf : ∀ i ∈ l, ∀ b ∈ f i, tag b = i)
    (hg : ∀ i ∈ l, ∀ b ∈ g i, tag b = i) : l.flatMap f = l.flatMap g ↔ ∀ i ∈ l, f i = g i := by
  constructor
  · intro h i hi
    rw [← filter_flatMap hnodup hf hi, h, filter_flatMap hnodup hg hi]
  · intro h
    rw [List.flatMap_def, List.flatMap_def, List.map_congr_left h]

end Tags

/-- Lists of equally long parts that differ are different. -/
theorem flatMap_inj {f : ι → List β} {n : ℕ} (hn : n ≠ 0) (hlen : ∀ i, (f i).length = n)
    (hf : ∀ i j, f i = f j → i = j) {l l' : List ι} (h : l.flatMap f = l'.flatMap f) : l = l' := by
  have hne : ∀ (i : ι) (m : List ι), (i :: m).flatMap f ≠ [] := by
    intro i m hnil
    have hlength := congrArg List.length hnil
    rw [List.flatMap_cons, List.length_append, hlen, List.length_nil] at hlength
    omega
  induction l generalizing l' with
  | nil =>
    cases l' with
    | nil => rfl
    | cons j l' => exact absurd h.symm (hne j l')
  | cons i l ih =>
    cases l' with
    | nil => exact absurd h (hne i l)
    | cons j l' =>
      rw [List.flatMap_cons, List.flatMap_cons] at h
      obtain ⟨hhead, htail⟩ := List.append_inj h ((hlen i).trans (hlen j).symm)
      rw [hf i j hhead, ih htail]

/-- A list of parts that is cut is cut in one of them. -/
theorem prefix_flatMap {f : ι → List β} {l : List ι} {p : List β} (h : p <+: l.flatMap f) (hne : p ≠ l.flatMap f) :
    ∃ front i rest u, l = front ++ i :: rest ∧ p = front.flatMap f ++ u ∧ u <+: f i ∧ u ≠ f i := by
  induction l generalizing p with
  | nil => exact absurd (List.prefix_nil.1 h) hne
  | cons i l ih =>
    rw [List.flatMap_cons] at h hne
    by_cases hshort : p <+: f i ∧ p ≠ f i
    · exact ⟨[], i, l, p, rfl, rfl, hshort.1, hshort.2⟩
    · obtain ⟨p', rfl⟩ : f i <+: p := by
        rcases List.prefix_or_prefix_of_prefix h (List.prefix_append (f i) (l.flatMap f)) with hp | hp
        · have heq : p = f i := not_ne_iff.1 fun hpne => hshort ⟨hp, hpne⟩
          exact heq ▸ List.prefix_rfl
        · exact hp
      have hp' : p' ≠ l.flatMap f := fun heq => hne (by rw [heq])
      obtain ⟨front, j, rest, u, rfl, rfl, hu, hune⟩ := ih ((List.prefix_append_right_inj _).1 h) hp'
      exact ⟨i :: front, j, rest, u, rfl, by rw [List.flatMap_cons, List.append_assoc], hu, hune⟩

end Gather
