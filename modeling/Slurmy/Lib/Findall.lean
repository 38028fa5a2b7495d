import Mathlib.Data.List.Basic
import Mathlib.Data.List.Infix
import Mathlib.Data.List.Pairwise

/-!
# All matches of a pattern

A pattern is looked for from the left, and behind a match again, as `re.findall` does.

* `Pattern`: what it matches at a place, knowing the element before it; it looks at one element behind the match, and
  no match holds another one;
* `find`, `findall`: the matches that are found, with their places;
* `Occurs`: the pattern matches at a place, whether it is looked for there or not;
* `mem_findall_iff`: it is found where it matches, except inside a match that has begun before;
* `mem_findall_transfer`: what is found in the beginning of a text does not depend on the rest.
-/

namespace Findall

variable {α β : Type*}

structure Found (β : Type*) where
  start : ℕ
  stop : ℕ
  value : β

/-- The length of the match at the beginning of a text and its value, from the element before. -/
structure Pattern (α : Type*) (β : Type*) where
  read : Option α → List α → Option (ℕ × β)
  pos : ∀ {prev t n b}, read prev t = some (n, b) → 0 < n
  le : ∀ {prev t n b}, read prev t = some (n, b) → n ≤ t.length
  /-- Only one element behind the match has been looked at. -/
  near : ∀ {prev u v n b}, read prev (u ++ v) = some (n, b) → n < u.length → ∀ w, read prev (u ++ w) = some (n, b)
  /-- A match that begins inside another one ends behind it. -/
  nested : ∀ {prev u v n b n' b'}, read prev (u ++ v) = some (n, b) → u ≠ [] → u.length < n →
    read u.getLast? v = some (n', b') → n < u.length + n'

variable (m : Pattern α β)

/-- The matches from the place `i` on, where `skip` elements belong to a match. -/
def find : ℕ → ℕ → Option α → List α → List (Found β)
  | _, _, _, [] => []
  | skip + 1, i, _, c :: t => find skip (i + 1) (some c) t
  | 0, i, prev, c :: t =>
      match m.read prev (c :: t) with
      | some (n, b) => ⟨i, i + n, b⟩ :: find (n - 1) (i + 1) (some c) t
      | none => find 0 (i + 1) (some c) t

def findall (t : List α) : List (Found β) := find m 0 0 none t

/-- The pattern matches at the place of `f`. -/
def Occurs (t : List α) (f : Found β) : Prop :=
  ∃ u v n, t = u ++ v ∧ f.start = u.length ∧ f.stop = u.length + n ∧ m.read u.getLast? v = some (n, f.value)

variable {m} {t u v pre x y : List α} {f g e : Found β} {skip : ℕ}

theorem Occurs.start_lt (h : Occurs m t f) : f.start < f.stop := by
  obtain ⟨u, v, n, -, hstart, hstop, hread⟩ := h
  have hpos := m.pos hread
  omega

theorem Occurs.stop_le (h : Occurs m t f) : f.stop ≤ t.length := by
  obtain ⟨u, v, n, rfl, hstart, hstop, hread⟩ := h
  have hle := m.le hread
  rw [List.length_append]
  omega

theorem Occurs.eq_of_start (hf : Occurs m t f) (hg : Occurs m t g) (h : f.start = g.start) : f = g := by
  obtain ⟨u, v, n, ht, hstart, hstop, hread⟩ := hf
  obtain ⟨u', v', n', ht', hstart', hstop', hread'⟩ := hg
  obtain ⟨rfl, rfl⟩ := List.append_inj (ht.symm.trans ht') (by omega)
  rw [hread] at hread'
  obtain ⟨rfl, hvalue⟩ := Prod.mk.inj (Option.some.inj hread')
  obtain ⟨start, stop, value⟩ := f
  obtain ⟨start', stop', value'⟩ := g
  simp only at hstart hstop hstart' hstop' hvalue
  rw [hstart, hstop, hstart', hstop', hvalue]

/-- The text behind the beginning of one of two matches begins with what is before the other. -/
theorem Occurs.split (hf : Occurs m t f) (hg : Occurs m t g) (h : g.start ≤ f.start) :
    ∃ u w v n n', t = u ++ (w ++ v) ∧ g.start = u.length ∧ f.start = u.length + w.length ∧ g.stop = u.length + n ∧
      f.stop = f.start + n' ∧ m.read u.getLast? (w ++ v) = some (n, g.value) ∧
      m.read (u ++ w).getLast? v = some (n', f.value) := by
  obtain ⟨uf, vf, nf, ht, hstart, hstop, hread⟩ := hf
  obtain ⟨ug, vg, ng, ht', hstart', hstop', hread'⟩ := hg
  have hpre : ug <+: uf := List.prefix_of_prefix_length_le ⟨vg, ht'.symm⟩ ⟨vf, ht.symm⟩ (by omega)
  obtain ⟨w, rfl⟩ := hpre
  obtain rfl : vg = w ++ vf := by
    rw [ht', List.append_assoc] at ht
    exact List.append_cancel_left ht
  rw [List.length_append] at hstart hstop
  exact ⟨ug, w, vf, ng, nf, ht', hstart', hstart, hstop', by omega, hread', hread⟩

theorem Occurs.nested (hf : Occurs m t f) (hg : Occurs m t g) (h : g.start < f.start) (h' : f.start < g.stop) :
    g.stop < f.stop := by
  obtain ⟨u, w, v, n, n', -, hgs, hfs, hgstop, hfstop, hgread, hfread⟩ := hf.split hg h.le
  have hw : w ≠ [] := by
    rintro rfl
    rw [List.length_nil] at hfs
    omega
  rw [List.getLast?_append_of_ne_nil u hw] at hfread
  have hlt := m.nested hgread hw (by omega) hfread
  omega

/-- A match that ends before the rest of the text does not depend on it. -/
theorem Occurs.near (h : Occurs m (u ++ x) f) (hstop : f.stop < u.length) (y : List α) : Occurs m (u ++ y) f := by
  obtain ⟨p, v, n, ht, hstart, hend, hread⟩ := h
  have hpre : p <+: u := List.prefix_of_prefix_length_le ⟨v, ht.symm⟩ ⟨x, rfl⟩ (by omega)
  obtain ⟨w, rfl⟩ := hpre
  obtain rfl : w ++ x = v := by
    rw [List.append_assoc] at ht
    exact List.append_cancel_left ht
  rw [List.length_append] at hstop
  exact ⟨p, w ++ y, n, List.append_assoc p w y, hstart, hend, m.near hread (by omega) y⟩

/-- A match occurs behind another beginning of the text too, if it does not begin at once or what is before it makes
no difference. -/
theorem Occurs.move (h : Occurs m (u ++ v) f) (hstart : u.length ≤ f.start)
    (hprev : f.start = u.length → ∀ r, m.read u.getLast? v = some r → m.read y.getLast? v = some r) :
    Occurs m (y ++ v) ⟨f.start - u.length + y.length, f.stop - u.length + y.length, f.value⟩ := by
  obtain ⟨p, q, n, ht, hp, hstop, hread⟩ := h
  obtain ⟨w, rfl⟩ : u <+: p := List.prefix_of_prefix_length_le ⟨v, rfl⟩ ⟨q, ht.symm⟩ (by omega)
  obtain rfl : v = w ++ q := by
    rw [List.append_assoc] at ht
    exact List.append_cancel_left ht
  rw [List.length_append] at hp hstop
  refine ⟨y ++ w, q, n, (List.append_assoc y w q).symm, ?_, ?_, ?_⟩
  · rw [List.length_append]
    simp only
    omega
  · rw [List.length_append]
    simp only
    omega
  · by_cases hw : w = []
    · subst hw
      rw [List.append_nil] at hread ⊢
      exact hprev hp _ hread
    · rw [List.getLast?_append_of_ne_nil y hw]
      rwa [List.getLast?_append_of_ne_nil u hw] at hread

/-! ### What is found -/

theorem find_skip (c : α) (t : List α) :
    find m (skip + 1) pre.length pre.getLast? (c :: t) = find m skip (pre ++ [c]).length (pre ++ [c]).getLast? t := by
  rw [find, List.length_append, List.length_singleton, List.getLast?_concat]

theorem find_none {c : α} (h : m.read pre.getLast? (c :: t) = none) :
    find m 0 pre.length pre.getLast? (c :: t) = find m 0 (pre ++ [c]).length (pre ++ [c]).getLast? t := by
  rw [find, h, List.length_append, List.length_singleton, List.getLast?_concat]

theorem find_some {c : α} {n : ℕ} {b : β} (h : m.read pre.getLast? (c :: t) = some (n, b)) :
    find m 0 pre.length pre.getLast? (c :: t) =
      ⟨pre.length, pre.length + n, b⟩ :: find m (n - 1) (pre ++ [c]).length (pre ++ [c]).getLast? t := by
  rw [find, h, List.length_append, List.length_singleton, List.getLast?_concat]

/-- What is found behind the part `pre` occurs in the whole text, behind what is skipped. -/
theorem mem_find (h : f ∈ find m skip pre.length pre.getLast? t) :
    pre.length + skip ≤ f.start ∧ Occurs m (pre ++ t) f := by
  induction t generalizing pre skip with
  | nil => cases h
  | cons c t ih =>
    have happ : pre ++ c :: t = pre ++ [c] ++ t := (List.append_assoc pre [c] t).symm
    have hlen : (pre ++ [c]).length = pre.length + 1 := by rw [List.length_append, List.length_singleton]
    cases skip with
    | succ skip =>
      rw [find_skip] at h
      obtain ⟨hstart, hoccurs⟩ := ih h
      exact ⟨by omega, happ ▸ hoccurs⟩
    | zero =>
      cases hread : m.read pre.getLast? (c :: t) with
      | none =>
        rw [find_none hread] at h
        obtain ⟨hstart, hoccurs⟩ := ih h
        exact ⟨by omega, happ ▸ hoccurs⟩
      | some nb =>
        obtain ⟨n, b⟩ := nb
        rw [find_some hread] at h
        rcases List.mem_cons.1 h with rfl | h
        · exact ⟨le_rfl, pre, c :: t, n, rfl, rfl, rfl, hread⟩
        · obtain ⟨hstart, hoccurs⟩ := ih h
          exact ⟨by omega, happ ▸ hoccurs⟩

/-- The pattern is found where it matches, or it has begun to match before. -/
theorem mem_find_or (h : Occurs m (pre ++ t) f) (hstart : pre.length + skip ≤ f.start) :
    f ∈ find m skip pre.length pre.getLast? t ∨
      ∃ g ∈ find m skip pre.length pre.getLast? t, g.start < f.start ∧ f.start < g.stop := by
  induction t generalizing pre skip with
  | nil =>
    have hlt := h.start_lt
    have hle := h.stop_le
    rw [List.append_nil] at hle
    omega
  | cons c t ih =>
    have happ : pre ++ c :: t = pre ++ [c] ++ t := (List.append_assoc pre [c] t).symm
    have hlen : (pre ++ [c]).length = pre.length + 1 := by rw [List.length_append, List.length_singleton]
    cases skip with
    | succ skip =>
      rw [find_skip]
      exact ih (happ ▸ h) (by omega)
    | zero =>
      cases hread : m.read pre.getLast? (c :: t) with
      | none =>
        rw [find_none hread]
        refine ih (happ ▸ h) ?_
        by_contra hlt
        obtain ⟨u, v, n, ht, hu, -, hread'⟩ := h
        obtain ⟨rfl, rfl⟩ := List.append_inj ht (by omega)
        rw [hread] at hread'
        cases hread'
      | some nb =>
        obtain ⟨n, b⟩ := nb
        have hhead : Occurs m (pre ++ c :: t) ⟨pre.length, pre.length + n, b⟩ :=
          ⟨pre, c :: t, n, rfl, rfl, rfl, hread⟩
        have hpos := m.pos hread
        rw [find_some hread]
        by_cases hfirst : f.start = pre.length
        · exact .inl (List.mem_cons.2 (.inl (h.eq_of_start hhead hfirst)))
        by_cases hinside : f.start < pre.length + n
        · exact .inr ⟨_, List.mem_cons_self, by simp only; omega, hinside⟩
        have hbehind : (pre ++ [c]).length + (n - 1) ≤ f.start := by omega
        rcases ih (happ ▸ h) hbehind with hmem | ⟨g, hg, hcover⟩
        · exact .inl (List.mem_cons_of_mem _ hmem)
        · exact .inr ⟨g, List.mem_cons_of_mem _ hg, hcover⟩

theorem pairwise_find (pre t : List α) (skip : ℕ) :
    (find m skip pre.length pre.getLast? t).Pairwise fun f g => f.stop ≤ g.start := by
  induction t generalizing pre skip with
  | nil => exact List.Pairwise.nil
  | cons c t ih =>
    cases skip with
    | succ skip =>
      rw [find_skip]
      exact ih _ _
    | zero =>
      cases hread : m.read pre.getLast? (c :: t) with
      | none =>
        rw [find_none hread]
        exact ih _ _
      | some nb =>
        obtain ⟨n, b⟩ := nb
        rw [find_some hread]
        refine List.pairwise_cons.2 ⟨fun g hg => ?_, ih _ _⟩
        have hstart := (mem_find hg).1
        have hpos := m.pos hread
        rw [List.length_append, List.length_singleton] at hstart
        simp only
        omega

theorem occurs_of_mem (h : f ∈ findall m t) : Occurs m t f := by
  have hfind : f ∈ find m 0 ([] : List α).length ([] : List α).getLast? t := h
  exact (mem_find hfind).2

theorem mem_or_of_occurs (h : Occurs m t f) :
    f ∈ findall m t ∨ ∃ g ∈ findall m t, g.start < f.start ∧ f.start < g.stop := by
  have hstart : ([] : List α).length + 0 ≤ f.start := Nat.zero_le _
  exact mem_find_or h hstart

theorem pairwise_findall (t : List α) : (findall m t).Pairwise fun f g => f.stop ≤ g.start := pairwise_find [] t 0

/-- Two matches that are found are one, or one ends before the other begins. -/
theorem stop_le_start (hf : f ∈ findall m t) (hg : g ∈ findall m t) (h : g.start < f.start) : g.stop ≤ f.start := by
  have hsymm : Std.Symm fun f g : Found β => f.stop ≤ g.start ∨ g.stop ≤ f.start := ⟨fun _ _ => Or.symm⟩
  have hpair : (findall m t).Pairwise fun f g => f.stop ≤ g.start ∨ g.stop ≤ f.start :=
    (pairwise_findall t).imp .inl
  have hne : g ≠ f := fun heq => by rw [heq] at h; omega
  rcases hpair.forall hg hf hne with hle | hle
  · exact hle
  · have hlt := (occurs_of_mem hf).start_lt
    omega

/-- The pattern is found where it matches, except inside a match that has begun before. -/
theorem mem_findall_iff :
    f ∈ findall m t ↔ Occurs m t f ∧ ∀ g ∈ findall m t, g.start < f.start → g.stop ≤ f.start := by
  constructor
  · intro h
    exact ⟨occurs_of_mem h, fun g hg hlt => stop_le_start h hg hlt⟩
  · rintro ⟨hoccurs, hfree⟩
    rcases mem_or_of_occurs hoccurs with h | ⟨g, hg, hlt, hcover⟩
    · exact h
    · have hle := hfree g hg hlt
      omega

/-- Whatever matches, something is found that ends there or inside it, or has begun there. -/
theorem exists_found (h : Occurs m t f) : ∃ g ∈ findall m t, f.start < g.stop := by
  rcases mem_or_of_occurs h with hf | ⟨g, hg, -, hcover⟩
  · exact ⟨f, hf, h.start_lt⟩
  · exact ⟨g, hg, hcover⟩

theorem mem_of_last (h : (findall m t).getLast? = some e) : e ∈ findall m t := List.mem_of_getLast? h

theorem stop_le_of_last (h : (findall m t).getLast? = some e) (hf : f ∈ findall m t) : f = e ∨ f.stop ≤ e.start := by
  obtain ⟨front, hfront⟩ := List.getLast?_eq_some_iff.1 h
  have hpair := pairwise_findall (m := m) t
  rw [hfront] at hpair hf
  rcases List.mem_append.1 hf with hf | hf
  · exact .inr ((List.pairwise_append.1 hpair).2.2 f hf e (List.mem_singleton_self e))
  · exact .inl (List.mem_singleton.1 hf)

/-- What is found in the beginning of a text is found in front of another rest too, if it still matches there. -/
theorem mem_findall_transfer (h : f ∈ findall m (u ++ x)) (hstop : f.stop ≤ u.length) (hoccurs : Occurs m (u ++ y) f) :
    f ∈ findall m (u ++ y) := by
  induction hn : f.start using Nat.strong_induction_on generalizing f x y with
  | _ n ih =>
    refine mem_findall_iff.2 ⟨hoccurs, fun g hg hlt => ?_⟩
    by_contra hcover
    have hnested : g.stop < f.stop := hoccurs.nested (occurs_of_mem hg) hlt (by omega)
    have hgx : g ∈ findall m (u ++ x) :=
      ih g.start (hn ▸ hlt) hg (by omega) ((occurs_of_mem hg).near (by omega) x) rfl
    exact hcover (stop_le_start h hgx hlt)

end Findall
