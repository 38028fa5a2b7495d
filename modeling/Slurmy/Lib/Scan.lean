import Mathlib.Data.List.Basic
import Mathlib.Data.List.Infix
import Mathlib.Tactic.Cases
import Mathlib.Tactic.SplitIfs

/-!
# Replacing matches between separators

A text is gone through from the left, and what matches is replaced; a match begins at the start of the text or
behind a separator.

* `scan`: the new text, and what the matches have captured;
* `Quiet`, `scan_quiet`, `scan_match`: parts in which no match begins, and parts that match;
* `joined`: words with separators between them;
* `Becomes`, `scan_joined`: words that are replaced one by one, each in front of the text that follows it.
-/

namespace Scan

variable {α β : Type*}

section Definitions

variable (sep : α → Bool) (m : List α → Option (β × ℕ)) (f : ℕ → List α)

/-- The `n`-th match, with its length from `m`, is replaced by `f n`. The first `k` characters belong to a match,
and `ok` says that one may begin. -/
def scan : ℕ → ℕ → Bool → List α → List α × List β
  | _, _, _, [] => ([], [])
  | n, k + 1, _, c :: t => scan n k (sep c) t
  | n, 0, ok, c :: t =>
      match (if ok then m (c :: t) else none) with
      | some (b, length) =>
          let rest := scan (n + 1) (length - 1) (sep c) t
          (f n ++ rest.1, b :: rest.2)
      | none =>
          let rest := scan n 0 (sep c) t
          (c :: rest.1, rest.2)

/-- Whether a match may begin behind the part `r`. -/
def okAfter (ok : Bool) (r : List α) : Bool := (r.getLast?.map sep).getD ok

/-- No match begins in the part `r` in front of `u`. -/
def Quiet (ok : Bool) (r u : List α) : Prop :=
  ∀ a b, r = a ++ b → b ≠ [] → okAfter sep ok a = true → m (b ++ u) = none

end Definitions

variable {sep : α → Bool} {m : List α → Option (β × ℕ)} {f : ℕ → List α} {n : ℕ} {ok : Bool} {r u : List α} {c : α}

theorem okAfter_cons (c : α) (r : List α) : okAfter sep ok (c :: r) = okAfter sep (sep c) r := by
  unfold okAfter
  rw [List.getLast?_cons]
  cases r.getLast? <;> rfl

theorem Quiet.tail (h : Quiet sep m ok (c :: r) u) : Quiet sep m (sep c) r u := by
  intro a b hr hb hok
  exact h (c :: a) b (by rw [hr]; rfl) hb (by rwa [okAfter_cons])

theorem Quiet.head (h : Quiet sep m ok (c :: r) u) (hok : ok = true) : m (c :: r ++ u) = none :=
  h [] (c :: r) rfl (List.cons_ne_nil c r) hok

theorem quiet_cons (hhead : ok = true → m (c :: r ++ u) = none) (h : Quiet sep m (sep c) r u) :
    Quiet sep m ok (c :: r) u := by
  intro a b hr hb hok
  cases a with
  | nil =>
    rw [List.nil_append] at hr
    exact hr ▸ hhead hok
  | cons d a =>
    rw [List.cons_append] at hr
    obtain ⟨rfl, htail⟩ := List.cons.inj hr
    exact h a b htail hb (by rwa [okAfter_cons] at hok)

/-- Where a match may begin, fewer begin if it may not. -/
theorem Quiet.mono {ok' : Bool} (h : Quiet sep m ok r u) (hok : ok' = true → ok = true) : Quiet sep m ok' r u := by
  intro a b hr hb hok'
  refine h a b hr hb ?_
  unfold okAfter at hok' ⊢
  cases hlast : a.getLast? with
  | none =>
    rw [hlast] at hok'
    exact hok hok'
  | some d =>
    rw [hlast] at hok'
    exact hok'

/-- Parts after each other. -/
theorem Quiet.append {r' : List α} (h : Quiet sep m ok r (r' ++ u)) (h' : Quiet sep m (okAfter sep ok r) r' u) :
    Quiet sep m ok (r ++ r') u := by
  induction r generalizing ok with
  | nil => exact h'
  | cons c r ih =>
    rw [okAfter_cons] at h'
    refine quiet_cons (fun hok => ?_) (ih h.tail h')
    show m (c :: (r ++ r') ++ u) = none
    rw [List.cons_append, List.append_assoc]
    exact h.head hok

/-- Place by place. -/
theorem quiet_iff : Quiet sep m ok r u ↔
    ∀ k < r.length, okAfter sep ok (r.take k) = true → (m (r.drop k ++ u)).isNone = true := by
  constructor
  · intro h k hk hok
    have hne : r.drop k ≠ [] := fun hnil => absurd (List.drop_eq_nil_iff.mp hnil) (not_le.mpr hk)
    exact Option.isNone_iff_eq_none.mpr (h _ _ (List.take_append_drop k r).symm hne hok)
  · intro h a b hr hb hok
    have hlength : a.length < r.length := by
      rw [hr, List.length_append]
      exact Nat.lt_add_of_pos_right (List.length_pos_iff.mpr hb)
    have hnone := h a.length hlength (by rwa [hr, List.take_left])
    rw [hr, List.drop_left] at hnone
    exact Option.isNone_iff_eq_none.mp hnone

instance decidableQuiet : Decidable (Quiet sep m ok r u) := decidable_of_iff' _ quiet_iff

/-- A text in which nothing matches stays as it is. -/
theorem scan_of_none (h : ∀ v, v <:+ r → m v = none) : scan sep m f n 0 ok r = (r, []) := by
  induction r generalizing ok with
  | nil => rfl
  | cons c r ih =>
    have hhead : (if ok then m (c :: r) else none) = none := by
      rw [h _ List.suffix_rfl]
      exact ite_self none
    rw [scan, hhead]
    dsimp only
    rw [ih fun v hv => h v (hv.trans (List.suffix_cons c r))]

theorem scan_quiet (h : Quiet sep m ok r u) :
    scan sep m f n 0 ok (r ++ u) =
      (r ++ (scan sep m f n 0 (okAfter sep ok r) u).1, (scan sep m f n 0 (okAfter sep ok r) u).2) := by
  induction r generalizing ok with
  | nil => rfl
  | cons c r ih =>
    have hhead : (if ok then m (c :: (r ++ u)) else none) = none := by
      split
      · next hok => exact h.head hok
      · rfl
    rw [List.cons_append, scan, hhead, okAfter_cons]
    dsimp only
    rw [ih h.tail]
    rfl

theorem scan_skip (r u : List α) (n : ℕ) (ok : Bool) :
    scan sep m f n r.length ok (r ++ u) = scan sep m f n 0 (okAfter sep ok r) u := by
  induction r generalizing ok with
  | nil => rfl
  | cons c r ih =>
    rw [okAfter_cons]
    exact ih (sep c)

theorem scan_match {b : β} (hr : r ≠ []) (h : m (r ++ u) = some (b, r.length)) :
    scan sep m f n 0 true (r ++ u) =
      (f n ++ (scan sep m f (n + 1) 0 (okAfter sep true r) u).1,
        b :: (scan sep m f (n + 1) 0 (okAfter sep true r) u).2) := by
  obtain ⟨c, r, rfl⟩ := List.exists_cons_of_ne_nil hr
  have hhead : (if true then m (c :: (r ++ u)) else none) = some (b, r.length + 1) := h
  rw [List.cons_append, scan, hhead, okAfter_cons]
  dsimp only
  rw [Nat.add_sub_cancel, scan_skip]

/-! ### Words -/

/-- Words with single separators between them; there may be empty words. -/
def joined : List α → List (α × List α) → List α
  | r, [] => r
  | r, (c, r') :: rest => r ++ c :: joined r' rest

variable (sep m f) in
/-- In front of `u` a word becomes another one, and the matches in it capture `bs`. -/
def Becomes (n : ℕ) (r u r' : List α) (bs : List β) : Prop :=
  ∃ ok, scan sep m f n 0 true (r ++ u) =
    (r' ++ (scan sep m f (n + bs.length) 0 ok u).1, bs ++ (scan sep m f (n + bs.length) 0 ok u).2)

theorem becomes_of_quiet (h : Quiet sep m true r u) : Becomes sep m f n r u r [] := ⟨okAfter sep true r, scan_quiet h⟩

/-- A match at the beginning of the word, and none in the rest of it. -/
theorem becomes_of_match {b : β} {v : List α} (hr : r ≠ []) (h : m (r ++ (v ++ u)) = some (b, r.length))
    (hv : Quiet sep m (okAfter sep true r) v u) : Becomes sep m f n (r ++ v) u (f n ++ v) [b] := by
  refine ⟨okAfter sep (okAfter sep true r) v, ?_⟩
  rw [List.append_assoc, scan_match hr h, scan_quiet hv, List.append_assoc]
  rfl

variable (sep m f) in
/-- The words become others one by one, each in front of the text that follows it. -/
inductive BecomeAll : ℕ → List α → List (α × List α) → List α → List (α × List α) → List β → Prop
  | last {n : ℕ} {r r' : List α} {bs : List β} (head : Becomes sep m f n r [] r' bs) : BecomeAll n r [] r' [] bs
  | cons {n : ℕ} {r r' s s' : List α} {c : α} {rest rest' : List (α × List α)} {bs bss : List β}
      (head : Becomes sep m f n r (c :: joined s rest) r' bs) (tail : BecomeAll (n + bs.length) s rest s' rest' bss) :
      BecomeAll n r ((c, s) :: rest) r' ((c, s') :: rest') (bs ++ bss)

/-- The scan of words with separators between them at which no match begins. -/
theorem scan_joined {rest rest' : List (α × List α)} {r' : List α} {bs : List β}
    (hrest : ∀ c ∈ rest.map Prod.fst, sep c = true ∧ ∀ u, m (c :: u) = none)
    (h : BecomeAll sep m f n r rest r' rest' bs) : scan sep m f n 0 true (joined r rest) = (joined r' rest', bs) := by
  induction h with
  | @last n r r' bs head =>
    obtain ⟨ok, heq⟩ := head
    rw [List.append_nil] at heq
    show scan sep m f n 0 true r = _
    rw [heq, scan, List.append_nil, List.append_nil]
    rfl
  | @cons n r r' s s' c rest rest' bs bss head tail ih =>
    obtain ⟨ok, heq⟩ := head
    obtain ⟨hsep, hblank⟩ := hrest c List.mem_cons_self
    have hnone : (if ok then m (c :: joined s rest) else none) = none := by
      rw [hblank]
      exact ite_self none
    have hstep : scan sep m f (n + bs.length) 0 ok (c :: joined s rest) = (c :: joined s' rest', bss) := by
      rw [scan, hnone]
      dsimp only
      rw [hsep, ih fun d hd => hrest d (List.mem_cons_of_mem c hd)]
    show scan sep m f n 0 true (r ++ c :: joined s rest) = _
    rw [heq, hstep]
    rfl

end Scan
