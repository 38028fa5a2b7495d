import Mathlib.Data.Fintype.Pi
import Mathlib.Data.Set.Insert

/-!
# Time stamps

Places that hold nodes, each with the time stamp of its last change.

* `Published`: a change stamps what it writes, and a removal stamps the parent of what it removes;
* `signature`: what is known of the nodes without reading them, with their stamps;
* `Faithful`, `Faithful.publish`: as long as every change has a stamp of its own, the signature says
  which of the states so far is there.
-/

namespace Stamps

variable {ι ν σ : Type*}

/-- Node `n` has the stamp `clock`, where there is a node. -/
def isFresh (stamp : ν → ℕ) (clock : ℕ) (node : Option ν) : Bool :=
  node.any fun n => stamp n = clock

theorem isFresh_iff {stamp : ν → ℕ} {clock : ℕ} {node : Option ν} :
    isFresh stamp clock node = true ↔ ∃ n, node = some n ∧ stamp n = clock := by
  cases node with
  | none => simp [isFresh]
  | some n => simp [isFresh]

/-- The nodes before and after a change at the time `clock`. -/
def Published (stamp : ν → ℕ) (parent : ι → ι) (clock : ℕ) (before after : ι → Option ν) : Prop :=
  ∀ i, after i = before i ∨ isFresh stamp clock (after i) = true ∨
    (after i = none ∧ isFresh stamp clock (after (parent i)) = true)

instance [Fintype ι] [DecidableEq ν] (stamp : ν → ℕ) (parent : ι → ι) (clock : ℕ)
    (before after : ι → Option ν) : Decidable (Published stamp parent clock before after) :=
  inferInstanceAs (Decidable (∀ _, _))

def signature (sign : ν → σ) (nodes : ι → Option ν) : ι → Option σ := fun i => (nodes i).map sign

def Bounded (stamp : ν → ℕ) (clock : ℕ) (nodes : ι → Option ν) : Prop :=
  ∀ i n, nodes i = some n → stamp n < clock

variable {stamp : ν → ℕ} {parent : ι → ι} {clock : ℕ} {before after nodes : ι → Option ν}

/-- A change leaves a stamp. -/
theorem Published.fresh (h : Published stamp parent clock before after) (hne : after ≠ before) :
    ∃ i n, after i = some n ∧ stamp n = clock := by
  obtain ⟨i, hi⟩ := Function.ne_iff.1 hne
  rcases h i with heq | hfresh | ⟨-, hfresh⟩
  · exact absurd heq hi
  · obtain ⟨n, hn⟩ := isFresh_iff.1 hfresh
    exact ⟨i, n, hn⟩
  · obtain ⟨n, hn⟩ := isFresh_iff.1 hfresh
    exact ⟨parent i, n, hn⟩

theorem Bounded.publish (h : Bounded stamp clock before)
    (hpublished : Published stamp parent clock before after) : Bounded stamp (clock + 1) after := by
  intro i n hn
  rcases hpublished i with heq | hfresh | ⟨hnone, -⟩
  · exact (h i n (heq ▸ hn)).trans (Nat.lt_succ_self clock)
  · obtain ⟨m, hm, hstamp⟩ := isFresh_iff.1 hfresh
    rw [hn] at hm
    cases hm
    omega
  · rw [hn] at hnone
    cases hnone

/-- What is older than a stamp has another signature. -/
theorem Bounded.signature_ne {sign : ν → σ} (hsign : ∀ m n, sign m = sign n → stamp m = stamp n)
    (h : Bounded stamp clock nodes) {i : ι} {n : ν} (hn : after i = some n)
    (hstamp : stamp n = clock) : signature sign nodes ≠ signature sign after := by
  intro heq
  have hi : (nodes i).map sign = some (sign n) := by
    have hi := congrFun heq i
    rwa [signature, signature, hn] at hi
  obtain ⟨m, hm, hsame⟩ := Option.map_eq_some_iff.1 hi
  have hlt := h i m hm
  rw [hsign m n hsame, hstamp] at hlt
  omega

/-- The signature tells the states of `seen` apart, and they are all older than `clock`. -/
structure Faithful (stamp : ν → ℕ) (sign : ν → σ) (clock : ℕ) (seen : Set (ι → Option ν)) : Prop where
  bounded : ∀ a ∈ seen, Bounded stamp clock a
  injective : ∀ a ∈ seen, ∀ b ∈ seen, signature sign a = signature sign b → a = b

theorem Faithful.mono {sign : ν → σ} {seen seen' : Set (ι → Option ν)}
    (h : Faithful stamp sign clock seen) (hsub : seen' ⊆ seen) :
    Faithful stamp sign clock seen' :=
  ⟨fun a ha => h.bounded a (hsub ha), fun a ha b hb => h.injective a (hsub ha) b (hsub hb)⟩

theorem Faithful.publish {sign : ν → σ} (hsign : ∀ m n, sign m = sign n → stamp m = stamp n)
    {seen : Set (ι → Option ν)} (h : Faithful stamp sign clock seen) (hbefore : before ∈ seen)
    (hpublished : Published stamp parent clock before after) :
    Faithful stamp sign (clock + 1) (insert after seen) := by
  by_cases hne : after = before
  · subst hne
    rw [Set.insert_eq_of_mem hbefore]
    exact ⟨fun a ha i n hn => (h.bounded a ha i n hn).trans (Nat.lt_succ_self clock), h.injective⟩
  · obtain ⟨i, n, hn, hstamp⟩ := hpublished.fresh hne
    have hother : ∀ a ∈ seen, signature sign a ≠ signature sign after := fun a ha =>
      (h.bounded a ha).signature_ne hsign hn hstamp
    constructor
    · rintro a (rfl | ha)
      · exact (h.bounded before hbefore).publish hpublished
      · exact fun i n hn => (h.bounded a ha i n hn).trans (Nat.lt_succ_self clock)
    · rintro a (rfl | ha) b (rfl | hb) heq
      · rfl
      · exact absurd heq.symm (hother b hb)
      · exact absurd heq (hother a ha)
      · exact h.injective a ha b hb heq

end Stamps
