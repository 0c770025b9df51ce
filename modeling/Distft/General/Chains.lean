import Mathlib.Data.Fintype.Card
import Mathlib.Logic.Relation

/-!
# Chains

A partial function `next` makes a chain from each element, which goes on for as long as `next` is
defined. Where the elements have labels of which there are finitely many, and each step goes along a
relation of labels that has no circles, the chain ends (`ends_of_acyclic`). Where an invariant gives a
next element that has it again, the chain never ends (`not_ends_of_invariant`).
-/

namespace Distft.Chains

variable {α σ : Type*} (next : α → Option α)

/-- The element of the chain from `a` after `n` steps, if the chain is that long. -/
def nth : ℕ → α → Option α
  | 0, a => some a
  | n + 1, a => (next a).bind (nth n)

/-- The chain comes to an end. -/
def Ends (a : α) : Prop := ∃ n, nth next n a = none

variable {next} {a : α}

/-- A chain ends if the one of the next element does. -/
theorem ends_of_next (h : ∀ b, next a = some b → Ends next b) : Ends next a := by
  cases hnext : next a with
  | none => exact ⟨1, by rw [nth, hnext, Option.bind_none]⟩
  | some b =>
    obtain ⟨n, hn⟩ := h b hnext
    exact ⟨n + 1, by rw [nth, hnext, Option.bind_some, hn]⟩

/-- A relation without circles on finitely many labels has no infinite way, so a chain that goes
along it ends. -/
theorem ends_of_acyclic [Finite σ] {R : σ → σ → Prop} (hR : ∀ s, ¬Relation.TransGen R s s)
    {At : α → σ → Prop}
    (hstep : ∀ a b s, At a s → next a = some b → Ends next b ∨ ∃ t, R s t ∧ At b t) {s : σ}
    (ha : At a s) : Ends next a := by
  have : Std.Irrefl (Function.swap (Relation.TransGen R)) := ⟨hR⟩
  have : IsTrans σ (Function.swap (Relation.TransGen R)) := ⟨fun _ _ _ h h' => h'.trans h⟩
  have hwf := Finite.wellFounded_of_trans_of_irrefl (Function.swap (Relation.TransGen R))
  induction s using hwf.induction generalizing a with
  | h s ih =>
    refine ends_of_next fun b hb => ?_
    rcases hstep a b s ha hb with hends | ⟨t, hst, hbt⟩
    · exact hends
    · exact ih t (.single hst) hbt

/-- A chain in which there is always a next element never ends. -/
theorem not_ends_of_invariant {I : α → Prop} (hnext : ∀ a, I a → ∃ b, next a = some b ∧ I b)
    (ha : I a) : ¬Ends next a := by
  rintro ⟨n, hn⟩
  induction n generalizing a with
  | zero => exact nomatch hn
  | succ n ih =>
    obtain ⟨b, hb, hIb⟩ := hnext a ha
    rw [nth, hb, Option.bind_some] at hn
    exact ih hIb hn

end Distft.Chains
