import Mathlib.Data.Finset.Card
import Mathlib.Data.List.Sort

/-!
# The nearest elements of a set

`IsNearest dist K S ks` says that the list `ks` holds the `min K |S|` elements of the finite set `S`
with the smallest `dist`, in strictly increasing order. A list of records is cut to its nearest by
keeping the first record of each key, sorting, and truncating (`nearest`, `isNearest_nearest`).

The rule for algorithms that gather elements and cut again and again is `Suffices`: a set stands for
a larger one if, whatever is added to both, they have the same nearest elements. The nearest elements
of a set stand for it (`IsNearest.suffices`), so cutting never loses an element that a later cut
would have kept.
-/

namespace Distft.Nearest

variable {α κ δ : Type*} [LinearOrder δ]

/-- The list holds the `K` elements of the set with the smallest distances, or all of it, in strictly
increasing order. -/
structure IsNearest (dist : κ → δ) (K : ℕ) (S : Finset κ) (ks : List κ) : Prop where
  /-- The order is strictly increasing. -/
  sorted : ks.Pairwise fun k k' => dist k < dist k'
  /-- The elements are from the set. -/
  subset : ∀ k ∈ ks, k ∈ S
  /-- There are `K` of them, or all. -/
  length : ks.length = min K S.card
  /-- An element that is left out is farther than all that are not. -/
  closest : ∀ k ∈ S, k ∉ ks → ∀ k' ∈ ks, dist k' < dist k

/-- A strictly sorted list has no repetition. -/
theorem nodup_of_sorted {β γ : Type*} [Preorder γ] {dist : β → γ} {ks : List β}
    (h : ks.Pairwise fun k k' => dist k < dist k') : ks.Nodup := by
  refine h.imp ?_
  rintro k k' hlt rfl
  exact lt_irrefl _ hlt

/-- The nearest elements of a set have no repetition. -/
theorem IsNearest.nodup {dist : κ → δ} {K : ℕ} {S : Finset κ} {ks : List κ}
    (h : IsNearest dist K S ks) : ks.Nodup := nodup_of_sorted h.sorted

variable [DecidableEq κ]

/-- The records whose keys are not among `seen`, the first one of each key. -/
def uniqueBy (key : α → κ) : List κ → List α → List α
  | _, [] => []
  | seen, a :: l =>
    if key a ∈ seen then uniqueBy key seen l else a :: uniqueBy key (key a :: seen) l

/-- A list of records cut to the nearest `K`. -/
def nearest (key : α → κ) (dist : κ → δ) (K : ℕ) (l : List α) : List α :=
  ((uniqueBy key [] l).insertionSort fun a b => dist (key a) ≤ dist (key b)).take K

/-- The set `T` stands for `S`: whatever is added to both, what is nearest of one is nearest of the
other. -/
def Suffices (dist : κ → δ) (K : ℕ) (T S : Finset κ) : Prop :=
  ∀ A ks, IsNearest dist K (T ∪ A) ks → IsNearest dist K (S ∪ A) ks

/-! ## Keeping the first record of each key -/

/-- The keys that are kept are those not seen before. -/
theorem mem_uniqueBy {key : α → κ} {seen : List κ} {l : List α} {k : κ} :
    k ∈ (uniqueBy key seen l).map key ↔ k ∈ l.map key ∧ k ∉ seen := by
  induction l generalizing seen with
  | nil => simp [uniqueBy]
  | cons a l ih =>
    unfold uniqueBy
    split_ifs with h
    · rw [ih, List.map_cons, List.mem_cons]
      refine ⟨fun hk => ⟨.inr hk.1, hk.2⟩, fun hk => ⟨hk.1.resolve_left ?_, hk.2⟩⟩
      rintro rfl
      exact hk.2 h
    · rw [List.map_cons, List.mem_cons, List.map_cons, List.mem_cons, ih, List.mem_cons, not_or]
      by_cases hk : k = key a
      · simp [hk, h]
      · simp [hk]

/-- No key is kept twice. -/
theorem nodup_uniqueBy (key : α → κ) (seen : List κ) (l : List α) :
    ((uniqueBy key seen l).map key).Nodup := by
  induction l generalizing seen with
  | nil => simp [uniqueBy]
  | cons a l ih =>
    unfold uniqueBy
    split_ifs with h
    · exact ih seen
    · rw [List.map_cons, List.nodup_cons]
      refine ⟨fun hmem => ?_, ih _⟩
      exact (mem_uniqueBy.1 hmem).2 List.mem_cons_self

/-- A record that is kept is one of the list. -/
theorem uniqueBy_subset (key : α → κ) (seen : List κ) (l : List α) : uniqueBy key seen l ⊆ l := by
  induction l generalizing seen with
  | nil => simp [uniqueBy]
  | cons a l ih =>
    unfold uniqueBy
    split_ifs
    · exact List.subset_cons_of_subset a (ih seen)
    · exact List.cons_subset_cons a (ih _)

/-! ## Cutting a list -/

/-- The beginning of a strictly sorted list is nearest of its elements. -/
theorem isNearest_take {dist : κ → δ} {ks : List κ}
    (hsorted : ks.Pairwise fun k k' => dist k < dist k') (K : ℕ) :
    IsNearest dist K ks.toFinset (ks.take K) := by
  have hnodup := nodup_of_sorted hsorted
  refine ⟨hsorted.sublist (List.take_sublist K ks), ?_, ?_, ?_⟩
  · exact fun k hk => List.mem_toFinset.2 (List.mem_of_mem_take hk)
  · rw [List.length_take, List.toFinset_card_of_nodup hnodup]
  · intro k hk hout k' hk'
    rw [List.mem_toFinset, ← List.take_append_drop K ks, List.mem_append] at hk
    rw [← List.take_append_drop K ks, List.pairwise_append] at hsorted
    exact hsorted.2.2 k' hk' k (hk.resolve_left hout)

/-- Cutting a list of records to the nearest does so to the set of its keys. -/
theorem isNearest_nearest {key : α → κ} {dist : κ → δ} (hdist : Function.Injective dist) (K : ℕ)
    (l : List α) :
    IsNearest dist K (l.map key).toFinset ((nearest key dist K l).map key) := by
  have hsort := List.pairwise_insertionSort (fun a b : α => dist (key a) ≤ dist (key b))
    (uniqueBy key [] l)
  have hperm := List.perm_insertionSort (fun a b : α => dist (key a) ≤ dist (key b))
    (uniqueBy key [] l)
  unfold nearest
  generalize (uniqueBy key [] l).insertionSort (fun a b => dist (key a) ≤ dist (key b)) = sorted at *
  have hnodup : (sorted.map key).Nodup :=
    (hperm.map key).nodup_iff.2 (nodup_uniqueBy key [] l)
  have hstrict : (sorted.map key).Pairwise fun k k' => dist k < dist k' := by
    have hle : (sorted.map key).Pairwise fun k k' => dist k ≤ dist k' := List.pairwise_map.2 hsort
    exact (hle.and hnodup).imp fun h => lt_of_le_of_ne h.1 fun heq => h.2 (hdist heq)
  have hset : (l.map key).toFinset = (sorted.map key).toFinset := by
    ext k
    rw [List.mem_toFinset, List.mem_toFinset, (hperm.map key).mem_iff, mem_uniqueBy]
    simp
  rw [hset, List.map_take]
  exact isNearest_take hstrict K

/-- A record of the cut list is one of the list. -/
theorem nearest_subset (key : α → κ) (dist : κ → δ) (K : ℕ) (l : List α) :
    nearest key dist K l ⊆ l := fun _ ha =>
  uniqueBy_subset key [] l ((List.mem_insertionSort _).1 (List.mem_of_mem_take ha))

/-! ## Cutting again and again -/

/-- While there are no more than `K` elements, all of them are nearest. -/
theorem IsNearest.mem_iff {dist : κ → δ} {K : ℕ} {S : Finset κ} {ks : List κ}
    (h : IsNearest dist K S ks) (hcard : S.card ≤ K) (k : κ) : k ∈ ks ↔ k ∈ S := by
  have heq : ks.toFinset = S := by
    apply Finset.eq_of_subset_of_card_le
    · exact fun k hk => h.subset k (List.mem_toFinset.1 hk)
    · rw [List.toFinset_card_of_nodup h.nodup, h.length]
      omega
  rw [← heq, List.mem_toFinset]

/-- A set stands for itself. -/
theorem Suffices.refl (dist : κ → δ) (K : ℕ) (S : Finset κ) : Suffices dist K S S :=
  fun _ _ h => h

/-- What stands for a set that stands for another stands for that one. -/
theorem Suffices.trans {dist : κ → δ} {K : ℕ} {S T U : Finset κ} (h : Suffices dist K S T)
    (h' : Suffices dist K T U) : Suffices dist K S U := fun A ks hk => h' A ks (h A ks hk)

/-- The same elements can be added on both sides. -/
theorem Suffices.union {dist : κ → δ} {K : ℕ} {T S : Finset κ} (h : Suffices dist K T S)
    (A : Finset κ) : Suffices dist K (T ∪ A) (S ∪ A) := by
  intro B ks hk
  rw [Finset.union_assoc] at hk ⊢
  exact h (A ∪ B) ks hk

/-- The nearest elements of a set stand for it. -/
theorem IsNearest.suffices {dist : κ → δ} {K : ℕ} {S : Finset κ} {ks : List κ}
    (h : IsNearest dist K S ks) : Suffices dist K ks.toFinset S := by
  intro A ks' h'
  have hsub : ks.toFinset ⊆ S := fun k hk => h.subset k (List.mem_toFinset.1 hk)
  rcases le_or_gt S.card K with hcard | hcard
  · -- Nothing was left out.
    have heq : ks.toFinset = S := by
      ext k
      rw [List.mem_toFinset]
      exact h.mem_iff hcard k
    rwa [heq] at h'
  · have hlen : ks.length = K := h.length.trans (min_eq_left hcard.le)
    have hks : K ≤ (ks.toFinset ∪ A).card := by
      rw [← hlen, ← List.toFinset_card_of_nodup h.nodup]
      exact Finset.card_le_card Finset.subset_union_left
    have hlen' : ks'.length = K := h'.length.trans (min_eq_left hks)
    refine ⟨h'.sorted, fun k hk => ?_, ?_, ?_⟩
    · exact Finset.union_subset_union_left hsub (h'.subset k hk)
    · rw [hlen', min_eq_left]
      exact hcard.le.trans (Finset.card_le_card Finset.subset_union_left)
    · intro k hk hout k' hk'
      by_cases hmem : k ∈ ks.toFinset ∪ A
      · exact h'.closest k hmem hout k' hk'
      · -- `k` was cut off before, when all of `ks` was closer.
        rw [Finset.mem_union, not_or, List.mem_toFinset] at hmem
        have hkS : k ∈ S := (Finset.mem_union.1 hk).resolve_right hmem.2
        by_cases hold : k' ∈ ks
        · exact h.closest k hkS hmem.1 k' hold
        · obtain ⟨z, hz, hzout⟩ : ∃ z ∈ ks, z ∉ ks' := by
            by_contra hall
            push Not at hall
            have hsub' : k' :: ks ⊆ ks' := List.cons_subset.2 ⟨hk', hall⟩
            have hnodup : (k' :: ks).Nodup := List.nodup_cons.2 ⟨hold, h.nodup⟩
            have := (hnodup.subperm hsub').length_le
            rw [List.length_cons] at this
            omega
          have hzA : z ∈ ks.toFinset ∪ A := Finset.mem_union_left A (List.mem_toFinset.2 hz)
          calc dist k' < dist z := h'.closest z hzA hzout k' hk'
            _ < dist k := h.closest k hkS hmem.1 z hz

/-- Where `T` stands for `S`, the nearest of `T` are the nearest of `S`. -/
theorem Suffices.isNearest {dist : κ → δ} {K : ℕ} {T S : Finset κ} {ks : List κ}
    (h : Suffices dist K T S) (hk : IsNearest dist K T ks) : IsNearest dist K S ks := by
  simpa using h ∅ ks (by simpa using hk)

end Distft.Nearest
