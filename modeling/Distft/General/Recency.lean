import Mathlib.Data.List.Basic

/-!
# Lists in the order of last use

A history says for every step which key the step used, if any. `lastUse history key` is the number of
the last step that used the key, counting from 1, and 0 for a key that was never used. A list of keys
is `MostRecentFirst` when every key of it was used and every key was last used after those behind it.

Moving the used key to the front keeps a list in this order (`MostRecentFirst.use`), as does taking
keys out of it (`MostRecentFirst.sublist`) and a step that uses no key of the list
(`MostRecentFirst.append`). The last key of such a list is the one that was used longest ago
(`MostRecentFirst.lt_of_getLast?`).
-/

namespace Distft.Recency

variable {κ : Type*} [DecidableEq κ]

/-- The number of the last step that used the key, 0 if there is none. -/
def lastUse (history : List (Option κ)) (key : κ) : ℕ :=
  history.length - history.reverse.idxOf (some key)

/-- Every key was used, and after the keys behind it. -/
structure MostRecentFirst (history : List (Option κ)) (keys : List κ) : Prop where
  /-- Every key was used. -/
  used : ∀ key ∈ keys, 0 < lastUse history key
  /-- A key was last used after the keys behind it. -/
  order : keys.Pairwise fun key key' => lastUse history key' < lastUse history key

/-- No step has a number above the length of the history. -/
theorem lastUse_le (history : List (Option κ)) (key : κ) : lastUse history key ≤ history.length :=
  Nat.sub_le _ _

/-- A step that uses the key is its last use. -/
theorem lastUse_append_self (history : List (Option κ)) (key : κ) :
    lastUse (history ++ [some key]) key = history.length + 1 := by
  simp [lastUse]

/-- Another step is not. -/
theorem lastUse_append_of_ne (history : List (Option κ)) {key : κ} {step : Option κ}
    (h : step ≠ some key) : lastUse (history ++ [step]) key = lastUse history key := by
  rw [lastUse, lastUse, List.reverse_concat, List.idxOf_cons_ne _ h, List.length_append,
    List.length_singleton, Nat.add_sub_add_right]

variable {history : List (Option κ)} {keys : List κ}

/-- Taking keys out keeps the order. -/
theorem MostRecentFirst.sublist (h : MostRecentFirst history keys) {keys' : List κ}
    (hsub : keys'.Sublist keys) : MostRecentFirst history keys' where
  used key hkey := h.used key (hsub.subset hkey)
  order := h.order.sublist hsub

/-- A step that uses no key of the list keeps the order. -/
theorem MostRecentFirst.append (h : MostRecentFirst history keys) {step : Option κ}
    (hstep : ∀ key ∈ keys, step ≠ some key) : MostRecentFirst (history ++ [step]) keys where
  used key hkey := by
    rw [lastUse_append_of_ne history (hstep key hkey)]
    exact h.used key hkey
  order := by
    refine h.order.imp_of_mem fun {key key'} hkey hkey' hlt => ?_
    rwa [lastUse_append_of_ne history (hstep key hkey),
      lastUse_append_of_ne history (hstep key' hkey')]

/-- The used key goes to the front. -/
theorem MostRecentFirst.use (h : MostRecentFirst history keys) {key : κ} (hnew : key ∉ keys) :
    MostRecentFirst (history ++ [some key]) (key :: keys) := by
  have hother : ∀ key' ∈ keys, some key ≠ some key' := by
    rintro key' hkey' heq
    exact hnew (Option.some.inj heq ▸ hkey')
  obtain ⟨hused, horder⟩ := h.append hother
  constructor
  · exact List.forall_mem_cons.2 ⟨by simp [lastUse_append_self], hused⟩
  · refine List.pairwise_cons.2 ⟨fun key' hkey' => ?_, horder⟩
    rw [lastUse_append_self, lastUse_append_of_ne history (hother key' hkey')]
    exact Nat.lt_succ_of_le (lastUse_le history key')

/-- No key is repeated. -/
theorem MostRecentFirst.nodup (h : MostRecentFirst history keys) : keys.Nodup := by
  refine h.order.imp fun {key key'} hlt => ?_
  rintro rfl
  exact Nat.lt_irrefl _ hlt

/-- The last key was used before every other key. -/
theorem MostRecentFirst.lt_of_getLast? (h : MostRecentFirst history keys) {key key' : κ}
    (hlast : keys.getLast? = some key) (hkey' : key' ∈ keys) (hne : key' ≠ key) :
    lastUse history key < lastUse history key' := by
  obtain ⟨front, rfl⟩ := List.getLast?_eq_some_iff.1 hlast
  obtain ⟨-, -, hbefore⟩ := List.pairwise_append.1 h.order
  have hfront : key' ∈ front := by simpa [hne] using hkey'
  exact hbefore key' hfront key (List.mem_singleton_self key)

end Distft.Recency
