import Mathlib.Data.List.Basic

/-!
# Terminated records

A list of records in one sequence, each ended by a terminator that no record contains.
-/

namespace Distft.Records

variable {α : Type*}

/-- The records, each followed by the terminator. -/
def encode (z : α) (records : List (List α)) : List α := records.flatMap fun r => r ++ [z]

@[simp]
theorem encode_nil (z : α) : encode z [] = [] := rfl

@[simp]
theorem encode_cons (z : α) (r : List α) (records : List (List α)) :
    encode z (r :: records) = r ++ z :: encode z records := by
  simp [encode]

@[simp]
theorem encode_append (z : α) (records records' : List (List α)) :
    encode z (records ++ records') = encode z records ++ encode z records' :=
  List.flatMap_append

/-- More records take more room. -/
theorem length_encode_le (z : α) {records records' : List (List α)} (h : records <+: records') :
    (encode z records).length ≤ (encode z records').length := by
  obtain ⟨rest, rfl⟩ := h
  rw [encode_append, List.length_append]
  exact Nat.le_add_right _ _

/-- Records of one length. -/
theorem length_encode (z : α) {m : ℕ} {records : List (List α)} (h : ∀ r ∈ records, r.length = m) :
    (encode z records).length = (m + 1) * records.length := by
  induction records with
  | nil => rfl
  | cons r records ih =>
    have hr := h r List.mem_cons_self
    have hrest := ih fun r' hr' => h r' (List.mem_cons_of_mem _ hr')
    rw [encode_cons, List.length_append, List.length_cons, hr, hrest, List.length_cons, Nat.mul_succ]
    omega

variable [DecidableEq α]

/-- The records that are ended in a sequence, where `current` is what the first of them begins with;
what follows the last terminator is dropped. -/
def decode (z : α) : List α → List α → List (List α)
  | _, [] => []
  | current, c :: rest =>
    if c = z then current :: decode z [] rest else decode z (current ++ [c]) rest

/-- A record runs up to the first terminator. -/
theorem decode_append_cons (z : α) (current r rest : List α) (hr : z ∉ r) :
    decode z current (r ++ z :: rest) = (current ++ r) :: decode z [] rest := by
  induction r generalizing current with
  | nil => simp [decode]
  | cons c r ih =>
    have hc : c ≠ z := fun h => hr (h ▸ List.mem_cons_self)
    have hr' : z ∉ r := fun h => hr (List.mem_cons_of_mem _ h)
    rw [List.cons_append, decode, if_neg hc, ih _ hr', List.append_assoc, List.singleton_append]

/-- The records of an encoding are read back, whatever follows it. -/
theorem decode_encode_append (z : α) (records : List (List α)) (rest : List α)
    (h : ∀ r ∈ records, z ∉ r) :
    decode z [] (encode z records ++ rest) = records ++ decode z [] rest := by
  induction records with
  | nil => rfl
  | cons r records ih =>
    rw [encode_cons, List.append_assoc, List.cons_append,
      decode_append_cons z [] r _ (h r List.mem_cons_self),
      ih fun r' hr' => h r' (List.mem_cons_of_mem _ hr')]
    rfl

/-- The records of an encoding are read back. -/
theorem decode_encode (z : α) (records : List (List α)) (h : ∀ r ∈ records, z ∉ r) :
    decode z [] (encode z records) = records := by
  have hdecode := decode_encode_append z records [] h
  simpa [decode] using hdecode

/-- What follows the last terminator of a sequence, with `current` before it where there is none. -/
def unterminated (z : α) : List α → List α → List α
  | current, [] => current
  | current, c :: rest =>
    if c = z then unterminated z [] rest else unterminated z (current ++ [c]) rest

/-- Records of which the first continues what was there. -/
def continued (current : List α) : List (List α) → List (List α)
  | [] => []
  | r :: records => (current ++ r) :: records

/-- What is appended is read from where the sequence ended. -/
theorem decode_append (z : α) (current l l' : List α) :
    decode z current (l ++ l') = decode z current l ++ decode z (unterminated z current l) l' := by
  induction l generalizing current with
  | nil => rfl
  | cons c l ih =>
    rw [List.cons_append, decode, decode, unterminated]
    split_ifs <;> simp [ih]

/-- An encoding that is read from where a sequence ended. -/
theorem decode_encode_continued (z : α) (current : List α) (records : List (List α))
    (h : ∀ r ∈ records, z ∉ r) :
    decode z current (encode z records) = continued current records := by
  cases records with
  | nil => rfl
  | cons r records =>
    rw [encode_cons, decode_append_cons z current r _ (h r List.mem_cons_self),
      decode_encode z records fun r' hr' => h r' (List.mem_cons_of_mem _ hr')]
    rfl

/-- The records of a sequence and what follows them make up the sequence. -/
theorem encode_decode (z : α) (current l : List α) :
    encode z (decode z current l) ++ unterminated z current l = current ++ l := by
  induction l generalizing current with
  | nil => simp [decode, unterminated]
  | cons c l ih =>
    rw [decode, unterminated]
    split_ifs with hc
    · rw [encode_cons, List.append_assoc, List.cons_append, ih, List.nil_append, hc]
    · rw [ih, List.append_assoc, List.singleton_append]

/-- A sequence is the encoding of its records if nothing follows them. -/
theorem encode_decode_eq_iff (z : α) (l : List α) :
    encode z (decode z [] l) = l ↔ unterminated z [] l = [] := by
  have hsplit := encode_decode z [] l
  rw [List.nil_append] at hsplit
  constructor
  · intro heq
    rwa [heq, List.append_right_eq_self] at hsplit
  · intro hrest
    rwa [hrest, List.append_nil] at hsplit

/-- No record that is read contains the terminator. -/
theorem notMem_of_mem_decode {z : α} {current l r : List α} (hcurrent : z ∉ current)
    (hr : r ∈ decode z current l) : z ∉ r := by
  induction l generalizing current with
  | nil => exact absurd hr List.not_mem_nil
  | cons c l ih =>
    rw [decode] at hr
    split_ifs at hr with hc
    · rcases List.mem_cons.1 hr with rfl | hr
      · exact hcurrent
      · exact ih List.not_mem_nil hr
    · exact ih (by simpa [hcurrent] using Ne.symm hc) hr

end Distft.Records
