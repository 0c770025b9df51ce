import Mathlib.Data.Nat.Bitwise
import Mathlib.Order.Lattice

/-!
# The XOR metric on bit vectors

The distance of two `w`-bit vectors is the unsigned value of their exclusive or. Two facts about it
carry everything that is built on it. It is decided from the top bit down, so two vectors that
agree above bit `i` are told apart by bit `i` alone (`xor_lt_xor_of_split`). And `k ^^^ ·` is
injective, so the distance to a fixed `k` orders any set of vectors strictly and totally.

`ltFrom` and `geFrom` are the loops that compare two vectors bit by bit from the top, with the two
early exits; `ltFrom_eq` and `geFrom_eq` say that they compute the unsigned comparison. A comparator
of records by such a distance orders them strictly and totally, up to what the distance depends on
(`StrictlyOrders`).
-/

namespace Distft.XorOrder

variable {w : ℕ}

/-- A bit vector below another at bit `i`, with the same bits above `i`, is below it. -/
theorem lt_of_getLsbD {a b : BitVec w} (i : ℕ) (ha : a.getLsbD i = false)
    (hb : b.getLsbD i = true) (habove : ∀ j, i < j → a.getLsbD j = b.getLsbD j) : a < b :=
  Nat.lt_of_testBit i ha hb fun j hj => habove j hj

/-- Where `p` and `q` agree above bit `i`, and `p` has the bit of `k` there and `q` does not, `p` is
strictly closer to `k`. -/
theorem xor_lt_xor_of_split {k p q : BitVec w} (i : ℕ) (hi : i < w)
    (habove : ∀ j, i < j → p.getLsbD j = q.getLsbD j) (hp : p.getLsbD i = k.getLsbD i)
    (hq : q.getLsbD i ≠ k.getLsbD i) : k ^^^ p < k ^^^ q := by
  apply lt_of_getLsbD i
  · simp [BitVec.getLsbD_xor, hp]
  · rw [BitVec.getLsbD_xor]
    cases hk : k.getLsbD i <;> cases hb : q.getLsbD i <;> simp_all
  · intro j hj
    rw [BitVec.getLsbD_xor, BitVec.getLsbD_xor, habove j hj]

/-- The comparison of the low `i` bits of two vectors, by a loop from bit `i - 1` down that stops at
the first bit where they differ, and is `false` when there is none. -/
def ltFrom (a b : BitVec w) : ℕ → Bool
  | 0 => false
  | i + 1 =>
    if a.getLsbD i && !b.getLsbD i then false
    else if !a.getLsbD i && b.getLsbD i then true
    else ltFrom a b i

/-- The opposite loop: `true` at a bit that only `a` has, `false` at a bit that only `b` has, and
`true` when the vectors do not differ. -/
def geFrom (a b : BitVec w) : ℕ → Bool
  | 0 => true
  | i + 1 =>
    if a.getLsbD i && !b.getLsbD i then true
    else if !a.getLsbD i && b.getLsbD i then false
    else geFrom a b i

/-- The low `i + 1` bits of a vector are its low `i` bits and bit `i`. -/
theorem toNat_mod_succ (a : BitVec w) (i : ℕ) :
    a.toNat % 2^(i + 1) = a.toNat % 2^i + 2^i * (a.getLsbD i).toNat := by
  rw [Nat.mod_pow_succ, ← Nat.toNat_testBit, BitVec.testBit_toNat]

/-- The loop compares the low bits as unsigned numbers. -/
theorem ltFrom_iff (a b : BitVec w) (i : ℕ) :
    ltFrom a b i = true ↔ a.toNat % 2^i < b.toNat % 2^i := by
  induction i with
  | zero => simp [ltFrom, Nat.mod_one]
  | succ i ih =>
    have hla := Nat.mod_lt a.toNat (Nat.two_pow_pos i)
    have hlb := Nat.mod_lt b.toNat (Nat.two_pow_pos i)
    rw [toNat_mod_succ, toNat_mod_succ, ltFrom]
    cases a.getLsbD i <;> cases b.getLsbD i <;> simp [ih] <;> omega

/-- The opposite loop is the negation. -/
theorem geFrom_eq_not (a b : BitVec w) (i : ℕ) : geFrom a b i = !ltFrom a b i := by
  induction i with
  | zero => rfl
  | succ i ih =>
    simp only [geFrom, ltFrom, ih]
    split_ifs <;> rfl

/-- Over all the bits the loop is the unsigned comparison. -/
theorem ltFrom_eq (a b : BitVec w) : ltFrom a b w = decide (a < b) := by
  rw [Bool.eq_iff_iff, ltFrom_iff, decide_eq_true_eq, Nat.mod_eq_of_lt a.isLt,
    Nat.mod_eq_of_lt b.isLt, BitVec.lt_def]

/-- Over all the bits the opposite loop is the unsigned comparison the other way. -/
theorem geFrom_eq (a b : BitVec w) : geFrom a b w = decide (b ≤ a) := by
  rw [geFrom_eq_not, ltFrom_eq, ← decide_not, decide_eq_decide, BitVec.not_lt]

/-- The distance to `k` tells vectors apart. -/
theorem xor_injective (k : BitVec w) : Function.Injective (k ^^^ ·) :=
  fun _ _ h => (BitVec.xor_right_inj k).1 h

/-! ## Comparators -/

/-- A comparison is a strict total order of what `f` shows of its arguments. -/
structure StrictlyOrders {α β : Type*} (cmp : α → α → Bool) (f : α → β) : Prop where
  /-- Nothing is before what looks the same. -/
  irrefl : ∀ a b, f a = f b → cmp a b = false
  /-- What is before something is before all that this is before. -/
  trans : ∀ a b c, cmp a b = true → cmp b c = true → cmp a c = true
  /-- Of two things that do not look the same, one is before the other. -/
  total : ∀ a b, f a ≠ f b → cmp a b = true ∨ cmp b a = true

/-- A comparison by a measure that tells apart what `f` shows. -/
theorem strictlyOrders_of_lt {α β δ : Type*} [LinearOrder δ] {cmp : α → α → Bool} {f : α → β}
    (dist : β → δ) (hdist : Function.Injective dist)
    (hcmp : ∀ a b, cmp a b = true ↔ dist (f a) < dist (f b)) : StrictlyOrders cmp f where
  irrefl a b hab := by
    rw [← Bool.not_eq_true, hcmp, hab]
    exact lt_irrefl _
  trans a b c hab hbc := by
    rw [hcmp] at hab hbc ⊢
    exact hab.trans hbc
  total a b hab := by
    rw [hcmp, hcmp]
    exact lt_or_gt_of_ne fun heq => hab (hdist heq)

end Distft.XorOrder
