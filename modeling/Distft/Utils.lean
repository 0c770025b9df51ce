import Mathlib.Data.List.Induction
import Mathlib.Tactic.Ring
import Distft.General.XorOrder

/-!
# Keys, distances, and peers

The types of `src/utils/utils.h`. A key is a `std::bitset<KEYBITS>`: `getLsbD i` is the bitset's
`operator[]`, and `toBytes` and `ofBytes` are its two conversions with strings, which the wire
format and the file metadata both use. `Dist` compares two XOR distances by its own loops, and
`Dist.lt_iff` and `Dist.ge_iff` identify them with the unsigned order.
-/

namespace Distft

/-- `std::string` and `std::vector<char>`: a sequence of bytes of any value. -/
abbrev Bytes : Type := List UInt8

/-- Strings are compared byte by byte. -/
instance instLawfulBEqBytes : LawfulBEq Bytes := inferInstanceAs (LawfulBEq (List UInt8))

/-- A time point of `std::chrono::system_clock`, in nanoseconds since its epoch. -/
abbrev Time : Type := ℤ

/-- What stops a run. -/
inductive Fault where
  /-- `std::invalid_argument`, of a string that is not one of bits. -/
  | invalidArgument
  /-- `std::out_of_range`, of `at`. -/
  | outOfRange
  /-- An access outside of a buffer. -/
  | outOfBounds
  /-- Arithmetic on signed integers that overflows. -/
  | overflow
  /-- A division by zero. -/
  | divisionByZero
  /-- A pointer that is null, or was never set, is followed. -/
  | badPointer
  /-- A loop goes on longer than the run was given. -/
  | diverges
  deriving DecidableEq, Repr

/-- `KEYBITS`. -/
abbrev keyBits : ℕ := 160

/-- A key of a chunk or of a peer. -/
abbrev Key : Type := BitVec keyBits

/-- Keys are compared bit by bit. -/
instance instLawfulBEqKey : LawfulBEq Key := inferInstanceAs (LawfulBEq (BitVec keyBits))

namespace Key

/-- The character of a bit in `std::bitset::to_string`. -/
def bitChar (b : Bool) : UInt8 := if b then 49 else 48

/-- `std::bitset::to_string`: one character for each bit, the highest bit first. -/
def toBytes (k : Key) : Bytes := (List.range keyBits).reverse.map fun i => bitChar (k.getLsbD i)

/-- The unsigned value of the bits that a string of `0` and `1` writes, the highest first. -/
def bitsValue (s : Bytes) : ℕ := s.foldl (fun v c => 2 * v + if c = 49 then 1 else 0) 0

/-- The constructor of `std::bitset` from a string: a character other than `0` and `1` is
`std::invalid_argument` (`none`), and characters past the first `KEYBITS` are not used. -/
def ofBytes (s : Bytes) : Option Key :=
  if s.all fun c => c = 48 || c = 49 then some (BitVec.ofNat keyBits (bitsValue (s.take keyBits)))
  else none

/-- A key prints as `KEYBITS` characters. -/
@[simp]
theorem toBytes_length (k : Key) : k.toBytes.length = keyBits := by simp [toBytes]

/-- Every character of a printed key is `0` or `1`. -/
theorem toBytes_binary (k : Key) : ∀ c ∈ k.toBytes, c = 48 ∨ c = 49 := by
  intro c hc
  obtain ⟨i, -, rfl⟩ := List.mem_map.1 hc
  unfold bitChar
  split_ifs <;> simp

/-- Reading the printed low `n` bits on top of the value `v` shifts `v` by `n` bits. -/
theorem foldl_bits (k : Key) (n v : ℕ) :
    ((List.range n).reverse.map fun i => bitChar (k.getLsbD i)).foldl
      (fun v c => 2 * v + if c = 49 then 1 else 0) v = v * 2^n + k.toNat % 2^n := by
  induction n generalizing v with
  | zero => simp [Nat.mod_one]
  | succ n ih =>
    have hbit : (if bitChar (k.getLsbD n) = 49 then 1 else 0) = (k.getLsbD n).toNat := by
      cases k.getLsbD n <;> rfl
    rw [List.range_succ, List.reverse_append, List.reverse_singleton, List.map_append,
      List.foldl_append, ih, XorOrder.toNat_mod_succ]
    simp only [List.map_cons, List.map_nil, List.foldl_cons, List.foldl_nil, hbit]
    ring

/-- A printed key reads back as itself. -/
@[simp]
theorem ofBytes_toBytes (k : Key) : ofBytes k.toBytes = some k := by
  have hall : (k.toBytes.all fun c => c = 48 || c = 49) = true := by
    simpa using k.toBytes_binary
  have hval : bitsValue k.toBytes = k.toNat := by
    rw [bitsValue, toBytes, foldl_bits, zero_mul, zero_add, Nat.mod_eq_of_lt k.isLt]
  rw [ofBytes, if_pos hall, List.take_of_length_le (by simp), hval, BitVec.ofNat_toNat,
    BitVec.setWidth_eq]

/-- The characters of a printed key. -/
def IsBinary (s : Bytes) : Prop := ∀ c ∈ s, c = 48 ∨ c = 49

/-- The bits of the value of a string write the string. -/
theorem map_bitsValue {s : Bytes} (hs : IsBinary s) :
    (List.range s.length).reverse.map (fun i => bitChar ((bitsValue s).testBit i)) = s := by
  induction s using List.reverseRecOn with
  | nil => rfl
  | append_singleton s c ih =>
    have hc : c = 48 ∨ c = 49 := hs c (by simp)
    have hvalue : bitsValue (s ++ [c]) = 2 * bitsValue s + (if c = 49 then 1 else 0) := by
      simp [bitsValue]
    have hlow : bitChar ((bitsValue (s ++ [c])).testBit 0) = c := by
      rw [hvalue]
      rcases hc with rfl | rfl <;> simp [bitChar]
    have hhigh : ∀ i, (bitsValue (s ++ [c])).testBit (i + 1) = (bitsValue s).testBit i := by
      intro i
      have hdiv : (2 * bitsValue s + (if c = 49 then 1 else 0)) / 2 = bitsValue s := by
        split_ifs <;> omega
      rw [hvalue, Nat.testBit_succ, hdiv]
    rw [List.length_append, List.length_singleton, List.range_succ_eq_map, List.reverse_cons,
      List.map_append, List.map_singleton, hlow, ← List.map_reverse, List.map_map]
    congr 1
    calc (List.range s.length).reverse.map
          ((fun i => bitChar ((bitsValue (s ++ [c])).testBit i)) ∘ Nat.succ)
        = (List.range s.length).reverse.map (fun i => bitChar ((bitsValue s).testBit i)) :=
          List.map_congr_left fun i _ => congrArg bitChar (hhigh i)
      _ = s := ih fun c' hc' => hs c' (List.mem_append_left _ hc')

/-- A string with another character is not read. -/
theorem ofBytes_eq_none_iff (s : Bytes) : ofBytes s = none ↔ ¬IsBinary s := by
  simp [ofBytes, IsBinary]

/-- A string of `0` and `1` is read. -/
theorem exists_ofBytes {s : Bytes} (hs : IsBinary s) : ∃ k, ofBytes s = some k :=
  Option.ne_none_iff_exists'.1 fun hnone => (ofBytes_eq_none_iff s).1 hnone hs

/-- A string of `KEYBITS` characters that reads as a key is the printed key. -/
theorem toBytes_of_ofBytes {s : Bytes} {k : Key} (hlen : s.length = keyBits)
    (hk : ofBytes s = some k) : k.toBytes = s := by
  have hs : IsBinary s := by
    by_contra hs
    exact absurd (((ofBytes_eq_none_iff s).2 hs).symm.trans hk) (Option.some_ne_none k).symm
  have hall : (s.all fun c => c = 48 || c = 49) = true := by simpa [IsBinary] using hs
  rw [ofBytes, if_pos hall, List.take_of_length_le hlen.le, Option.some.injEq] at hk
  have hbits := map_bitsValue hs
  rw [hlen] at hbits
  calc k.toBytes
      = (List.range keyBits).reverse.map (fun i => bitChar ((bitsValue s).testBit i)) := by
        apply List.map_congr_left
        intro i hi
        have hlt : i < keyBits := by simpa using hi
        rw [← hk, BitVec.getLsbD_ofNat, decide_eq_true hlt, Bool.true_and]
    _ = s := hbits

end Key

/-- `Dist`: a distance between two keys. -/
structure Dist where
  /-- The exclusive or of the keys. -/
  value : BitVec keyBits
  deriving DecidableEq, Repr

namespace Dist

/-- `Dist()`: the largest distance, with all bits set. -/
def max : Dist := ⟨BitVec.allOnes keyBits⟩

/-- `Dist(k1, k2)`. -/
def between (k1 k2 : Key) : Dist := ⟨k1 ^^^ k2⟩

/-- `Dist::operator<`. -/
def lt (a b : Dist) : Bool := XorOrder.ltFrom a.value b.value keyBits

/-- `Dist::operator>=`. -/
def ge (a b : Dist) : Bool := XorOrder.geFrom a.value b.value keyBits

/-- `operator<` is the order of the distances as unsigned numbers. -/
@[simp]
theorem lt_iff (a b : Dist) : a.lt b = true ↔ a.value < b.value := by
  rw [lt, XorOrder.ltFrom_eq, decide_eq_true_eq]

/-- `operator>=` is its negation. -/
@[simp]
theorem ge_iff (a b : Dist) : a.ge b = true ↔ b.value ≤ a.value := by
  rw [ge, XorOrder.geFrom_eq, decide_eq_true_eq]

end Dist

/-- `Peer`: a node's key and the endpoint that it serves. -/
structure Peer where
  /-- The node's key. -/
  key : Key
  /-- The node's endpoint. -/
  endpoint : Bytes
  deriving DecidableEq, Repr

/-- `StaticDistComparator`: whether `p1` is strictly closer to the key than `p2`. -/
def staticDistComparator (key : Key) (p1 p2 : Peer) : Bool :=
  (Dist.between key p1.key).lt (Dist.between key p2.key)

/-- The comparator compares the XOR distances. -/
theorem staticDistComparator_iff (key : Key) (p1 p2 : Peer) :
    staticDistComparator key p1 p2 = true ↔ key ^^^ p1.key < key ^^^ p2.key := by
  rw [staticDistComparator, Dist.lt_iff]
  rfl

/-- The distance to a key as a number tells keys apart. -/
theorem toNat_xor_injective (k : Key) : Function.Injective fun key : Key => (k ^^^ key).toNat :=
  fun _ _ h => XorOrder.xor_injective k (BitVec.eq_of_toNat_eq h)

/-- The two loops over the bits compare the XOR distances as unsigned numbers, each of them the
other's negation; so the comparator is a strict total order of the peers' keys, and `operator<` one
of the distances, as `std::sort`, `std::min`, and `std::max` require. -/
theorem distances_ordered :
    (∀ k a b : Key,
      ((Dist.between k a).lt (Dist.between k b) = true ↔ (k ^^^ a).toNat < (k ^^^ b).toNat) ∧
        ((Dist.between k a).ge (Dist.between k b) = true ↔ ¬(k ^^^ a).toNat < (k ^^^ b).toNat)) ∧
      (∀ k, XorOrder.StrictlyOrders (staticDistComparator k) Peer.key) ∧
      XorOrder.StrictlyOrders Dist.lt Dist.value := by
  refine ⟨fun k a b => ⟨?_, ?_⟩, fun k => ?_, ?_⟩
  · rw [Dist.lt_iff, BitVec.lt_def]
    rfl
  · rw [Dist.ge_iff, BitVec.le_def, not_lt]
    rfl
  · refine XorOrder.strictlyOrders_of_lt _ (toNat_xor_injective k) fun p q => ?_
    rw [staticDistComparator_iff, BitVec.lt_def]
  · refine XorOrder.strictlyOrders_of_lt BitVec.toNat (fun _ _ h => BitVec.eq_of_toNat_eq h)
      fun d d' => ?_
    rw [Dist.lt_iff, BitVec.lt_def]

end Distft
