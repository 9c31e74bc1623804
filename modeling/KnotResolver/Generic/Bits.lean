import KnotResolver.Lex

/-!
# Bit strings, most significant bit first

`natBits w n` lists the `w` low bits of `n` from the most significant down, and `bytesBits` the
bits of a byte string, byte after byte. Below `2^w` the bits are an order embedding. The
lexicographic order of bit lists, `false` before `true`, is the order of the numbers
(`compareLex_natBits`). The first `k` of the `w` bits are the bits of `n / 2^(w - k)`
(`take_natBits`). So on byte strings of equal length, `memcmp` is the comparison of their bit
strings (`compareLex_bytesBits`). A prefix of a bit string is a prefix of whole bytes, followed by
the first bits of the next byte (`take_bytesBits`).
-/

namespace KnotResolver.Generic

/-! ## Comparing numbers -/

theorem Nat.compare_eq_of_iff {a b c d : Nat} (hlt : a < b ↔ c < d) (heq : a = b ↔ c = d) :
    compare a b = compare c d := by
  rcases Nat.lt_trichotomy a b with h | h | h
  · rw [Nat.compare_eq_lt.2 h, Nat.compare_eq_lt.2 (hlt.1 h)]
  · rw [Nat.compare_eq_eq.2 h, Nat.compare_eq_eq.2 (heq.1 h)]
  · have hcd : d < c := by
      have h1 : ¬c < d := fun h' => absurd (hlt.2 h') (by omega)
      have h2 : c ≠ d := fun h' => absurd (heq.2 h') (by omega)
      omega
    rw [Nat.compare_eq_gt.2 h, Nat.compare_eq_gt.2 hcd]

/-- A byte compares as its value. -/
theorem UInt8.compare_eq_compare_toNat (x y : UInt8) : compare x y = compare x.toNat y.toNat := by
  rcases Nat.lt_trichotomy x.toNat y.toNat with h | h | h
  · rw [Nat.compare_eq_lt.2 h, Std.compare_eq_lt]
    exact UInt8.lt_iff_toNat_lt.2 h
  · rw [Nat.compare_eq_eq.2 h, UInt8.toNat_inj.1 h]
    exact Std.ReflCmp.compare_self
  · rw [Nat.compare_eq_gt.2 h, Std.compare_eq_gt]
    exact UInt8.lt_iff_toNat_lt.2 h

/-! ## The bits of a number -/

/-- The `w` low bits of `n`, most significant first. -/
def natBits : Nat → Nat → List Bool
  | 0, _ => []
  | w + 1, n => n.testBit w :: natBits w n

@[simp] theorem length_natBits (w n : Nat) : (natBits w n).length = w := by
  induction w with
  | zero => rfl
  | succ w ih => rw [natBits, List.length_cons, ih]

/-- Only the `w` low bits count. -/
theorem natBits_mod_two_pow (w n : Nat) : natBits w (n % 2 ^ w) = natBits w n := by
  -- every bit listed lies below `w`, where `n % 2^w` has the bits of `n`
  suffices h : ∀ k ≤ w, natBits k (n % 2 ^ w) = natBits k n from h w (Nat.le_refl w)
  intro k hk
  induction k with
  | zero => rfl
  | succ k ih =>
    rw [natBits, natBits, Nat.testBit_mod_two_pow, decide_eq_true (by omega : k < w),
      Bool.true_and, ih (by omega)]

/-- The top bit of a number below `2^(w+1)` says whether it reaches `2^w`. -/
theorem testBit_eq_decide_le {w n : Nat} (hn : n < 2 ^ (w + 1)) :
    n.testBit w = decide (2 ^ w ≤ n) := by
  have hpos : 0 < 2 ^ w := Nat.two_pow_pos w
  rw [Nat.pow_succ] at hn
  have hq : n / 2 ^ w < 2 := (Nat.div_lt_iff_lt_mul hpos).2 (by omega)
  have hq1 : 1 ≤ n / 2 ^ w ↔ 2 ^ w ≤ n := by rw [Nat.le_div_iff_mul_le hpos, Nat.one_mul]
  rw [Nat.testBit_eq_decide_div_mod_eq, Nat.mod_eq_of_lt hq]
  exact decide_eq_decide.2 (by omega)

/-- Numbers below `2^(w+1)` compare by their top bit, then by the bits below it. -/
theorem compare_eq_testBit_then {w n m : Nat} (hn : n < 2 ^ (w + 1)) (hm : m < 2 ^ (w + 1)) :
    compare n m =
      (compare (n.testBit w) (m.testBit w)).then (compare (n % 2 ^ w) (m % 2 ^ w)) := by
  rw [testBit_eq_decide_le hn, testBit_eq_decide_le hm]
  rw [Nat.pow_succ] at hn hm
  by_cases hn' : 2 ^ w ≤ n <;> by_cases hm' : 2 ^ w ≤ m
  · -- both reach `2^w`: the rest decides
    rw [decide_eq_true hn', decide_eq_true hm', Nat.mod_eq_sub_mod hn', Nat.mod_eq_sub_mod hm',
      Nat.mod_eq_of_lt (by omega), Nat.mod_eq_of_lt (by omega)]
    exact Nat.compare_eq_of_iff (by omega) (by omega)
  · rw [decide_eq_true hn', decide_eq_false hm', Nat.compare_eq_gt.2 (by omega)]
    rfl
  · rw [decide_eq_false hn', decide_eq_true hm', Nat.compare_eq_lt.2 (by omega)]
    rfl
  · rw [decide_eq_false hn', decide_eq_false hm', Nat.mod_eq_of_lt (by omega),
      Nat.mod_eq_of_lt (by omega)]
    rfl

/-- Below `2^w`, bit strings compare as the numbers. -/
theorem compareLex_natBits :
    ∀ {w n m : Nat}, n < 2 ^ w → m < 2 ^ w →
      (natBits w n).compareLex compare (natBits w m) = compare n m
  | 0, n, m, hn, hm => by
    obtain rfl : n = 0 := by simpa using hn
    obtain rfl : m = 0 := by simpa using hm
    rfl
  | w + 1, n, m, hn, hm => by
    have hpos : 0 < 2 ^ w := Nat.two_pow_pos w
    rw [natBits, natBits, List.compareLex_cons_cons, ← natBits_mod_two_pow w n,
      ← natBits_mod_two_pow w m,
      compareLex_natBits (Nat.mod_lt n hpos) (Nat.mod_lt m hpos), compare_eq_testBit_then hn hm]

/-- The first `k` of the `w` bits of `n` are the bits of `n / 2^(w - k)`. -/
theorem take_natBits (n : Nat) :
    ∀ {k w : Nat}, k ≤ w → (natBits w n).take k = natBits k (n / 2 ^ (w - k))
  | 0, _, _ => rfl
  | _ + 1, 0, hk => absurd hk (by omega)
  | k + 1, w + 1, hk => by
    rw [natBits, natBits, List.take_succ_cons, take_natBits n (by omega : k ≤ w),
      Nat.testBit_div_two_pow, show w + 1 - (k + 1) = w - k by omega,
      show k + (w - k) = w by omega]

/-! ## The bits of a byte string -/

/-- The eight bits of a byte, most significant first. -/
def byteBits (x : UInt8) : List Bool := natBits 8 x.toNat

/-- The bits of a byte string, byte after byte. -/
def bytesBits (s : List UInt8) : List Bool := s.flatMap byteBits

@[simp] theorem length_byteBits (x : UInt8) : (byteBits x).length = 8 := length_natBits 8 _

theorem compareLex_byteBits (x y : UInt8) :
    (byteBits x).compareLex compare (byteBits y) = compare x y := by
  rw [UInt8.compare_eq_compare_toNat]
  exact compareLex_natBits x.toNat_lt y.toNat_lt

/-- On byte strings of equal length, the bit strings compare as the byte strings. -/
theorem compareLex_bytesBits {a b : List UInt8} (h : a.length = b.length) :
    (bytesBits a).compareLex compare (bytesBits b) = a.compareLex compare b :=
  List.compareLex_flatMap length_byteBits compareLex_byteBits h

theorem length_bytesBits (s : List UInt8) : (bytesBits s).length = 8 * s.length := by
  induction s with
  | nil => rfl
  | cons x s ih =>
    rw [bytesBits, List.flatMap_cons, List.length_append, length_byteBits, ← bytesBits, ih,
      List.length_cons]
    omega

/-- The first `8 k + r` bits, `r ≤ 8`: the bits of the first `k` bytes, then the first `r` bits of
the byte after them, if there is one. -/
theorem take_bytesBits {r : Nat} (hr : r ≤ 8) :
    ∀ (k : Nat) (s : List UInt8), (bytesBits s).take (8 * k + r) =
      bytesBits (s.take k) ++ (((s.drop k).head?.map byteBits).getD []).take r
  | _, [] => by simp [bytesBits]
  | 0, x :: s => by
    rw [Nat.mul_zero, Nat.zero_add, bytesBits, List.flatMap_cons,
      List.take_append_of_le_length (by rw [length_byteBits]; exact hr)]
    rfl
  | k + 1, x :: s => by
    rw [bytesBits, List.flatMap_cons, show 8 * (k + 1) + r = (byteBits x).length + (8 * k + r) by
      rw [length_byteBits]; omega, List.take_length_add_append, ← bytesBits, take_bytesBits hr k s]
    rfl

end KnotResolver.Generic
