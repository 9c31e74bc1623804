import KnotResolver.Generic.Bits
import KnotResolver.Rrset

/-!
# Comparing bit prefixes (`kr_bitcmp` of `lib/utils.c`)

`kr_bitcmp(a, b, bits)` compares the first `bits` bits of two byte strings, most significant bit
first, in the way `memcmp` compares bytes. The `view` module uses it to match client addresses
against subnets. It compares the whole bytes with `memcmp`. Then it compares the top bits of the
next byte by shifting both bytes right and subtracting.

The bytes are read through `char`, which may be signed. A byte of 128 or more is then negative,
and an arithmetic shift keeps its sign bits. Cast back to `uint8_t`, such a shifted byte lands
above every shifted byte below 128. So the subtraction still orders the top bits as unsigned
numbers (`compare_charShr`). Whether `char` is signed or not, the sign of the result is the
lexicographic comparison of the two bit prefixes (`krBitcmp_sign`).
-/

namespace KnotResolver

open Generic

/-- The `int` a `memcmp` returns. Only its sign is specified. -/
def memcmpInt : Ordering → Int
  | .lt => -1
  | .eq => 0
  | .gt => 1

/-- `(uint8_t)(*p >> shift)` for the byte `c` at `p`. The byte is read as a `char`, signed or not,
promoted to `int`, shifted arithmetically, and cast back. -/
def charShr (signedChar : Bool) (c : UInt8) (shift : Nat) : Nat :=
  let v : Int := if signedChar ∧ 128 ≤ c.toNat then c.toNat - 256 else c.toNat
  ((v >>> shift) % 256).toNat

/-- `kr_bitcmp`. A missing string is a NULL pointer, and `none` means the function reads past the
end of a string. -/
def krBitcmp (signedChar : Bool) (a b : Option (List UInt8)) (bits : Int) : Option Int :=
  if bits ≤ 0 ∨ (a.isNone ∧ b.isNone) then some 0
  else
    match a, b with
    | none, _ => some (-1)
    | _, none => some 1
    | some a, some b =>
      -- the whole bytes
      let chunk := bits.toNat / 8
      if a.length < chunk ∨ b.length < chunk then none
      else
        let ret := memcmpInt (memcmp a b chunk)
        if ret ≠ 0 then some ret
        else
          let bits := bits.toNat - chunk * 8
          -- the partial byte after them
          if bits > 0 then
            let shift := 8 - bits
            match a[chunk]?, b[chunk]? with
            | some x, some y => some ((charShr signedChar x shift : Int) - charShr signedChar y shift)
            | _, _ => none
          else some ret

@[simp] theorem compare_memcmpInt (o : Ordering) : compare (memcmpInt o) 0 = o := by
  cases o <;> rfl

/-- A shifted byte from a signed `char` of 128 or more wraps to the top of the byte range. -/
theorem charShr_eq (signedChar : Bool) (c : UInt8) {s : Nat} (h1 : 1 ≤ s) (h7 : s ≤ 7) :
    charShr signedChar c s =
      if signedChar ∧ 128 ≤ c.toNat then c.toNat / 2 ^ s + 256 - 2 ^ (8 - s)
      else c.toNat / 2 ^ s := by
  unfold charShr
  dsimp only
  rw [Int.shiftRight_eq_div_pow]
  have hc := c.toNat_lt
  -- for each shift, the division and the wrap are linear
  split_ifs <;> interval_cases s <;> omega

/-- Shifted and cast back, two bytes compare as their top bits, whether `char` is signed or
not. -/
theorem compare_charShr (signedChar : Bool) (x y : UInt8) {s : Nat} (h1 : 1 ≤ s) (h7 : s ≤ 7) :
    compare (charShr signedChar x s) (charShr signedChar y s) =
      compare (x.toNat / 2 ^ s) (y.toNat / 2 ^ s) := by
  rw [charShr_eq signedChar x h1 h7, charShr_eq signedChar y h1 h7]
  have hx := x.toNat_lt
  have hy := y.toNat_lt
  cases signedChar with
  | false => rw [if_neg (by simp), if_neg (by simp)]
  | true =>
    -- the bytes of 128 or more move up together, above all others, keeping their order
    simp only [true_and]
    apply Generic.Nat.compare_eq_of_iff <;> split_ifs <;> interval_cases s <;> omega

theorem compare_sub_natCast (m n : Nat) : compare ((m : Int) - n) 0 = compare m n := by
  rcases Nat.lt_trichotomy m n with h | rfl | h
  · rw [Nat.compare_eq_lt.2 h, Std.compare_eq_lt]
    omega
  · rw [Int.sub_self, Nat.compare_eq_eq.2 rfl]
    rfl
  · rw [Nat.compare_eq_gt.2 h, Std.compare_eq_gt]
    omega

/-- The top `r` bits of a byte, compared, are the first `r` of its eight bits. -/
theorem compare_div_eq_compareLex_take (x y : UInt8) {r : Nat} (hr : r ≤ 8) :
    compare (x.toNat / 2 ^ (8 - r)) (y.toNat / 2 ^ (8 - r)) =
      ((byteBits x).take r).compareLex compare ((byteBits y).take r) := by
  have hlt : ∀ z : UInt8, z.toNat / 2 ^ (8 - r) < 2 ^ r := fun z => by
    rw [Nat.div_lt_iff_lt_mul (Nat.two_pow_pos _), ← Nat.pow_add, Nat.add_sub_cancel' hr]
    exact z.toNat_lt
  rw [byteBits, byteBits, take_natBits _ hr, take_natBits _ hr, compareLex_natBits (hlt x) (hlt y)]

/-- Comparing the first `bits` bits: the whole bytes by `memcmp`, then the partial byte. -/
theorem compareLex_take_bytesBits {a b : List UInt8} {k r : Nat} (hr : r ≤ 8) (ha : k ≤ a.length)
    (hb : k ≤ b.length) :
    ((bytesBits a).take (8 * k + r)).compareLex compare ((bytesBits b).take (8 * k + r)) =
      (memcmp a b k).then
        (((((a.drop k).head?.map byteBits).getD []).take r).compareLex compare
          ((((b.drop k).head?.map byteBits).getD []).take r)) := by
  have hlen : (bytesBits (a.take k)).length = (bytesBits (b.take k)).length := by
    rw [length_bytesBits, length_bytesBits, List.length_take, List.length_take,
      Nat.min_eq_left ha, Nat.min_eq_left hb]
  rw [take_bytesBits hr, take_bytesBits hr, List.compareLex_append_of_length_eq _ _ hlen,
    compareLex_bytesBits (by rw [List.length_take, List.length_take, Nat.min_eq_left ha,
      Nat.min_eq_left hb]), memcmp]

/-- The sign of `kr_bitcmp` over strings of at least `⌈bits / 8⌉` bytes is the lexicographic
comparison of their first `bits` bits, most significant first, whether `char` is signed or
not. -/
theorem krBitcmp_sign (signedChar : Bool) (a b : List UInt8) (bits : Nat)
    (ha : (bits + 7) / 8 ≤ a.length) (hb : (bits + 7) / 8 ≤ b.length) :
    ∃ r, krBitcmp signedChar (some a) (some b) bits = some r ∧
      compare r 0 = ((bytesBits a).take bits).compareLex compare ((bytesBits b).take bits) := by
  by_cases h0 : bits = 0
  · subst h0
    exact ⟨0, rfl, rfl⟩
  -- `bits` is `8 k + r`: `k` whole bytes and `r` bits of the next one
  have hbits : bits = 8 * (bits / 8) + bits % 8 := (Nat.div_add_mod bits 8).symm
  have hka : bits / 8 ≤ a.length := Nat.le_trans (by omega) ha
  have hkb : bits / 8 ≤ b.length := Nat.le_trans (by omega) hb
  have hspec := @compareLex_take_bytesBits a b (bits / 8) (bits % 8)
    (Nat.le_of_lt (Nat.mod_lt bits (by omega))) hka hkb
  rw [← hbits] at hspec
  rw [hspec]
  have hpos : ¬((bits : Int) ≤ 0 ∨ ((some a).isNone = true ∧ (some b).isNone = true)) := by
    simp only [Option.isNone_some, Bool.false_eq_true, false_and, or_false]
    omega
  unfold krBitcmp
  rw [if_neg hpos]
  dsimp only
  rw [Int.toNat_natCast, if_neg (by omega)]
  cases hm : memcmp a b (bits / 8) with
  | lt => exact ⟨_, rfl, rfl⟩
  | gt => exact ⟨_, rfl, rfl⟩
  | eq =>
    rw [if_neg (by decide), Ordering.eq_then]
    by_cases hr : bits % 8 = 0
    · -- no partial byte
      rw [if_neg (by omega), hr]
      exact ⟨_, rfl, rfl⟩
    · -- the partial byte exists in both strings
      rw [if_pos (by omega)]
      have hxa : bits / 8 < a.length := by omega
      have hxb : bits / 8 < b.length := by omega
      rw [List.getElem?_eq_getElem hxa, List.getElem?_eq_getElem hxb, List.head?_drop,
        List.head?_drop, List.getElem?_eq_getElem hxa, List.getElem?_eq_getElem hxb]
      refine ⟨_, rfl, ?_⟩
      rw [compare_sub_natCast, compare_charShr _ _ _ (by omega) (by omega),
        show bits - bits / 8 * 8 = bits % 8 by omega]
      exact compare_div_eq_compareLex_take _ _ (by omega)

/-- The twelve-bit prefixes of `10.1` and `10.200` compare below, also with a signed `char`, where
the byte 200 is negative. -/
theorem krBitcmp_sign_signed_char :
    (12 + 7) / 8 ≤ [10, 1].length ∧ (12 + 7) / 8 ≤ [10, 200].length ∧
      ∃ r, krBitcmp true (some [10, 1]) (some [10, 200]) 12 = some r ∧ compare r 0 = .lt := by
  obtain ⟨r, hr, hcmp⟩ := krBitcmp_sign true [10, 1] [10, 200] 12 (by decide) (by decide)
  exact ⟨by decide, by decide, r, hr, hcmp.trans (by decide)⟩

end KnotResolver
