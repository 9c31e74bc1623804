import Mathlib

/-!
# Bits of zero-padded byte strings

A C string is read as its bytes followed by as many zero bytes as the reader asks for. `bitAt s p`
is bit `p` of that padded string, the most significant bit of each byte first, and two strings
agree below `p` when their bits before `p` are the same (`AgreeBits`).

A string starts with one without a zero byte exactly when they agree on the bytes of the shorter
(`agreeBits_of_isPrefix`, `prefix_of_agreeBits`). The first byte where two strings differ, with
the highest bit of the difference, gives the first bit where they differ
(`agreeBits_of_firstDiff`). Where two strings first differ, the one with bit 0 comes first in the
order of `strcmp` (`lex_of_agreeBits`).
-/

namespace KnotResolver.Generic

/-- Bit `p` of `s` padded with zero bytes, the most significant bit of each byte first. -/
def bitAt (s : List UInt8) (p : Nat) : Bool := (s.getD (p / 8) 0).toNat.testBit (7 - p % 8)

/-- `s` and `t` have the same bits below position `p`. -/
def AgreeBits (s t : List UInt8) (p : Nat) : Prop := ∀ q < p, bitAt s q = bitAt t q

/-- The position of bit `i` of byte `byte`, counted from the most significant bit of byte 0. -/
def bitPos (byte i : Nat) : Nat := 8 * byte + (7 - i)

theorem bitAt_bitPos (s : List UInt8) (byte : Nat) {i : Nat} (hi : i < 8) :
    bitAt s (bitPos byte i) = (s.getD byte 0).toNat.testBit i := by
  have hdiv : (8 * byte + (7 - i)) / 8 = byte := by omega
  have hmod : 7 - (8 * byte + (7 - i)) % 8 = i := by omega
  rw [bitAt, bitPos, hdiv, hmod]

/-- Positions of the same byte are ordered the other way round from their bits. -/
theorem bitPos_lt_bitPos_iff {byte byte' i i' : Nat} (hi : i < 8) (hi' : i' < 8) :
    bitPos byte i < bitPos byte' i' ↔ byte < byte' ∨ (byte = byte' ∧ i' < i) := by
  unfold bitPos
  omega

/-! ## Agreement -/

namespace AgreeBits

variable {s t u : List UInt8} {p : Nat}

theorem refl (s : List UInt8) (p : Nat) : AgreeBits s s p := fun _ _ => rfl

theorem symm (h : AgreeBits s t p) : AgreeBits t s p := fun q hq => (h q hq).symm

theorem trans (h : AgreeBits s t p) (h' : AgreeBits t u p) : AgreeBits s u p :=
  fun q hq => (h q hq).trans (h' q hq)

theorem mono {p' : Nat} (h : AgreeBits s t p) (hp : p' ≤ p) : AgreeBits s t p' :=
  fun q hq => h q (by omega)

theorem succ (h : AgreeBits s t p) (hp : bitAt s p = bitAt t p) : AgreeBits s t (p + 1) := by
  intro q hq
  rcases Nat.lt_succ_iff_lt_or_eq.1 hq with hq | rfl
  · exact h q hq
  · exact hp

end AgreeBits

/-- Strings that all agree below `p` with one of them agree below `p` pairwise. -/
theorem agreeBits_pairwise {l : List (List UInt8)} {r : List UInt8} {p : Nat}
    (h : ∀ k ∈ l, AgreeBits k r p) : ∀ k ∈ l, ∀ k' ∈ l, AgreeBits k k' p :=
  fun k hk k' hk' => (h k hk).trans (h k' hk').symm

/-! ## Bytes from bits -/

theorem UInt8.eq_of_testBit {x y : UInt8} (h : ∀ i < 8, x.toNat.testBit i = y.toNat.testBit i) :
    x = y := by
  apply UInt8.toNat_inj.1
  apply Nat.eq_of_testBit_eq
  intro i
  by_cases hi : i < 8
  · exact h i hi
  · -- both bytes are below `2 ^ 8`
    have hpow : 2 ^ 8 ≤ 2 ^ i := Nat.pow_le_pow_right (by decide) (by omega)
    rw [Nat.testBit_eq_false_of_lt (Nat.lt_of_lt_of_le x.toNat_lt hpow),
      Nat.testBit_eq_false_of_lt (Nat.lt_of_lt_of_le y.toNat_lt hpow)]

/-- Agreement below the end of a byte is agreement of the byte. -/
theorem getD_eq_of_agreeBits {s t : List UInt8} {byte p : Nat} (h : AgreeBits s t p)
    (hp : 8 * (byte + 1) ≤ p) : s.getD byte 0 = t.getD byte 0 := by
  apply UInt8.eq_of_testBit
  intro i hi
  rw [← bitAt_bitPos s byte hi, ← bitAt_bitPos t byte hi]
  exact h _ (by unfold bitPos; omega)

/-- Agreement of every byte before `byte` is agreement below its first bit. -/
theorem agreeBits_of_getD {s t : List UInt8} {byte : Nat}
    (h : ∀ j < byte, s.getD j 0 = t.getD j 0) : AgreeBits s t (8 * byte) := by
  intro q hq
  unfold bitAt
  rw [h (q / 8) (by omega)]

/-- Strings without a zero byte that read the same padded are equal. -/
theorem eq_of_getD_eq : ∀ {s t : List UInt8}, 0 ∉ s → 0 ∉ t →
    (∀ j, s.getD j 0 = t.getD j 0) → s = t
  | [], [], _, _, _ => rfl
  | [], b :: _, _, ht, h => by
    have hb : 0 = b := h 0
    exact absurd (hb ▸ List.mem_cons_self) ht
  | a :: _, [], hs, _, h => by
    have ha : a = 0 := h 0
    exact absurd (ha ▸ List.mem_cons_self) hs
  | a :: s, b :: t, hs, ht, h => by
    have hab : a = b := h 0
    rw [hab, eq_of_getD_eq (fun h0 => hs (List.mem_cons_of_mem a h0))
      (fun h0 => ht (List.mem_cons_of_mem b h0)) (fun j => h (j + 1))]

/-- A string agrees with its prefixes on all their bytes. -/
theorem agreeBits_of_isPrefix {s pfx : List UInt8} (h : pfx <+: s) :
    AgreeBits s pfx (8 * pfx.length) := by
  obtain ⟨u, rfl⟩ := h
  apply agreeBits_of_getD
  intro j hj
  rw [List.getD_append _ _ _ _ hj]

/-- A string that agrees with one without a zero byte on all its bytes starts with it. -/
theorem prefix_of_agreeBits {s pfx : List UInt8} (hpfx : 0 ∉ pfx)
    (h : AgreeBits s pfx (8 * pfx.length)) : pfx <+: s := by
  have hbytes : ∀ j < pfx.length, s.getD j 0 = pfx.getD j 0 := fun j hj =>
    getD_eq_of_agreeBits h (by omega)
  -- the bytes of `pfx` are not zero, so `s` is at least as long
  have hlen : pfx.length ≤ s.length := by
    by_contra hlt
    have hj := hbytes s.length (by omega)
    rw [List.getD_eq_default _ _ (Nat.le_refl _), List.getD_eq_getElem _ _ (by omega)] at hj
    exact hpfx (hj ▸ List.getElem_mem _)
  rw [List.prefix_iff_eq_take]
  apply List.ext_getElem (by simp; omega)
  intro j h₁ h₂
  have hj := hbytes j h₁
  rw [List.getD_eq_getElem _ _ (by omega), List.getD_eq_getElem _ _ h₁] at hj
  rw [List.getElem_take, hj]

/-- A string that agrees with one starting with `pfx` on the bytes of `pfx` starts with it too. -/
theorem prefix_of_prefix_agreeBits {s t pfx : List UInt8} (hpfx : 0 ∉ pfx) (hs : pfx <+: s)
    {n : Nat} (h : AgreeBits s t n) (hn : 8 * pfx.length ≤ n) : pfx <+: t :=
  prefix_of_agreeBits hpfx ((h.mono hn).symm.trans (agreeBits_of_isPrefix hs))

/-! ## The first difference -/

/-- Strings equal on their first `byte` bytes, whose bytes at `byte` differ first at bit `i`,
agree below that bit and differ there. -/
theorem agreeBits_of_firstDiff {s t : List UInt8} {byte i : Nat} (hi : i < 8)
    (hbytes : ∀ j < byte, s.getD j 0 = t.getD j 0)
    (hbit : (s.getD byte 0 ^^^ t.getD byte 0).toNat.testBit i = true)
    (hhigh : ∀ j, i < j → j < 8 → (s.getD byte 0 ^^^ t.getD byte 0).toNat.testBit j = false) :
    AgreeBits s t (bitPos byte i) ∧ bitAt s (bitPos byte i) ≠ bitAt t (bitPos byte i) := by
  rw [UInt8.toNat_xor, Nat.testBit_xor] at hbit
  refine ⟨fun q hq => ?_, ?_⟩
  · by_cases hbyte : q / 8 < byte
    · unfold bitAt
      rw [hbytes (q / 8) hbyte]
    · -- a higher bit of the byte `byte`, where the difference is zero
      have hq8 : q / 8 = byte := by unfold bitPos at hq; omega
      have hj := hhigh (7 - q % 8) (by unfold bitPos at hq; omega) (by omega)
      rw [UInt8.toNat_xor, Nat.testBit_xor] at hj
      have hj' : (s.getD byte 0).toNat.testBit (7 - q % 8) =
          (t.getD byte 0).toNat.testBit (7 - q % 8) := by simpa using hj
      unfold bitAt
      rw [hq8, hj']
  · rw [bitAt_bitPos s byte hi, bitAt_bitPos t byte hi]
    intro heq
    rw [heq, Bool.xor_self] at hbit
    exact Bool.false_ne_true hbit

/-! ## The order of `strcmp` -/

/-- Strings without a zero byte, equal before byte `n` where the first has the smaller byte, come
in that order. -/
theorem lex_of_getD_lt : ∀ (n : Nat) {s t : List UInt8}, 0 ∉ s → 0 ∉ t →
    (∀ j < n, s.getD j 0 = t.getD j 0) → s.getD n 0 < t.getD n 0 → List.Lex (· < ·) s t
  | 0, [], _ :: _, _, _, _, _ => .nil
  | 0, _, [], _, _, _, hlt => absurd hlt (by simp)
  | 0, _ :: _, _ :: _, _, _, _, hlt => .rel hlt
  | n + 1, [], [], _, _, _, hlt => absurd hlt (by simp)
  | n + 1, [], b :: _, _, ht, h, _ => by
    have hb : 0 = b := h 0 (by omega)
    exact absurd (hb ▸ List.mem_cons_self) ht
  | n + 1, a :: _, [], hs, _, h, _ => by
    have ha : a = 0 := h 0 (by omega)
    exact absurd (ha ▸ List.mem_cons_self) hs
  | n + 1, a :: s, b :: t, hs, ht, h, hlt => by
    have hab : a = b := h 0 (by omega)
    rw [hab]
    exact .cons (lex_of_getD_lt n (fun h0 => hs (List.mem_cons_of_mem a h0))
      (fun h0 => ht (List.mem_cons_of_mem b h0)) (fun j hj => h (j + 1) (by omega)) hlt)

/-- Strings without a zero byte that agree below `p`, where the first has bit 0 and the second bit
1, come in that order. -/
theorem lex_of_agreeBits {s t : List UInt8} {p : Nat} (hs : 0 ∉ s) (ht : 0 ∉ t)
    (h : AgreeBits s t p) (h0 : bitAt s p = false) (h1 : bitAt t p = true) :
    List.Lex (· < ·) s t := by
  apply lex_of_getD_lt (p / 8) hs ht (fun j hj => getD_eq_of_agreeBits h (by omega))
  -- within byte `p / 8`, the bits above bit `7 - p % 8` agree
  set i := 7 - p % 8 with hi
  have hhigh : ∀ j, i < j → (s.getD (p / 8) 0).toNat.testBit j =
      (t.getD (p / 8) 0).toNat.testBit j := by
    intro j hj
    by_cases hj8 : j < 8
    · have hq := h (8 * (p / 8) + (7 - j)) (by omega)
      rw [← bitAt_bitPos s (p / 8) hj8, ← bitAt_bitPos t (p / 8) hj8]
      exact hq
    · have hpow : 2 ^ 8 ≤ 2 ^ j := Nat.pow_le_pow_right (by decide) (by omega)
      rw [Nat.testBit_eq_false_of_lt (Nat.lt_of_lt_of_le (UInt8.toNat_lt _) hpow),
        Nat.testBit_eq_false_of_lt (Nat.lt_of_lt_of_le (UInt8.toNat_lt _) hpow)]
  rw [UInt8.lt_iff_toNat_lt]
  exact Nat.lt_of_testBit i h0 h1 hhigh

end KnotResolver.Generic
