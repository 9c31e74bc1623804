import KnotResolver.Rrset
import KnotResolver.Terminated

/-!
# Subnet strings (`kr_straddr_subnet` of `lib/utils.c`)

`kr_straddr_subnet` parses `"addr"` or `"addr/len"`. The family is IPv6 when a `:` occurs
anywhere in the string, the address before the first `/` goes to `inet_pton`, and the length
after it to `strtol`. The `view` module then matches clients against such rules with
`kr_bitcmp` over the first `len` bits.

`inet_pton` is a parameter: for a family and a string, the binary address when the string is a
literal of the family (`inet_pton` returns 1), or nothing (it returns 0). The length goes
through C99 `strtol` in base 10 and the conversion of its `long` to `int`.

Valid subnet strings parse to their address and length (`krStraddrSubnet_subnet`). Parsing is
not strict, though: the end pointer of `strtol` is ignored, so an empty or partly numeric length
is accepted. A zero from `inet_pton` is not an error, so an address that is not a literal is
accepted too, and the destination is left as it was (`krStraddrSubnet_trailing_slash`).
-/

namespace KnotResolver.Straddr

/-- `AF_INET` or `AF_INET6`. -/
inductive Family where
  | inet
  | inet6
  deriving DecidableEq, Repr

/-- `kr_straddr_family`: IPv6 when the string has a `:`. -/
def krStraddrFamily (addr : List UInt8) : Family :=
  if (0x3a : UInt8) ∈ addr then .inet6 else .inet

/-- The longest prefix length of a family. -/
def Family.maxLen : Family → Int
  | .inet => 32
  | .inet6 => 128

/-! ## C99 `strtol` in base 10 -/

/-- `isspace` in the C locale. -/
def isspace (c : UInt8) : Bool := c == 0x20 || (0x09 ≤ c && c ≤ 0x0d)

/-- A decimal digit. -/
def isDigit (c : UInt8) : Bool := 0x30 ≤ c && c ≤ 0x39

/-- The value of a string of decimal digits. -/
def digitsValue (ds : List UInt8) : Nat := ds.foldl (fun v d => 10 * v + (d.toNat - 0x30)) 0

/-- `LONG_MAX` on the 64-bit target. -/
def longMax : Int := 2 ^ 63 - 1

/-- The optional sign `strtol` reads: whether it is `-`, and the rest. -/
def strtolSign : List UInt8 → Bool × List UInt8
  | 0x2d :: r => (true, r)
  | 0x2b :: r => (false, r)
  | r => (false, r)

/-- `strtol(s, NULL, 10)`: blanks, a sign, then as many digits as there are; the value is clamped
to `LONG_MIN`/`LONG_MAX` when it overflows, and is zero when there are no digits. -/
def strtol10 (s : List UInt8) : Int :=
  let (neg, s) := strtolSign (s.dropWhile isspace)
  let v : Int := digitsValue (s.takeWhile isDigit)
  if neg then max (-v) (-longMax - 1) else min v longMax

/-- The conversion of a `long` to `int`: modulo `2^32`, as GCC does. -/
def toCInt (v : Int) : Int := v.toInt32.toInt

/-! ## `kr_straddr_subnet` -/

section Subnet

variable (inetPton : Family → List UInt8 → Option (List UInt8))

/-- `kr_straddr_subnet`: the value returned, or an error, and what `dst` then holds (`none`:
left as it was). `inet_pton` never returns a negative value here, as the family is one it
knows. -/
def krStraddrSubnet (addr : List UInt8) : Except Int (Int × Option (List UInt8)) :=
  let family := krStraddrFamily addr
  let (addrStr, subnet) := addr.span (· != 0x2f)
  let bitLen : Except Int Int := match subnet with
    | [] => .ok family.maxLen
    | _ :: subnet =>
      let bitLen := toCInt (strtol10 subnet)
      if bitLen < 0 ∨ bitLen > family.maxLen then .error (krError ERANGE) else .ok bitLen
  bitLen.map fun bitLen => (bitLen, inetPton family addrStr)

/-- The strings the rules are meant to be: an address literal of the family the string selects,
alone or followed by `/` and a nonempty decimal length of at most the family's maximum. -/
def IsSubnetString (s : List UInt8) : Prop :=
  (inetPton (krStraddrFamily s) s).isSome ∨
    ∃ a n, s = a ++ 0x2f :: n ∧ (inetPton (krStraddrFamily s) a).isSome ∧ n ≠ [] ∧
      (∀ c ∈ n, isDigit c) ∧ (digitsValue n : Int) ≤ (krStraddrFamily s).maxLen

theorem isspace_of_isDigit {c : UInt8} (hc : isDigit c = true) : isspace c = false := by
  simp only [isDigit, Bool.and_eq_true, decide_eq_true_eq, UInt8.le_iff_toNat_le] at hc
  simp only [isspace, Bool.or_eq_false_iff, beq_eq_false_iff_ne, Bool.and_eq_false_iff,
    decide_eq_false_iff_not, UInt8.le_iff_toNat_le]
  refine ⟨fun h => ?_, .inr ?_⟩
  · rw [h] at hc
    exact absurd hc.1 (by decide)
  · have h13 : (0x0d : UInt8).toNat = 13 := rfl
    rw [h13]
    have h48 : (0x30 : UInt8).toNat = 48 := rfl
    omega

theorem strtolSign_of_isDigit {c : UInt8} (hc : isDigit c = true) (r : List UInt8) :
    strtolSign (c :: r) = (false, c :: r) := by
  have hne : c ≠ 0x2d ∧ c ≠ 0x2b := by
    constructor <;> intro h <;> rw [h] at hc <;> exact absurd hc (by decide)
  unfold strtolSign
  split <;> simp_all

/-- `strtol` of a string of digits is their value, when it fits. -/
theorem strtol10_digits {n : List UInt8} (hn : ∀ c ∈ n, isDigit c)
    (hv : (digitsValue n : Int) ≤ 128) : strtol10 n = digitsValue n := by
  have hsign : strtolSign (n.dropWhile isspace) = (false, n) := by
    cases n with
    | nil => rfl
    | cons c r =>
      have hc := hn c List.mem_cons_self
      rw [List.dropWhile_cons_of_neg (by rw [isspace_of_isDigit hc]; decide),
        strtolSign_of_isDigit hc]
  rw [strtol10, hsign]
  dsimp only
  rw [List.takeWhile_eq_self_iff.2 hn, if_neg (by decide)]
  unfold longMax
  omega

theorem toCInt_of_small {v : Int} (h0 : 0 ≤ v) (hv : v ≤ 128) : toCInt v = v := by
  unfold toCInt
  rw [Int.toInt32, Int32.toInt_ofInt]
  exact Int.bmod_eq_of_le (by simp [Int32.size]; omega) (by simp [Int32.size]; omega)

/-- A valid subnet string parses to its address and length. -/
theorem krStraddrSubnet_subnet {a n : List UInt8} {b : List UInt8}
    (ha : inetPton (krStraddrFamily (a ++ 0x2f :: n)) a = some b) (hslash : (0x2f : UInt8) ∉ a)
    (hn : ∀ c ∈ n, isDigit c)
    (hv : (digitsValue n : Int) ≤ (krStraddrFamily (a ++ 0x2f :: n)).maxLen) :
    krStraddrSubnet inetPton (a ++ 0x2f :: n) = .ok (digitsValue n, some b) := by
  have hmax : (krStraddrFamily (a ++ 0x2f :: n)).maxLen ≤ 128 := by
    cases krStraddrFamily (a ++ 0x2f :: n) <;> decide
  have hfree : ∀ x ∈ a, (x != 0x2f) = true := fun x hx =>
    bne_iff_ne.2 fun h => hslash (h ▸ hx)
  have hspan : (a ++ 0x2f :: n).span (· != 0x2f) = (a, 0x2f :: n) := by
    rw [List.span_eq_takeWhile_dropWhile, List.takeWhile_append_of_pos hfree,
      List.dropWhile_append_of_pos hfree]
    simp
  have hle := Int.le_trans hv hmax
  rw [krStraddrSubnet, hspan]
  dsimp only
  rw [strtol10_digits hn hle, toCInt_of_small (Int.natCast_nonneg _) hle, if_neg (by omega), ha]
  rfl

/-- `"1.2.3.4/"`, a rule with its length left out. -/
def trailingSlash : List UInt8 := [0x31, 0x2e, 0x32, 0x2e, 0x33, 0x2e, 0x34, 0x2f]

/-- Whatever `inet_pton` accepts, as long as no literal it accepts has a `/`: `"1.2.3.4/"` is not
a subnet string, and `kr_straddr_subnet` returns the length 0 for it, a rule that matches
every address. -/
theorem krStraddrSubnet_trailing_slash
    (hpton : ∀ f a b, inetPton f a = some b → (0x2f : UInt8) ∉ a) :
    ¬IsSubnetString inetPton trailingSlash ∧
      ∃ dst, krStraddrSubnet inetPton trailingSlash = .ok (0, dst) := by
  refine ⟨?_, _, rfl⟩
  rintro (hall | ⟨a, n, hs, ha, hn, -⟩)
  · obtain ⟨b, hb⟩ := Option.isSome_iff_exists.1 hall
    exact hpton _ _ _ hb (by decide)
  · -- the only `/` is the last byte, so nothing follows it
    obtain ⟨b, hb⟩ := Option.isSome_iff_exists.1 ha
    have hcut : trailingSlash = [0x31, 0x2e, 0x32, 0x2e, 0x33, 0x2e, 0x34] ++ 0x2f :: [] := rfl
    rw [hcut] at hs
    have := (List.eq_of_append_cons_eq (by decide) (hpton _ _ _ hb) hs).2
    exact hn this.symm

end Subnet

/-! ## A dotted-quad `inet_pton` -/

/-- The loop of `inet_pton` for `AF_INET` as the C library reads a dotted quad: the octets done,
the one being read, whether a digit of it was seen, and the number of octets begun. An octet has
no leading zero and is at most 255, and there are exactly four. -/
def inetPton4Loop : List UInt8 → List Nat → Nat → Bool → Nat → Option (List Nat)
  | [], done, cur, _, octets => if octets < 4 then none else some (done ++ [cur])
  | ch :: src, done, cur, sawDigit, octets =>
    if isDigit ch then
      let new := cur * 10 + (ch.toNat - 0x30)
      if sawDigit ∧ cur = 0 then none
      else if new > 255 then none
      else if sawDigit then inetPton4Loop src done new true octets
      else if octets + 1 > 4 then none
      else inetPton4Loop src done new true (octets + 1)
    else if ch = 0x2e ∧ sawDigit then
      if octets = 4 then none else inetPton4Loop src (done ++ [cur]) 0 false octets
    else none

/-- `inet_pton(AF_INET, src, dst)`: the four bytes of a dotted quad. -/
def inetPton4 (src : List UInt8) : Option (List UInt8) :=
  (inetPton4Loop src [] 0 false 0).map (List.map Nat.toUInt8)

/-- An `inet_pton` that reads IPv4 dotted quads and takes no IPv6 literal. -/
def dottedQuadPton : Family → List UInt8 → Option (List UInt8)
  | .inet, src => inetPton4 src
  | .inet6, _ => none

example : dottedQuadPton .inet [0x31, 0x2e, 0x32, 0x2e, 0x33, 0x2e, 0x34] = some [1, 2, 3, 4] := by
  decide

/-- A dotted quad is made of digits and dots only. -/
theorem inetPton4Loop_digits_dots :
    ∀ (src : List UInt8) (done : List Nat) (cur : Nat) (sawDigit : Bool) (octets : Nat)
      (r : List Nat), inetPton4Loop src done cur sawDigit octets = some r →
      ∀ c ∈ src, isDigit c = true ∨ c = 0x2e
  | [], _, _, _, _, _, _ => nofun
  | ch :: src, done, cur, sawDigit, octets, r, h => by
    intro c hc
    -- the byte read is a digit or a dot, or the loop fails on it
    have hch : isDigit ch = true ∨ ch = 0x2e := by
      by_cases hd : isDigit ch = true
      · exact .inl hd
      by_cases hdot : ch = 0x2e
      · exact .inr hdot
      unfold inetPton4Loop at h
      simp [hd, hdot] at h
    rcases List.mem_cons.1 hc with rfl | hc
    · exact hch
    · unfold inetPton4Loop at h
      dsimp only at h
      split_ifs at h
      all_goals first
        | cases h
        | exact inetPton4Loop_digits_dots src _ _ _ _ r h c hc

theorem dottedQuadPton_no_slash (f : Family) (a b : List UInt8) (h : dottedQuadPton f a = some b) :
    (0x2f : UInt8) ∉ a := by
  cases f with
  | inet6 => cases h
  | inet =>
    obtain ⟨r, hr, -⟩ := Option.map_eq_some_iff.1 h
    intro hslash
    rcases inetPton4Loop_digits_dots a [] 0 false 0 r hr _ hslash with hd | hd
    · exact absurd hd (by decide)
    · exact absurd hd (by decide)

/-- `"1.2.3.4"`. -/
def dottedQuad : List UInt8 := [0x31, 0x2e, 0x32, 0x2e, 0x33, 0x2e, 0x34]

/-- Under an `inet_pton` that reads dotted quads, the rule `"1.2.3.4/24"` is a subnet string and
parses to its address and length 24, while `"1.2.3.4/"` is none and parses to the length 0. -/
theorem krStraddrSubnet_trailing_slash_dottedQuad :
    (∀ f a b, dottedQuadPton f a = some b → (0x2f : UInt8) ∉ a) ∧
      IsSubnetString dottedQuadPton (dottedQuad ++ 0x2f :: [0x32, 0x34]) ∧
      krStraddrSubnet dottedQuadPton (dottedQuad ++ 0x2f :: [0x32, 0x34]) =
        .ok (digitsValue [0x32, 0x34], some [1, 2, 3, 4]) ∧
      ¬IsSubnetString dottedQuadPton trailingSlash ∧
      ∃ dst, krStraddrSubnet dottedQuadPton trailingSlash = .ok (0, dst) :=
  have hfam : krStraddrFamily (dottedQuad ++ 0x2f :: [0x32, 0x34]) = .inet := rfl
  have hpton : dottedQuadPton (krStraddrFamily (dottedQuad ++ 0x2f :: [0x32, 0x34])) dottedQuad =
      some [1, 2, 3, 4] := by
    rw [hfam]
    decide
  have hv : (digitsValue [0x32, 0x34] : Int) ≤
      (krStraddrFamily (dottedQuad ++ 0x2f :: [0x32, 0x34])).maxLen := by
    rw [hfam]
    decide
  have hn : ∀ c ∈ ([0x32, 0x34] : List UInt8), isDigit c = true := by
    intro c hc
    simp only [List.mem_cons, List.not_mem_nil, or_false] at hc
    rcases hc with rfl | rfl <;> rfl
  ⟨dottedQuadPton_no_slash,
    .inr ⟨dottedQuad, [0x32, 0x34], rfl, by rw [hpton]; rfl, by decide, hn, hv⟩,
    krStraddrSubnet_subnet dottedQuadPton hpton (by decide) hn hv,
    krStraddrSubnet_trailing_slash _ dottedQuadPton_no_slash⟩

/-- The address before the `/` is read, and the empty length is taken as 0. -/
example : krStraddrSubnet dottedQuadPton trailingSlash = .ok (0, some [1, 2, 3, 4]) := by
  decide

end KnotResolver.Straddr
