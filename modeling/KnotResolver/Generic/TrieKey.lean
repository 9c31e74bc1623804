import KnotResolver.Generic.Trie

/-!
# Keys as strings of nibbles

A branch of the trie tests one position of a key seen as a string of nibbles: position `p` is
byte `p / 2`, its more important half for even `p`, and `keyNib key p` is that nibble plus one,
0 past the end of the key. `twigbit` is the bit of `keyNib` at the position `nibPos flags index`
of the branch (`twigbit_eq`).

Keys that agree before `p` and differ at `p` compare, unsigned byte by byte with a proper
prefix first, as their nibbles at `p` do (`compareLex_eq_lt_of_keyNib`), and `ns_find_branch`
computes that first differing position (`agreeBelow_mismatch`).
-/

namespace KnotResolver.Generic

/-- The nibble of `key` at position `p`, plus one; 0 past the end. -/
def keyNib : List UInt8 → Nat → Nat
  | [], _ => 0
  | a :: _, 0 => a.toNat / 16 + 1
  | a :: _, 1 => a.toNat % 16 + 1
  | _ :: as, p + 2 => keyNib as p

/-- The position a branch tests. -/
def nibPos (flags index : Nat) : Nat := 2 * index + (flags - 1)

/-- Two keys with the same nibbles before position `p`. -/
def AgreeBelow (p : Nat) (k k' : List UInt8) : Prop := ∀ q < p, keyNib k q = keyNib k' q

@[simp] theorem keyNib_nil (p : Nat) : keyNib [] p = 0 := by
  cases p with
  | zero => rfl
  | succ p => cases p <;> rfl

@[simp] theorem keyNib_cons_add_two (a : UInt8) (as : List UInt8) (p : Nat) :
    keyNib (a :: as) (p + 2) = keyNib as p := rfl

theorem keyNib_le (key : List UInt8) (p : Nat) : keyNib key p ≤ 16 := by
  induction key generalizing p with
  | nil => simp
  | cons a as ih =>
    have ha := a.toNat_lt
    match p with
    | 0 => show a.toNat / 16 + 1 ≤ 16; omega
    | 1 => show a.toNat % 16 + 1 ≤ 16; omega
    | p + 2 => exact ih p

theorem keyNib_two_mul (key : List UInt8) (i : Nat) :
    keyNib key (2 * i) = if h : i < key.length then key[i].toNat / 16 + 1 else 0 := by
  induction key generalizing i with
  | nil => simp
  | cons a as ih =>
    cases i with
    | zero => rfl
    | succ i =>
      rw [show 2 * (i + 1) = 2 * i + 2 by omega, keyNib_cons_add_two, ih]
      simp

theorem keyNib_two_mul_add_one (key : List UInt8) (i : Nat) :
    keyNib key (2 * i + 1) = if h : i < key.length then key[i].toNat % 16 + 1 else 0 := by
  induction key generalizing i with
  | nil => simp
  | cons a as ih =>
    cases i with
    | zero => rfl
    | succ i =>
      rw [show 2 * (i + 1) + 1 = 2 * i + 1 + 2 by omega, keyNib_cons_add_two, ih]
      simp

theorem nibbit_one (k : UInt8) : nibbit k 1 = 2 ^ (k.toNat / 16 + 1) := by
  have hk := k.toNat_lt
  simp only [nibbit, Nat.one_shiftLeft, Nat.shiftRight_eq_div_pow]
  rw [show (0xf : Nat) = 2 ^ 4 - 1 from rfl, Nat.and_two_pow_sub_one_eq_mod,
    Nat.mod_eq_of_lt (by simp; omega)]
  rfl

theorem nibbit_two (k : UInt8) : nibbit k 2 = 2 ^ (k.toNat % 16 + 1) := by
  simp only [nibbit, Nat.one_shiftLeft, Nat.shiftRight_eq_div_pow]
  rw [show (0xf : Nat) = 2 ^ 4 - 1 from rfl, Nat.and_two_pow_sub_one_eq_mod]
  simp

/-- The bit a branch tests is the bit of the key's nibble at the branch's position. -/
theorem twigbit_eq {flags : Nat} (hf : flags = 1 ∨ flags = 2) (index : Nat) (key : List UInt8) :
    twigbit flags index key = 2 ^ keyNib key (nibPos flags index) := by
  rcases hf with rfl | rfl
  · rw [nibPos, show 2 * index + (1 - 1) = 2 * index by omega, keyNib_two_mul, twigbit]
    split
    · exact nibbit_one _
    · rfl
  · rw [nibPos, keyNib_two_mul_add_one, twigbit]
    split
    · exact nibbit_two _
    · rfl

/-- The bit of the leaf's first unmatched byte, as `trie_get_ins` computes it. -/
theorem twigbit_eq_first (flags index : Nat) (lkey : List UInt8) :
    (match lkey[index]? with | none => 1 <<< 0 | some k2 => nibbit k2 flags) =
      twigbit flags index lkey := by
  rw [twigbit]
  by_cases h : index < lkey.length
  · rw [dif_pos h, List.getElem?_eq_getElem h]
  · rw [dif_neg h, List.getElem?_eq_none (Nat.le_of_not_lt h)]

theorem nibPos_lt_nibPos_iff {f f' i i' : Nat} (hf : f = 1 ∨ f = 2) (hf' : f' = 1 ∨ f' = 2) :
    nibPos f i < nibPos f' i' ↔ i < i' ∨ (i = i' ∧ f < f') := by
  simp only [nibPos]
  omega

theorem nibPos_eq_nibPos_iff {f f' i i' : Nat} (hf : f = 1 ∨ f = 2) (hf' : f' = 1 ∨ f' = 2) :
    nibPos f i = nibPos f' i' ↔ f = f' ∧ i = i' := by
  simp only [nibPos]
  omega

/-- `key_cmp` finds two keys equal exactly when they are. -/
theorem keyCmp_eq_eq_iff {k₁ k₂ : List UInt8} : keyCmp k₁ k₂ = .eq ↔ k₁ = k₂ := by
  constructor
  · intro h
    unfold keyCmp at h
    split at h
    · next hm =>
      have htake : k₁.take (min k₁.length k₂.length) = k₂.take (min k₁.length k₂.length) :=
        Std.LawfulEqCmp.eq_of_compare hm
      split at h
      · next hlen =>
        rw [Nat.min_eq_left (Nat.le_of_eq hlen), List.take_length, hlen, List.take_length] at htake
        exact htake
      · split at h <;> cases h
    · next hne => exact absurd h hne
  · rintro rfl
    simp only [keyCmp, memcmp, Nat.min_self, List.take_length]
    rw [show List.compareLex compare k₁ k₁ = .eq from Std.ReflCmp.compare_self]
    simp

/-! ## Agreement and order -/

namespace AgreeBelow

theorem refl (p : Nat) (k : List UInt8) : AgreeBelow p k k := fun _ _ => rfl

theorem symm {p : Nat} {k k' : List UInt8} (h : AgreeBelow p k k') : AgreeBelow p k' k :=
  fun q hq => (h q hq).symm

theorem trans {p : Nat} {k k' k'' : List UInt8} (h : AgreeBelow p k k') (h' : AgreeBelow p k' k'') :
    AgreeBelow p k k'' :=
  fun q hq => (h q hq).trans (h' q hq)

theorem mono {p p' : Nat} {k k' : List UInt8} (h : AgreeBelow p k k') (hp : p' ≤ p) :
    AgreeBelow p' k k' :=
  fun q hq => h q (Nat.lt_of_lt_of_le hq hp)

theorem cons_iff {p : Nat} (a : UInt8) (as bs : List UInt8) :
    AgreeBelow (p + 2) (a :: as) (a :: bs) ↔ AgreeBelow p as bs := by
  constructor
  · intro h q hq
    exact h (q + 2) (by omega)
  · intro h q hq
    match q with
    | 0 => rfl
    | 1 => rfl
    | q + 2 => exact h q (by omega)

end AgreeBelow

theorem eq_of_keyNib_zero_one {a b : UInt8} (h0 : a.toNat / 16 = b.toNat / 16)
    (h1 : a.toNat % 16 = b.toNat % 16) : a = b := by
  apply UInt8.toNat_inj.1
  omega

/-- Keys that agree before `p` and differ at `p` compare as their nibbles at `p` do. -/
theorem compareLex_eq_lt_of_keyNib :
    ∀ {k k' : List UInt8} {p : Nat}, AgreeBelow p k k' → keyNib k p < keyNib k' p →
      k.compareLex compare k' = .lt
  | [], [], _, _, hlt => by simp at hlt
  | [], _ :: _, _, _, _ => List.compareLex_nil_cons
  | _ :: _, [], _, _, hlt => by simp at hlt
  | a :: as, b :: bs, p, hagree, hlt => by
    rw [List.compareLex_cons_cons]
    match p with
    | 0 =>
      have hab : a < b := UInt8.lt_iff_toNat_lt.2 (by simp only [keyNib] at hlt; omega)
      rw [Std.compare_eq_lt.2 hab]
      rfl
    | 1 =>
      have h0 := hagree 0 (by omega)
      simp only [keyNib] at h0 hlt
      have hab : a < b := UInt8.lt_iff_toNat_lt.2 (by omega)
      rw [Std.compare_eq_lt.2 hab]
      rfl
    | p + 2 =>
      have h0 := hagree 0 (by omega)
      have h1 := hagree 1 (by omega)
      simp only [keyNib] at h0 h1
      obtain rfl : a = b := eq_of_keyNib_zero_one (by omega) (by omega)
      rw [show compare a a = .eq from Std.ReflCmp.compare_self, Ordering.eq_then]
      exact compareLex_eq_lt_of_keyNib ((AgreeBelow.cons_iff a as bs).1 hagree) hlt

/-! ## The first mismatch -/

theorem high_nibble_ne_iff (a b : UInt8) :
    ((a ^^^ b) &&& 0xf0 != 0) = true ↔ a.toNat / 16 ≠ b.toNat / 16 := by
  have hx : (a ^^^ b).toNat < 256 := (a ^^^ b).toNat_lt
  have hnib : ∀ x < 256, (x &&& 240 = 0 ↔ x / 16 = 0) := by decide +kernel
  have hdiv : (a ^^^ b).toNat / 16 = a.toNat / 16 ^^^ b.toNat / 16 := by
    rw [UInt8.toNat_xor, show (16 : Nat) = 2 ^ 4 from rfl, ← Nat.shiftRight_eq_div_pow,
      ← Nat.shiftRight_eq_div_pow, ← Nat.shiftRight_eq_div_pow, Nat.shiftRight_xor_distrib]
  have hand : ((a ^^^ b) &&& 0xf0).toNat = (a ^^^ b).toNat &&& 240 := UInt8.toNat_and _ _
  rw [bne_iff_ne, ne_eq, ← UInt8.toNat_inj, hand, UInt8.toNat_zero, hnib _ hx, hdiv,
    Nat.xor_eq_zero_iff]

theorem mismatchFlags_cons (a : UInt8) (as bs : List UInt8) (i : Nat) :
    mismatchFlags (a :: as) (a :: bs) (i + 1) = mismatchFlags as bs i := by
  simp [mismatchFlags]

theorem mismatchFlags_pos (key lkey : List UInt8) (index : Nat) :
    mismatchFlags key lkey index = 1 ∨ mismatchFlags key lkey index = 2 := by
  unfold mismatchFlags
  split
  · split
    · exact .inl rfl
    · exact .inr rfl
  · exact .inl rfl

/-- Keys equal up to the first mismatch, and of that length, are equal. -/
theorem eq_of_firstMismatch : ∀ {key lkey : List UInt8},
    firstMismatch key lkey = key.length → key.length = lkey.length → key = lkey
  | [], [], _, _ => rfl
  | [], _ :: _, _, hl => by simp at hl
  | _ :: _, [], _, hl => by simp at hl
  | a :: as, b :: bs, hi, hl => by
    rw [firstMismatch] at hi
    split at hi
    · simp at hi
    · next hab =>
      obtain rfl := not_not.1 hab
      simp only [List.length_cons, Nat.add_right_cancel_iff] at hi hl
      rw [eq_of_firstMismatch hi hl]

/-- Where `ns_find_branch` puts the branching point: the first position where the nibbles of
the key and the leaf's key differ. -/
theorem agreeBelow_mismatch : ∀ {key lkey : List UInt8},
    ¬(firstMismatch key lkey = key.length ∧ key.length = lkey.length) →
      AgreeBelow (nibPos (mismatchFlags key lkey (firstMismatch key lkey)) (firstMismatch key lkey))
        key lkey ∧
      keyNib key (nibPos (mismatchFlags key lkey (firstMismatch key lkey)) (firstMismatch key lkey)) ≠
        keyNib lkey (nibPos (mismatchFlags key lkey (firstMismatch key lkey)) (firstMismatch key lkey))
  | [], [], h => absurd ⟨rfl, rfl⟩ h
  | [], b :: bs, _ => by
    refine ⟨fun q hq => by simp [nibPos, mismatchFlags, firstMismatch] at hq, ?_⟩
    simp [nibPos, mismatchFlags, firstMismatch, keyNib]
  | a :: as, [], _ => by
    refine ⟨fun q hq => by simp [nibPos, mismatchFlags, firstMismatch] at hq, ?_⟩
    simp [nibPos, mismatchFlags, firstMismatch, keyNib]
  | a :: as, b :: bs, h => by
    by_cases hab : a = b
    · subst hab
      have hrec : firstMismatch (a :: as) (a :: bs) = firstMismatch as bs + 1 := by
        simp [firstMismatch]
      have h' : ¬(firstMismatch as bs = as.length ∧ as.length = bs.length) := by
        rw [hrec] at h
        simpa using h
      obtain ⟨hagree, hne⟩ := agreeBelow_mismatch h'
      have hpos : ∀ f, nibPos f (firstMismatch as bs + 1) = nibPos f (firstMismatch as bs) + 2 := by
        intro f
        simp only [nibPos]
        omega
      rw [hrec, mismatchFlags_cons, hpos, AgreeBelow.cons_iff, keyNib_cons_add_two,
        keyNib_cons_add_two]
      exact ⟨hagree, hne⟩
    · have hrec : firstMismatch (a :: as) (b :: bs) = 0 := by simp [firstMismatch, hab]
      have hflags : mismatchFlags (a :: as) (b :: bs) 0 =
          if (a ^^^ b) &&& 0xf0 != 0 then 1 else 2 := by simp [mismatchFlags]
      rw [hrec, hflags]
      split
      · next hhi =>
        refine ⟨fun q hq => by simp [nibPos] at hq, ?_⟩
        rw [show nibPos 1 0 = 0 from rfl]
        simp only [keyNib]
        have := (high_nibble_ne_iff a b).1 hhi
        omega
      · next hhi =>
        have hhi' : a.toNat / 16 = b.toNat / 16 := by
          by_contra hne
          exact hhi ((high_nibble_ne_iff a b).2 hne)
        refine ⟨fun q hq => ?_, ?_⟩
        · obtain rfl : q = 0 := by simp [nibPos] at hq; omega
          simp only [keyNib, hhi']
        · rw [show nibPos 2 0 = 1 from rfl]
          simp only [keyNib]
          intro hlo
          exact hab (eq_of_keyNib_zero_one hhi' (by omega))

end KnotResolver.Generic
