import KnotResolver.Dnssec.Ta

/-!
# 0x20 randomisation of the query name (`lib/resolve.c`)

`kr_resolve_produce` draws a 32-bit secret for each outgoing query and flips the case of the
letters of its name by the bits of the secret (`randomized_qname_case`, after
draft-vixie-dnsext-dns0x20); `kr_resolve_consume` flips the name of the response back with the
same secret before the layers compare it with the query. The function XORs `0x20` into byte
`i + 1` of the wire name, for `i < size - 2`, when that byte is a letter and bit `i % 32` of the
secret is set. A letter stays a letter when its case flips (`isletter_flip`), so applying the
function twice restores every byte (`randomizedQnameCase_randomizedQnameCase`). Label lengths are
at most 63 and the root label is zero, neither of which is a letter (`isletter_of_lt`), so on the
wire form of a name only the letters of its labels change, and only by their case
(`randomizedQnameCase_wire`).
-/

namespace KnotResolver

open Ta

/-- `isletter`: an ASCII letter, tested as `(chr | 0x20) - 'a' <= 'z' - 'a'` in `unsigned`. -/
def isletter (chr : UInt8) : Bool := (chr.toUInt32 ||| 0x20) - 0x61 ≤ 0x7a - 0x61

/-- What `randomized_qname_case` XORs into byte `i + 1`: `0x20` when bit `i & 31` of the secret
is set. -/
def caseBit (secret : UInt32) (i : Nat) : UInt8 :=
  (((secret >>> (i &&& 31).toUInt32) &&& 1) * 0x20).toUInt8

/-- The loop of `randomized_qname_case` from byte `i + 1` on, over the first `len` bytes after
the first. -/
def randomizeLoop (secret : UInt32) (len : Nat) : Nat → List UInt8 → List UInt8
  | _, [] => []
  | i, b :: rest =>
    (if i < len ∧ isletter b = true then b ^^^ caseBit secret i else b) ::
      randomizeLoop secret len (i + 1) rest

/-- `randomized_qname_case` on the wire form `qname` of a name, whose `knot_dname_size` is its
length: the first byte (the first label's length) and the last (the root label) are skipped. -/
def randomizedQnameCase (qname : List UInt8) (secret : UInt32) : List UInt8 :=
  if secret = 0 then qname
  else
    match qname with
    | [] => []
    | b :: rest => b :: randomizeLoop secret (qname.length - 2) 0 rest

/-- The secret `kr_resolve_produce` draws for a query: none in safe mode or with 0x20 off. -/
def qrySecret (safemode no0x20 : Bool) (rand : UInt32) : UInt32 :=
  if safemode || no0x20 then 0 else rand

/-- What `kr_resolve_consume` does to the name of a response that passes its checks:
de-randomise it with the secret of the query, if it has one. -/
def consumeQname (secret : UInt32) (qname : List UInt8) : List UInt8 :=
  if secret ≠ 0 then randomizedQnameCase qname secret else qname

/-- A byte of a randomised name: the byte itself, or a letter with its case flipped. -/
def FlipOrKeep (a b : UInt8) : Prop := b = a ∨ (isletter a = true ∧ b = a ^^^ 0x20)

/-! ## Bytes -/

theorem xor_or_self (b m : UInt8) : (b ^^^ m) ||| m = b ||| m := by
  apply UInt8.toBitVec_inj.1
  simp only [UInt8.toBitVec_or, UInt8.toBitVec_xor]
  ext i hi
  simp only [BitVec.getElem_or, BitVec.getElem_xor]
  cases b.toBitVec[i] <;> cases m.toBitVec[i] <;> rfl

/-- Flipping the case of a byte keeps it a letter, or a non-letter. -/
theorem isletter_flip (b : UInt8) : isletter (b ^^^ 0x20) = isletter b := by
  have hor : ∀ c : UInt8, c.toUInt32 ||| 0x20 = (c ||| 0x20).toUInt32 := fun c => by
    rw [UInt8.toUInt32_or]
    rfl
  unfold isletter
  rw [hor, hor, xor_or_self]

/-- Label lengths (at most 63) and the root label (zero) are not letters. -/
theorem isletter_of_lt {b : UInt8} (hb : b.toNat < 64) : isletter b = false := by
  have h1 : b.toNat ||| 32 < 64 :=
    Nat.or_lt_two_pow (show b.toNat < 2 ^ 6 by omega) (show 32 < 2 ^ 6 by decide)
  simp only [isletter, decide_eq_false_iff_not, UInt32.le_iff_toNat_le, UInt32.toNat_sub]
  simp
  omega

theorem caseBit_cases (secret : UInt32) (i : Nat) : caseBit secret i = 0 ∨ caseBit secret i = 0x20 := by
  have hlt : ((secret >>> (i &&& 31).toUInt32) &&& 1).toNat < 2 := by
    rw [UInt32.toNat_and]
    exact Nat.lt_of_le_of_lt Nat.and_le_right (by decide)
  have hbit : (secret >>> (i &&& 31).toUInt32) &&& 1 = 0 ∨ (secret >>> (i &&& 31).toUInt32) &&& 1 = 1 := by
    rcases Nat.lt_succ_iff_lt_or_eq.1 hlt with h0 | h1
    · exact .inl (UInt32.toNat_inj.1 (by simpa using h0))
    · exact .inr (UInt32.toNat_inj.1 (by simpa using h1))
  unfold caseBit
  rcases hbit with h | h <;> rw [h] <;> decide

theorem isletter_xor_caseBit (b : UInt8) (secret : UInt32) (i : Nat) :
    isletter (b ^^^ caseBit secret i) = isletter b := by
  rcases caseBit_cases secret i with h | h <;> rw [h]
  · rw [UInt8.xor_zero]
  · exact isletter_flip b

theorem xor_xor_cancel (b m : UInt8) : b ^^^ m ^^^ m = b := by
  rw [UInt8.xor_assoc, UInt8.xor_self, UInt8.xor_zero]

/-! ## The loop -/

theorem length_randomizeLoop (secret : UInt32) (len : Nat) :
    ∀ (i : Nat) (l : List UInt8), (randomizeLoop secret len i l).length = l.length
  | _, [] => rfl
  | i, _ :: rest => by
    simp only [randomizeLoop, List.length_cons, length_randomizeLoop secret len (i + 1) rest]

theorem randomizeLoop_append (secret : UInt32) (len : Nat) :
    ∀ (i : Nat) (l l' : List UInt8),
      randomizeLoop secret len i (l ++ l') =
        randomizeLoop secret len i l ++ randomizeLoop secret len (i + l.length) l'
  | _, [], _ => rfl
  | i, b :: rest, l' => by
    simp only [List.cons_append, randomizeLoop, randomizeLoop_append secret len (i + 1) rest l',
      List.length_cons, Nat.add_assoc, Nat.add_comm 1]

/-- A byte that is not a letter passes the loop unchanged. -/
theorem randomizeLoop_cons_of_not_letter {secret : UInt32} {len i : Nat} {b : UInt8}
    (hb : isletter b = false) (rest : List UInt8) :
    randomizeLoop secret len i (b :: rest) = b :: randomizeLoop secret len (i + 1) rest := by
  simp [randomizeLoop, hb]

theorem randomizeLoop_randomizeLoop (secret : UInt32) (len : Nat) :
    ∀ (i : Nat) (l : List UInt8),
      randomizeLoop secret len i (randomizeLoop secret len i l) = l
  | _, [] => rfl
  | i, b :: rest => by
    simp only [randomizeLoop, randomizeLoop_randomizeLoop secret len (i + 1) rest]
    by_cases hguard : i < len ∧ isletter b = true
    · rw [if_pos hguard, if_pos ⟨hguard.1, (isletter_xor_caseBit b secret i).trans hguard.2⟩,
        xor_xor_cancel]
    · rw [if_neg hguard, if_neg hguard]

theorem forall₂_randomizeLoop (secret : UInt32) (len : Nat) :
    ∀ (i : Nat) (l : List UInt8), List.Forall₂ FlipOrKeep l (randomizeLoop secret len i l)
  | _, [] => .nil
  | i, b :: rest => by
    refine .cons ?_ (forall₂_randomizeLoop secret len (i + 1) rest)
    by_cases hguard : i < len ∧ isletter b = true
    · rw [if_pos hguard]
      rcases caseBit_cases secret i with h | h <;> rw [h]
      · exact .inl UInt8.xor_zero
      · exact .inr ⟨hguard.2, rfl⟩
    · rw [if_neg hguard]
      exact .inl rfl

/-! ## Names -/

theorem randomizedQnameCase_randomizedQnameCase (qname : List UInt8) (secret : UInt32) :
    randomizedQnameCase (randomizedQnameCase qname secret) secret = qname := by
  unfold randomizedQnameCase
  split_ifs with hs
  · rfl
  · cases qname with
    | nil => rfl
    | cons b rest =>
      simp only [List.length_cons, length_randomizeLoop, randomizeLoop_randomizeLoop]

/-- The loop over the labels after the first and the root label: the length bytes and the zero
stay, each label keeps or flips its letters. -/
theorem randomizeLoop_wire (secret : UInt32) (len : Nat) :
    ∀ (ns : Dname) (i : Nat), (∀ l ∈ ns, l.length ≤ 63) →
      ∃ ns', randomizeLoop secret len i (List.lengthPrefixed Nat.toUInt8 ns ++ [0]) =
          List.lengthPrefixed Nat.toUInt8 ns' ++ [0] ∧
        List.Forall₂ (List.Forall₂ FlipOrKeep) ns ns'
  | [], i, _ => ⟨[], by simp [randomizeLoop, isletter_of_lt], .nil⟩
  | l :: ns, i, hns => by
    have hl := hns l List.mem_cons_self
    have hcode : isletter l.length.toUInt8 = false := isletter_of_lt (by simp; omega)
    obtain ⟨ns', hrest, hrel⟩ :=
      randomizeLoop_wire secret len ns (i + 1 + l.length)
        fun l' hl' => hns l' (List.mem_cons_of_mem _ hl')
    have hlab := forall₂_randomizeLoop secret len (i + 1) l
    refine ⟨randomizeLoop secret len (i + 1) l :: ns', ?_, .cons hlab hrel⟩
    rw [List.lengthPrefixed_cons, List.cons_append, randomizeLoop_cons_of_not_letter hcode,
      List.append_assoc, randomizeLoop_append, hrest, List.lengthPrefixed_cons,
      length_randomizeLoop, List.cons_append, List.append_assoc]

/-- On the wire form of a name, randomisation gives the wire form of a name with the same label
lengths, whose bytes are the original ones or letters with their case flipped. -/
theorem randomizedQnameCase_wire (n : Dname) (hn : ∀ l ∈ n, l.length ≤ 63) (secret : UInt32) :
    ∃ n', randomizedQnameCase (knotDnameWire n) secret = knotDnameWire n' ∧
      List.Forall₂ (List.Forall₂ FlipOrKeep) n n' := by
  unfold randomizedQnameCase
  split_ifs with hs
  · refine ⟨n, rfl, ?_⟩
    exact List.forall₂_same.2 fun l _ => List.forall₂_same.2 fun b _ => .inl rfl
  · cases n with
    | nil => exact ⟨[], rfl, .nil⟩
    | cons l ns =>
      -- the loop bound is fixed by the whole name; the induction over the labels does not read it
      generalize (knotDnameWire (l :: ns)).length - 2 = len
      obtain ⟨ns', hrest, hrel⟩ := randomizeLoop_wire secret len ns l.length
        fun l' hl' => hn l' (List.mem_cons_of_mem _ hl')
      refine ⟨randomizeLoop secret len 0 l :: ns', ?_,
        .cons (forall₂_randomizeLoop secret len 0 l) hrel⟩
      simp only [knotDnameWire, List.lengthPrefixed_cons, List.cons_append, List.append_assoc]
      rw [randomizeLoop_append, Nat.zero_add, hrest, length_randomizeLoop]

/-- The response path undoes the query path: whatever secret the query drew, the name the
response echoes back is de-randomised to the name that was randomised. -/
theorem consumeQname_randomizedQnameCase (qname : List UInt8) (secret : UInt32) :
    consumeQname secret (randomizedQnameCase qname secret) = qname := by
  unfold consumeQname
  split_ifs with hs
  · exact randomizedQnameCase_randomizedQnameCase qname secret
  · simp [not_not.1 hs, randomizedQnameCase]

/-- 0x20 randomisation of a wire name is an involution that only flips the case of letters in its
labels, and the name a response echoes is de-randomised to the name of the query. -/
theorem randomizedQnameCase_involution (n : Dname) (hn : ∀ l ∈ n, l.length ≤ 63)
    (secret : UInt32) :
    randomizedQnameCase (randomizedQnameCase (knotDnameWire n) secret) secret = knotDnameWire n ∧
      (∃ n', randomizedQnameCase (knotDnameWire n) secret = knotDnameWire n' ∧
        List.Forall₂ (List.Forall₂ FlipOrKeep) n n') ∧
      ∀ safemode no0x20 rand, consumeQname (qrySecret safemode no0x20 rand)
        (randomizedQnameCase (knotDnameWire n) (qrySecret safemode no0x20 rand)) =
          knotDnameWire n :=
  ⟨randomizedQnameCase_randomizedQnameCase _ secret, randomizedQnameCase_wire n hn secret,
    fun _ _ _ => consumeQname_randomizedQnameCase _ _⟩

theorem randomizedQnameCase_involution_a :
    (∀ l ∈ ([[0x61]] : Dname), l.length ≤ 63) ∧
      randomizedQnameCase (knotDnameWire [[0x61]]) 1 = knotDnameWire [[0x41]] ∧
      randomizedQnameCase (randomizedQnameCase (knotDnameWire [[0x61]]) 1) 1 =
        knotDnameWire [[0x61]] :=
  have hn : ∀ l ∈ ([[0x61]] : Dname), l.length ≤ 63 := by decide
  ⟨hn, by decide, (randomizedQnameCase_involution [[0x61]] hn 1).1⟩

end KnotResolver
