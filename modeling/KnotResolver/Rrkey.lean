import KnotResolver.Dnssec.Ta

/-!
# Keys of RRsets (`kr_rrkey` of `lib/utils.c`)

`kr_rrkey` writes the key of an RRset in two places. The zone importer (`zi_record_store` of
`daemon/zimport.c`) gathers the records of one RRset under it in a `map_t`. The worker
(`subreq_key` of `daemon/worker.c`) finds a sub-request already in flight under it in a trie.
The key holds four fields, then a zero byte:
- the class;
- the owner, lower-cased, in wire format without its root label;
- the type;
- one more 16-bit number.
`u16tostr` writes each number as five bytes.

`u16tostr` takes its digits from a fixed-point value of `num / 10000`, four bits of integer part
at a time. For every 16-bit number they are its five decimal digits (`u16tostr_eq`). So a key,
read up to the length `kr_rrkey` returns, determines the class, the owner up to letter case, the
type and the last number (`take_krRrkey_inj`). Take an owner whose labels hold no zero byte. Then
no zero byte comes before the terminator (`zero_not_mem_take_krRrkey`). So the C string that
`map_t` reads is that same key (`ziRecordKey_eq`), and the map and the trie identify the same
RRsets.
-/

namespace KnotResolver

open Ta

/-! ## `u16tostr` -/

/-- The loop of `u16tostr`: the digit in the top four bits, then the fraction times ten. -/
def u16tostrLoop : Nat → UInt32 → List UInt8
  | 0, _ => []
  | i + 1, tmp => ((48 : UInt8) + (tmp >>> 28).toUInt8) :: u16tostrLoop i ((tmp &&& 0x0fffffff) * 10)

/-- `u16tostr`: five digits of `num`, read off `num / 10000` with 28 bits of fraction. -/
def u16tostr (num : UInt16) : List UInt8 :=
  let tmp : UInt32 := num.toUInt32 * ((((1 : UInt32) <<< 28) / 10000) + 1) - num.toUInt32 / 4
  u16tostrLoop 5 tmp

/-- The zero-padded decimal representation of a number below `10^5`, in ASCII digits. -/
def decimal5 (n : Nat) : List UInt8 :=
  (List.range 5).map fun j => (48 : UInt8) + (n / 10 ^ (4 - j) % 10).toUInt8

theorem toNat_digit {d : Nat} (hd : d < 10) : ((48 : UInt8) + d.toUInt8).toNat = 48 + d := by
  simp only [UInt8.toNat_add, Nat.toUInt8_eq, UInt8.toNat_ofNat', UInt8.reduceToNat]
  omega

/-- The digit of the fraction times `10^(j+1)` is that of the fraction, reduced below one, times
`10^(j+1)`. -/
theorem mod_mul_pow_div_mod (x m j : Nat) (hm : 0 < m) :
    x % m * 10 * 10 ^ j / m % 10 = x * 10 ^ (j + 1) / m % 10 := by
  have hsplit : x * 10 ^ (j + 1) = x % m * 10 * 10 ^ j + m * (10 * (x / m * 10 ^ j)) := by
    conv_lhs => rw [← Nat.mod_add_div x m]
    ring
  rw [hsplit, Nat.add_mul_div_left _ _ hm, Nat.add_mul_mod_self_left]

/-- From a value below `10 · 2^28`, the loop writes the digits of its fixed-point multiples by
the powers of ten. -/
theorem u16tostrLoop_eq : ∀ (i : Nat) (tmp : UInt32), tmp.toNat < 10 * 2 ^ 28 →
    u16tostrLoop i tmp =
      (List.range i).map fun j => (48 : UInt8) + (tmp.toNat * 10 ^ j / 2 ^ 28 % 10).toUInt8
  | 0, _, _ => rfl
  | i + 1, tmp, h => by
    -- the fraction times ten, again below `10 · 2^28`
    have hnext : ((tmp &&& 0x0fffffff) * 10).toNat = tmp.toNat % 2 ^ 28 * 10 := by
      rw [UInt32.toNat_mul, UInt32.toNat_and, show (0x0fffffff : UInt32).toNat = 2 ^ 28 - 1 from rfl,
        Nat.and_two_pow_sub_one_eq_mod]
      have := Nat.mod_lt tmp.toNat (Nat.two_pow_pos 28)
      simp only [UInt32.reduceToNat]
      omega
    have hdigit : (tmp >>> 28).toUInt8 = (tmp.toNat * 10 ^ 0 / 2 ^ 28 % 10).toUInt8 := by
      apply UInt8.toNat_inj.1
      rw [UInt32.toNat_toUInt8, UInt32.toNat_shiftRight, Nat.toUInt8_eq, UInt8.toNat_ofNat',
        Nat.shiftRight_eq_div_pow, Nat.pow_zero, Nat.mul_one]
      simp only [UInt32.reduceToNat, Nat.reduceMod, Nat.reducePow]
      omega
    rw [u16tostrLoop, u16tostrLoop_eq i _ (by rw [hnext]; omega), List.range_succ_eq_map,
      List.map_cons, List.map_map, hdigit]
    congr 1
    apply List.map_congr_left
    intro j _
    simp only [Function.comp_apply, hnext, mod_mul_pow_div_mod _ _ j (Nat.two_pow_pos 28)]

/-- `u16tostr` writes the five decimal digits of its argument. -/
theorem u16tostr_eq (num : UInt16) : u16tostr num = decimal5 num.toNat := by
  have hn := num.toNat_lt
  have htmp : (num.toUInt32 * ((((1 : UInt32) <<< 28) / 10000) + 1) - num.toUInt32 / 4).toNat =
      26844 * num.toNat - num.toNat / 4 := by
    have hmul : (num.toUInt32 * ((((1 : UInt32) <<< 28) / 10000) + 1)).toNat =
        26844 * num.toNat := by
      have hrecip : (((1 : UInt32) <<< 28) / 10000) + 1 = 26844 := by decide
      rw [hrecip, UInt32.toNat_mul, UInt16.toNat_toUInt32]
      simp only [UInt32.reduceToNat]
      omega
    have hdiv : (num.toUInt32 / 4).toNat = num.toNat / 4 := by
      rw [UInt32.toNat_div, UInt16.toNat_toUInt32]
      rfl
    rw [UInt32.toNat_sub_of_le _ _ (by rw [UInt32.le_iff_toNat_le, hmul, hdiv]; omega), hmul, hdiv]
  -- the fixed-point value lies within `10^-4` above `num / 10000`
  have hdigits : ∀ j < 5,
      (26844 * num.toNat - num.toNat / 4) * 10 ^ j / 2 ^ 28 = num.toNat / 10 ^ (4 - j) := by
    intro j hj
    interval_cases j <;> simp only [Nat.reduceSub, Nat.reducePow, Nat.mul_one] <;> omega
  rw [u16tostr, u16tostrLoop_eq 5 _ (by rw [htmp]; omega), decimal5, htmp]
  apply List.map_congr_left
  intro j hj
  rw [hdigits j (List.mem_range.1 hj)]

@[simp] theorem length_decimal5 (n : Nat) : (decimal5 n).length = 5 := by
  simp [decimal5]

theorem zero_not_mem_decimal5 (n : Nat) : (0 : UInt8) ∉ decimal5 n := by
  simp only [decimal5, List.mem_map, not_exists, not_and]
  intro j _ h0
  have := toNat_digit (Nat.mod_lt (n / 10 ^ (4 - j)) (by decide : 0 < 10))
  rw [h0] at this
  simp only [UInt8.reduceToNat] at this
  omega

/-- Below `10^5`, the five digits determine the number. -/
theorem decimal5_inj {n m : Nat} (hn : n < 10 ^ 5) (hm : m < 10 ^ 5) (h : decimal5 n = decimal5 m) :
    n = m := by
  have hd : ∀ j < 5, n / 10 ^ (4 - j) % 10 = m / 10 ^ (4 - j) % 10 := by
    intro j hj
    have hbyte := List.map_inj_left.1 h j (List.mem_range.2 hj)
    have hn' := toNat_digit (Nat.mod_lt (n / 10 ^ (4 - j)) (by decide : 0 < 10))
    have hm' := toNat_digit (Nat.mod_lt (m / 10 ^ (4 - j)) (by decide : 0 < 10))
    rw [hbyte] at hn'
    omega
  have h0 := hd 0 (by decide)
  have h1 := hd 1 (by decide)
  have h2 := hd 2 (by decide)
  have h3 := hd 3 (by decide)
  have h4 := hd 4 (by decide)
  simp only [Nat.reduceSub, Nat.reducePow, pow_zero, Nat.div_one] at h0 h1 h2 h3 h4
  omega

theorem u16tostr_inj {x y : UInt16} (h : u16tostr x = u16tostr y) : x = y := by
  rw [u16tostr_eq, u16tostr_eq] at h
  exact UInt16.toNat_inj.1 (decimal5_inj (by have := x.toNat_lt; omega)
    (by have := y.toNat_lt; omega) h)

/-! ## `kr_rrkey` -/

/-- `kr_rrkey`: the length of the key, which it returns, and the bytes it writes, the key and a
terminating zero. Well-formed owners fit, so `knot_dname_to_wire` does not fail. -/
def krRrkey (rclass : UInt16) (owner : Dname) (type additional : UInt16) : Nat × List UInt8 :=
  -- `knot_dname_to_wire`, lower-cased in place by `knot_dname_to_lower`
  let name := knotDnameWire (knotDnameToLower owner)
  -- the type is written over the root label
  let key := u16tostr rclass ++ name.dropLast ++ u16tostr type ++ u16tostr additional
  (key.length, key ++ [0])

/-- `KR_RRKEY_LEN`, the size of a key buffer: sixteen bytes and `KNOT_DNAME_MAXLEN`. -/
def krRrkeyLen : Nat := 16 + 255

/-- The key `zi_record_store` files the record under: `kr_rrkey` of its class, owner, type and
`kr_rrset_type_maysig`, read by `map_t` as a C string. It is `none` for an owner with a zero byte,
which it skips. -/
def ziRecordKey (rclass : UInt16) (owner : Dname) (type additional : UInt16) :
    Option (List UInt8) :=
  -- `knot_dname_size(owner) != strlen(owner) + 1`
  if (knotDnameWire owner).length ≠ (mapKey owner).length + 1 then none
  else some ((krRrkey rclass owner type additional).2.takeWhile (· != 0))

/-- `subreq_key`: the key of a sub-request in the worker's trie, `kr_rrkey` of the question with its
type twice, to the length `kr_rrkey` returns. -/
def subreqKey (qclass : UInt16) (qname : Dname) (qtype : UInt16) : List UInt8 :=
  let r := krRrkey qclass qname qtype qtype
  r.2.take r.1

/-- The key `kr_rrkey` returns: the fields, the owner's labels each after its length. -/
theorem take_krRrkey (c : UInt16) (n : Dname) (t a : UInt16) :
    (krRrkey c n t a).2.take (krRrkey c n t a).1 =
      u16tostr c ++ List.lengthPrefixed Nat.toUInt8 (knotDnameToLower n) ++ u16tostr t ++
        u16tostr a := by
  rw [krRrkey, knotDnameWire, List.dropLast_concat]
  exact List.take_left

/-- What `kr_rrkey` writes: the key, then its terminator. -/
theorem krRrkey_snd (c : UInt16) (n : Dname) (t a : UInt16) :
    (krRrkey c n t a).2 = (krRrkey c n t a).2.take (krRrkey c n t a).1 ++ [0] := by
  simp only [krRrkey, List.take_left]

theorem length_krRrkey (c : UInt16) (n : Dname) (t a : UInt16) :
    (krRrkey c n t a).1 = 15 + (List.lengthPrefixed Nat.toUInt8 (knotDnameToLower n)).length := by
  rw [krRrkey, knotDnameWire, List.dropLast_concat]
  simp only [List.length_append, u16tostr_eq, length_decimal5]
  omega

theorem knotTolower_ne_zero {b : UInt8} (hb : b ≠ 0) : knotTolower b ≠ 0 := by
  unfold knotTolower
  split_ifs with h
  · -- an upper-case letter moves up by `0x20`
    intro h0
    have h1 := congrArg UInt8.toNat h0
    have h2 := UInt8.le_iff_toNat_le.1 h.2
    simp only [UInt8.toNat_add, UInt8.reduceToNat] at h1 h2
    omega
  · exact hb

/-- Lower-casing keeps a name valid. -/
theorem Ta.ValidName.toLower {n : Dname} (hn : ValidName n) : ValidName (knotDnameToLower n) := by
  intro l hl
  obtain ⟨l', hl', rfl⟩ := List.mem_map.1 hl
  obtain ⟨hpos, hle, hbytes⟩ := hn l' hl'
  refine ⟨by rw [List.length_map]; exact hpos, by rw [List.length_map]; exact hle, ?_⟩
  intro b hb
  obtain ⟨b', hb', rfl⟩ := List.mem_map.1 hb
  exact knotTolower_ne_zero (hbytes b' hb')

/-- The labels of a valid name, each after its length, hold no zero byte. -/
theorem zero_not_mem_lengthPrefixed {n : Dname} (hn : ValidName n) :
    (0 : UInt8) ∉ List.lengthPrefixed Nat.toUInt8 n := by
  rw [← mapKey_eq hn, mapKey]
  intro h0
  have := List.mem_takeWhile_imp h0
  simp at this

/-- For a valid owner, no zero byte comes before the terminator. -/
theorem zero_not_mem_take_krRrkey (c : UInt16) {n : Dname} (t a : UInt16) (hn : ValidName n) :
    (0 : UInt8) ∉ (krRrkey c n t a).2.take (krRrkey c n t a).1 := by
  rw [take_krRrkey]
  simp only [List.mem_append, not_or]
  exact ⟨⟨⟨zero_not_mem_decimal5 _ |> (u16tostr_eq c ▸ ·), zero_not_mem_lengthPrefixed (ValidName.toLower hn)⟩,
    u16tostr_eq t ▸ zero_not_mem_decimal5 _⟩, u16tostr_eq a ▸ zero_not_mem_decimal5 _⟩

/-- For a valid owner, `map_t` reads the key `kr_rrkey` returns. -/
theorem ziRecordKey_eq (c : UInt16) {n : Dname} (t a : UInt16) (hn : ValidName n) :
    ziRecordKey c n t a = some ((krRrkey c n t a).2.take (krRrkey c n t a).1) := by
  have hsize : (knotDnameWire n).length = (mapKey n).length + 1 := by
    rw [mapKey_eq hn, knotDnameWire, List.length_append, List.length_singleton]
  rw [ziRecordKey, if_neg (not_not.2 hsize)]
  have hnz := zero_not_mem_take_krRrkey c t a hn
  have hsnd := krRrkey_snd c n t a
  generalize (krRrkey c n t a).2.take (krRrkey c n t a).1 = key at hnz hsnd ⊢
  -- the C string ends at the terminator
  rw [hsnd, List.takeWhile_append_of_pos, List.takeWhile_cons_of_neg (by simp), List.append_nil]
  intro b hb
  simp only [bne_iff_ne, ne_eq]
  rintro rfl
  exact hnz hb

/-- Keys of equal length agree in their fixed fields and in the owner. -/
theorem take_krRrkey_inj {c1 c2 t1 t2 a1 a2 : UInt16} {n1 n2 : Dname} (hn1 : ValidName n1)
    (hn2 : ValidName n2)
    (h : (krRrkey c1 n1 t1 a1).2.take (krRrkey c1 n1 t1 a1).1 =
      (krRrkey c2 n2 t2 a2).2.take (krRrkey c2 n2 t2 a2).1) :
    c1 = c2 ∧ knotDnameToLower n1 = knotDnameToLower n2 ∧ t1 = t2 ∧ a1 = a2 := by
  rw [take_krRrkey, take_krRrkey] at h
  have h5 : ∀ x : UInt16, (u16tostr x).length = 5 := fun x => by rw [u16tostr_eq, length_decimal5]
  -- the class comes first, the type and the last number last, five bytes each
  simp only [List.append_assoc] at h
  obtain ⟨hc, h⟩ := List.append_inj h (by rw [h5, h5])
  obtain ⟨hn, hta⟩ := List.append_inj' h (by simp only [List.length_append, h5])
  obtain ⟨ht, ha⟩ := List.append_inj hta (by rw [h5, h5])
  refine ⟨u16tostr_inj hc, ?_, u16tostr_inj ht, u16tostr_inj ha⟩
  have hl1 := ValidName.toLower hn1
  have hl2 := ValidName.toLower hn2
  rw [← mapKey_eq hl1, ← mapKey_eq hl2] at hn
  exact mapKey_inj hl1 hl2 hn

/-- RR keys are injective and string-safe. `u16tostr` writes the zero-padded decimal digits of its
argument. For valid owners, the key `kr_rrkey` returns, with its length, determines the class,
the owner up to letter case, the type and the last number, and is determined by them. The key
holds no zero byte, so the C string that `map_t` reads is the key that the worker's trie takes. -/
theorem krRrkey_injective :
    (∀ num : UInt16, u16tostr num = decimal5 num.toNat) ∧
    (∀ (c1 c2 t1 t2 a1 a2 : UInt16) (n1 n2 : Dname), ValidName n1 → ValidName n2 →
      0 < (krRrkey c1 n1 t1 a1).1 ∧
      ((krRrkey c1 n1 t1 a1).1 = (krRrkey c2 n2 t2 a2).1 ∧
          (krRrkey c1 n1 t1 a1).2.take (krRrkey c1 n1 t1 a1).1 =
            (krRrkey c2 n2 t2 a2).2.take (krRrkey c2 n2 t2 a2).1 ↔
        c1 = c2 ∧ knotDnameToLower n1 = knotDnameToLower n2 ∧ t1 = t2 ∧ a1 = a2)) ∧
    (∀ (c t a : UInt16) (n : Dname), ValidName n →
      (0 : UInt8) ∉ (krRrkey c n t a).2.take (krRrkey c n t a).1 ∧
      ziRecordKey c n t a = some ((krRrkey c n t a).2.take (krRrkey c n t a).1) ∧
      ziRecordKey c n t t = some (subreqKey c n t)) := by
  refine ⟨u16tostr_eq, fun c1 c2 t1 t2 a1 a2 n1 n2 hn1 hn2 => ⟨?_, ?_, ?_⟩,
    fun c t a n hn => ⟨zero_not_mem_take_krRrkey c t a hn, ziRecordKey_eq c t a hn,
      ziRecordKey_eq c t t hn⟩⟩
  · rw [length_krRrkey]
    omega
  · exact fun h => take_krRrkey_inj hn1 hn2 h.2
  · -- the key reads the owner only lower-cased
    rintro ⟨rfl, hlow, rfl, rfl⟩
    have hkey : krRrkey c1 n1 t1 a1 = krRrkey c1 n2 t1 a1 := by
      simp only [krRrkey, hlow]
    rw [hkey]
    exact ⟨rfl, rfl⟩

/-- The keys of `ex.` and `EX.` agree: the owner is compared without letter case. -/
theorem krRrkey_injective_ex :
    ValidName [[0x65, 0x78]] ∧ ValidName [[0x45, 0x58]] ∧
      (krRrkey 1 [[0x65, 0x78]] 1 1).2.take (krRrkey 1 [[0x65, 0x78]] 1 1).1 =
        (krRrkey 1 [[0x45, 0x58]] 1 1).2.take (krRrkey 1 [[0x45, 0x58]] 1 1).1 :=
  ⟨by decide, by decide, ((krRrkey_injective.2.1 1 1 1 1 1 1 _ _ (by decide) (by decide)).2.2
    ⟨rfl, by decide, rfl, rfl⟩).2⟩

end KnotResolver
