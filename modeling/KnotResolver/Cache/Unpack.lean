import KnotResolver.Cache.Keys

/-!
# Decoding a cache key (`kr_unpack_cache_key`, `knot_dname_lf2wire`)

`kr_unpack_cache_key` turns an exact key back into a name and a type: it looks for the first
zero byte that is preceded by another zero or by the start of the key (`CACHE_KEY_DEF`), checks
that the tag `E` follows, and converts the lookup format before the zeros with
`knot_dname_lf2wire`. That function walks the lookup format from its end, finds each label by
scanning back to the zero byte before it, and writes the labels out in wire order; a missing
final zero is allowed.

Reads are modelled as `Option`: a read past the bytes given is `none`. In the lookup format of a
name with nonempty labels free of zero bytes, a zero never comes first and never follows another
(`List.pos_and_pred_ne_of_getElem?_terminated`). The first such place is therefore the end of
the name, and decoding an exact key gives back the wire form of the name and the type the key
stores (`krUnpackCacheKey_keyExactType`).
-/

namespace KnotResolver.Cache

open Ta

/-- `KNOT_DNAME_MAXLEN`. -/
def knotDnameMaxlen : Nat := 255

/-! ## `knot_dname_lf2wire` -/

/-- `while (i >= 0 && lf[i]) --i;` from `i = k - 1`: the index after the zero byte found, or 0,
which is `label_start`. -/
def lf2wireLabelStart (lf : List UInt8) : Nat → Option Nat
  | 0 => some 0
  | i + 1 => lf[i]?.bind fun b => if b ≠ 0 then lf2wireLabelStart lf i else some (i + 1)

theorem le_of_lf2wireLabelStart {lf : List UInt8} :
    ∀ {k s : Nat}, lf2wireLabelStart lf k = some s → s ≤ k
  | 0, _, h => by
    cases h
    exact Nat.le_refl 0
  | i + 1, s, h => by
    rw [lf2wireLabelStart] at h
    obtain ⟨b, -, hb⟩ := Option.bind_eq_some_iff.1 h
    split_ifs at hb
    · exact Nat.le_succ_of_le (le_of_lf2wireLabelStart hb)
    · cases hb
      exact Nat.le_refl _

/-- The label loop of `knot_dname_lf2wire` with `e = label_end + 1`: the label that ends at
`label_end`, then the ones before it, as they are written out. The `memcpy` of a label reads
bytes the scan has read. -/
def lf2wireLoop (lf : List UInt8) (e : Nat) : Option (Except Int (List UInt8)) :=
  if he : e = 0 then some (.ok [])
  else
    match h : lf2wireLabelStart lf (e - 1) with
    | none => none
    | some labelStart =>
      let labelLen := e - 1 - labelStart
      if labelLen > 63 ∨ labelLen = 0 then some (.error (krError EILSEQ))
      else
        have : labelStart < e := by
          have := le_of_lf2wireLabelStart h
          omega
        (lf2wireLoop lf labelStart).map <| Except.map fun rest =>
          labelLen.toUInt8 :: ((lf.drop labelStart).take labelLen ++ rest)
termination_by e

/-- `knot_dname_lf2wire` of the first `len` bytes of `lf`: the labels, then the final zero. When
the last byte is not zero, the final zero of the lookup format is taken as missing and `len`
grows by one, as a `uint8_t`. -/
def knotDnameLf2wire (len : UInt8) (lf : List UInt8) : Option (Except Int (List UInt8)) :=
  if len = 0 then some (.ok [0])
  else
    match lf[len.toNat - 1]? with
    | none => none
    | some last =>
      let len := if last ≠ 0 then len + 1 else len
      (lf2wireLoop lf len.toNat).map (Except.map (· ++ [0]))

/-! ## `kr_unpack_cache_key` -/

/-- The `CACHE_KEY_DEF` test at `tag`: a zero byte before it, and another zero, or the start of
the key, before that. -/
def cacheKeyTagAt (key : List UInt8) (tag : Nat) : Bool :=
  key[tag - 1]? == some 0 && (tag == 1 || key[tag - 2]? == some 0)

/-- The loop of `kr_unpack_cache_key` from `tag` on: the offset of the tag byte after the name,
`none` when there is none, and `EINVAL` when the tag is not `E`. -/
def unpackFindTag (key : List UInt8) (tag : Nat) : Except Int (Option Nat) :=
  if tag < key.length then
    if cacheKeyTagAt key tag then
      if key[tag]? ≠ some 0x45 then .error (krError EINVAL) else .ok (some tag)
    else unpackFindTag key (tag + 1)
  else .ok none
termination_by key.length - tag

/-- `kr_unpack_cache_key`: the wire form of the name of an exact key and the type it stores, read
in host (little-endian) order after the tag. -/
def krUnpackCacheKey (key : List UInt8) : Option (Except Int (List UInt8 × UInt16)) :=
  match unpackFindTag key 1 with
  | .error e => some (.error e)
  | .ok none => some (.error (krError EINVAL))
  | .ok (some tag) =>
    let len := tag - 1
    if len > knotDnameMaxlen then some (.error (krError EINVAL))
    else
      match knotDnameLf2wire len.toUInt8 key with
      | none => none
      | some (.error ret) => some (.error (krError ret))
      | some (.ok wire) =>
        match key[tag + 1]?, key[tag + 2]? with
        | some lo, some hi => some (.ok (wire, (lo.toNat + 256 * hi.toNat).toUInt16))
        | _, _ => none

/-! ## The lookup format of a name, converted back -/

section Lf

variable {n : Dname}

/-- The labels of a wire name: nonempty, free of zero bytes and at most 63 bytes long. -/
def WireLabels (n : Dname) : Prop := LfName n ∧ ∀ l ∈ n, l.length ≤ 63

instance : DecidablePred WireLabels := fun n =>
  inferInstanceAs (Decidable (LfName n ∧ ∀ l ∈ n, l.length ≤ 63))

theorem WireLabels.tail {l : Label} {ns : Dname} (h : WireLabels (l :: ns)) : WireLabels ns :=
  ⟨fun l' hl' => h.1 l' (List.mem_cons_of_mem _ hl'),
    fun l' hl' => h.2 l' (List.mem_cons_of_mem _ hl')⟩

theorem knotDnameLf_cons (l : Label) (ns : Dname) :
    knotDnameLf (l :: ns) = knotDnameLf ns ++ (l ++ [0]) := by
  simp [knotDnameLf_eq_terminated]

/-- The lookup format of a name is empty or ends in a zero byte. -/
theorem knotDnameLf_eq_nil_or (n : Dname) :
    knotDnameLf n = [] ∨ ∃ p, knotDnameLf n = p ++ [0] := by
  cases n with
  | nil => exact .inl rfl
  | cons l ns => exact .inr ⟨knotDnameLf ns ++ l, by rw [knotDnameLf_cons, List.append_assoc]⟩

/-- The scan for the start of a label stops at the zero byte that ends the lookup format before
it, or at the start. -/
theorem lf2wireLabelStart_label {p l : List UInt8} (hp : p = [] ∨ ∃ q, p = q ++ [0])
    (hl : (0 : UInt8) ∉ l) (r : List UInt8) :
    ∀ j ≤ l.length, lf2wireLabelStart (p ++ l ++ r) (p.length + j) = some p.length
  | 0, _ => by
    rcases hp with rfl | ⟨q, rfl⟩
    · rfl
    · rw [Nat.add_zero, List.length_append, List.length_singleton, lf2wireLabelStart,
        List.append_assoc, List.append_assoc, List.getElem?_append_right (Nat.le_refl _),
        Nat.sub_self, List.singleton_append, List.getElem?_cons_zero, Option.bind_some,
        if_neg (not_not.2 rfl)]
  | j + 1, hj => by
    have hb : (p ++ l ++ r)[p.length + j]? = some (l.get ⟨j, hj⟩) := by
      rw [List.append_assoc, List.getElem?_append_right (by omega), Nat.add_sub_cancel_left,
        List.getElem?_append_left hj, List.getElem?_eq_getElem hj]
      rfl
    have hne : l.get ⟨j, hj⟩ ≠ 0 := fun h0 => hl (h0 ▸ List.get_mem l ⟨j, hj⟩)
    rw [← Nat.add_assoc, lf2wireLabelStart, hb, Option.bind_some, if_pos hne]
    exact lf2wireLabelStart_label hp hl r j (by omega)

theorem lf2wireLoop_zero (lf : List UInt8) : lf2wireLoop lf 0 = some (.ok []) := by
  rw [lf2wireLoop, dif_pos rfl]

/-- One round of the label loop, once the scan has found where the label starts. -/
theorem lf2wireLoop_of_labelStart {lf : List UInt8} {e s : Nat} (he : e ≠ 0)
    (hs : lf2wireLabelStart lf (e - 1) = some s) :
    lf2wireLoop lf e =
      if e - 1 - s > 63 ∨ e - 1 - s = 0 then some (.error (krError EILSEQ))
      else (lf2wireLoop lf s).map <| Except.map fun rest =>
        (e - 1 - s).toUInt8 :: ((lf.drop s).take (e - 1 - s) ++ rest) := by
  rw [lf2wireLoop, dif_neg he]
  split
  · rename_i h
    rw [hs] at h
    cases h
  · rename_i s' h
    rw [hs] at h
    cases h
    rfl

/-- The label loop over the lookup format of a name, followed by anything, writes the labels of
the name with their lengths. -/
theorem lf2wireLoop_knotDnameLf (rest : List UInt8) :
    ∀ {n : Dname}, WireLabels n →
      lf2wireLoop (knotDnameLf n ++ rest) (knotDnameLf n).length =
        some (.ok (List.lengthPrefixed Nat.toUInt8 n))
  | [], _ => lf2wireLoop_zero _
  | l :: ns, hn => by
    obtain ⟨hne, hl⟩ := hn.1 l List.mem_cons_self
    have hlen := hn.2 l List.mem_cons_self
    have hpos := List.length_pos_of_ne_nil hne
    have hstart := lf2wireLabelStart_label (knotDnameLf_eq_nil_or ns) hl (0 :: rest) l.length
      (Nat.le_refl _)
    have hrest := lf2wireLoop_knotDnameLf (l ++ 0 :: rest) hn.tail
    -- the lookup format of `l :: ns` is that of `ns`, then `l` and its zero byte
    have hlf : knotDnameLf (l :: ns) ++ rest = knotDnameLf ns ++ l ++ 0 :: rest := by
      rw [knotDnameLf_cons]
      simp
    have he : (knotDnameLf (l :: ns)).length = (knotDnameLf ns).length + l.length + 1 := by
      rw [knotDnameLf_cons]
      simp [Nat.add_assoc]
    rw [hlf, he, lf2wireLoop_of_labelStart (by omega) (by rw [Nat.add_sub_cancel]; exact hstart),
      Nat.add_sub_cancel, Nat.add_sub_cancel_left, if_neg (by omega), List.append_assoc, hrest,
      List.drop_left, List.take_left' rfl, List.lengthPrefixed_cons]
    rfl

/-- `knot_dname_lf2wire` of the lookup format of a name, with its final zero, is the wire form
of the name. -/
theorem knotDnameLf2wire_knotDnameLf (hn : WireLabels n) (hsize : (knotDnameLf n).length < 256)
    (rest : List UInt8) :
    knotDnameLf2wire (knotDnameLf n).length.toUInt8 (knotDnameLf n ++ rest) =
      some (.ok (knotDnameWire n)) := by
  rcases knotDnameLf_eq_nil_or n with h0 | ⟨p, hp⟩
  · have hnil : n = [] := by
      cases n with
      | nil => rfl
      | cons l ns => simp [knotDnameLf_cons] at h0
    subst hnil
    rfl
  · have hlen : (knotDnameLf n).length.toUInt8.toNat = (knotDnameLf n).length := by
      simp only [Nat.toUInt8, UInt8.toNat_ofNat']
      omega
    have hpos : (knotDnameLf n).length ≠ 0 := by
      rw [hp]
      simp
    have hlast : (knotDnameLf n ++ rest)[(knotDnameLf n).length - 1]? = some 0 := by
      rw [List.getElem?_append_left (by omega), hp]
      simp
    rw [knotDnameLf2wire, if_neg (fun h => hpos (by rw [← hlen, h]; rfl)), hlen, hlast]
    dsimp only
    rw [if_neg (not_not.2 rfl), hlen, lf2wireLoop_knotDnameLf rest hn]
    rfl

/-- `knot_dname_lf2wire` of the lookup format of a name without its final zero is the wire form
of the name too. -/
theorem knotDnameLf2wire_knotDnameLf_pred (hn : WireLabels n)
    (hsize : (knotDnameLf n).length < 256) (rest : List UInt8) :
    knotDnameLf2wire ((knotDnameLf n).length - 1).toUInt8 (knotDnameLf n ++ rest) =
      some (.ok (knotDnameWire n)) := by
  cases n with
  | nil => rfl
  | cons l ns =>
    obtain ⟨hne, hl⟩ := hn.1 l List.mem_cons_self
    have hpos := List.length_pos_of_ne_nil hne
    have hlf : knotDnameLf (l :: ns) ++ rest = (knotDnameLf ns ++ l) ++ 0 :: rest := by
      rw [knotDnameLf_cons]
      simp
    have hlenlf : (knotDnameLf (l :: ns)).length = (knotDnameLf ns ++ l).length + 1 := by
      rw [knotDnameLf_cons, ← List.append_assoc, List.length_append, List.length_singleton]
    have hlen : ((knotDnameLf (l :: ns)).length - 1).toUInt8.toNat =
        (knotDnameLf ns ++ l).length := by
      simp only [Nat.toUInt8, UInt8.toNat_ofNat']
      omega
    -- the byte before the missing zero is the last letter of the first label
    have hlast : ((knotDnameLf ns ++ l) ++ 0 :: rest)[(knotDnameLf ns ++ l).length - 1]? =
        some (l.getLast hne) := by
      rw [List.getElem?_append_left (by simp; omega), ← List.getLast?_eq_getElem?,
        List.getLast?_append_of_ne_nil _ hne, List.getLast?_eq_some_getLast hne]
    have hnz : l.getLast hne ≠ 0 := fun h0 => hl (h0 ▸ List.getLast_mem hne)
    have hsucc : (((knotDnameLf (l :: ns)).length - 1).toUInt8 + 1).toNat =
        (knotDnameLf (l :: ns)).length := by
      rw [UInt8.toNat_add, UInt8.toNat_one]
      simp only [Nat.toUInt8, UInt8.toNat_ofNat']
      omega
    have hne0 : ((knotDnameLf (l :: ns)).length - 1).toUInt8 ≠ 0 := by
      intro h0
      have h0' := congrArg UInt8.toNat h0
      rw [hlen, List.length_append, UInt8.toNat_zero] at h0'
      omega
    rw [knotDnameLf2wire, if_neg hne0, hlf, hlen, hlast]
    dsimp only
    rw [if_pos hnz, hsucc, ← hlf, lf2wireLoop_knotDnameLf rest hn]
    rfl

theorem length_lengthPrefixed (n : Dname) :
    (List.lengthPrefixed Nat.toUInt8 n).length = (knotDnameLf n).length := by
  induction n with
  | nil => rfl
  | cons l ns ih =>
    rw [List.lengthPrefixed_cons, knotDnameLf_cons]
    simp only [List.length_cons, List.length_append, ih, List.length_nil]
    omega

theorem length_knotDnameWire (n : Dname) :
    (knotDnameWire n).length = (knotDnameLf n).length + 1 := by
  rw [knotDnameWire, List.length_append, length_lengthPrefixed, List.length_singleton]

/-! ## Finding the end of the name -/

/-- The loop of `kr_unpack_cache_key` stops at the first place the `CACHE_KEY_DEF` test holds,
when the tag byte there is `E`. The induction is on the distance left to that place. -/
theorem unpackFindTag_first {key : List UInt8} {stop : Nat} (hstop : stop < key.length)
    (hhit : cacheKeyTagAt key stop = true) (hE : key[stop]? = some 0x45) :
    ∀ d tag, stop - tag = d → tag ≤ stop →
      (∀ t, tag ≤ t → t < stop → cacheKeyTagAt key t = false) →
      unpackFindTag key tag = .ok (some stop)
  | 0, tag, hd, hle, _ => by
    obtain rfl : tag = stop := by omega
    rw [unpackFindTag, if_pos hstop, if_pos hhit, if_neg (not_not.2 hE)]
  | d + 1, tag, hd, hle, hmiss => by
    have hfalse := hmiss tag (Nat.le_refl _) (by omega)
    rw [unpackFindTag, if_pos (by omega), if_neg (by rw [hfalse]; decide)]
    exact unpackFindTag_first hstop hhit hE d (tag + 1) (by omega) (by omega)
      fun t h₁ h₂ => hmiss t (by omega) h₂

/-- In an exact key, the `CACHE_KEY_DEF` test first holds right after the lookup format and the
zero byte that follows it: inside the lookup format a zero is never first and never follows
another. -/
theorem unpackFindTag_exact {n : Dname} (hn : LfName n) (lo hi : UInt8) :
    unpackFindTag (knotDnameLf n ++ [0, 0x45, lo, hi]) 1 =
      .ok (some ((knotDnameLf n).length + 1)) := by
  have hws : ∀ w ∈ n.reverse, w ≠ [] ∧ (0 : UInt8) ∉ w := fun w hw => hn w (List.mem_reverse.1 hw)
  have hkey : ∀ i, (knotDnameLf n ++ [0, 0x45, lo, hi])[(knotDnameLf n).length + i]? =
      [0, 0x45, lo, hi][i]? := fun i => by
    rw [List.getElem?_append_right (by omega), Nat.add_sub_cancel_left]
  refine unpackFindTag_first (by simp) ?_ (hkey 1) _ 1 rfl (by omega) ?_
  · -- the separating zero, after the root or after the final zero of the lookup format
    have hsep := hkey 0
    rw [Nat.add_zero] at hsep
    simp only [cacheKeyTagAt, Nat.add_sub_cancel, hsep]
    rcases knotDnameLf_eq_nil_or n with h0 | ⟨p, hp⟩
    · simp [h0]
    · have hlast : (knotDnameLf n ++ [0, 0x45, lo, hi])[(knotDnameLf n).length - 1]? =
          some 0 := by
        rw [List.getElem?_append_left (by rw [hp]; simp), hp]
        simp
      simp [hlast]
  · intro t h₁ h₂
    have hlt : t - 1 < (knotDnameLf n).length := by omega
    simp only [cacheKeyTagAt, List.getElem?_append_left hlt,
      List.getElem?_append_left (show t - 2 < (knotDnameLf n).length by omega)]
    by_cases h0 : (knotDnameLf n)[t - 1]? = some 0
    · obtain ⟨hpos, hprev⟩ := List.pos_and_pred_ne_of_getElem?_terminated hws h0
      rw [show t - 1 - 1 = t - 2 by omega, ← knotDnameLf_eq_terminated] at hprev
      simp [hprev, show t ≠ 1 by omega]
    · simp [h0]

/-! ## Decoding an exact key -/

theorem toUInt16_bytes (t : UInt16) :
    (t.toUInt8.toNat + 256 * (t >>> 8).toUInt8.toNat).toUInt16 = t := by
  apply UInt16.toNat_inj.1
  have h8 : (8 : UInt16).toNat % 16 = 8 := rfl
  simp only [UInt16.toNat_toUInt8, UInt16.toNat_shiftRight, Nat.toUInt16, UInt16.toNat_ofNat', h8,
    Nat.shiftRight_eq_div_pow]
  have := t.toNat_lt
  omega

/-- Decoding inverts encoding: `kr_unpack_cache_key` of the exact key of a wire name and a type
gives the wire form of the name and the type the key stores, and `knot_dname_lf2wire` gives the
wire form back from the lookup format with or without its final zero. -/
theorem krUnpackCacheKey_keyExactType {n : Dname} (hn : WireLabels n)
    (hsize : (knotDnameWire n).length ≤ knotDnameMaxlen) {type : UInt16}
    (ht : ExactKeyType type) :
    krUnpackCacheKey (keyExactType (krDnameLf n false) type) =
        some (.ok (knotDnameWire n, keyType type)) ∧
      knotDnameLf2wire (krDnameLf n false).length.toUInt8 (krDnameLf n false) =
        some (.ok (knotDnameWire n)) ∧
      knotDnameLf2wire ((krDnameLf n false).length - 1).toUInt8 (krDnameLf n false) =
        some (.ok (knotDnameWire n)) := by
  have hlf : krDnameLf n false = knotDnameLf n := by simp [krDnameLf]
  have hlen := length_knotDnameWire n
  have hlt : (knotDnameLf n).length < 256 := by
    unfold knotDnameMaxlen at hsize
    omega
  have hwire := knotDnameLf2wire_knotDnameLf hn hlt []
  have hwire' := knotDnameLf2wire_knotDnameLf_pred hn hlt []
  rw [List.append_nil] at hwire hwire'
  rw [hlf]
  refine ⟨?_, hwire, hwire'⟩
  -- the key: the lookup format, the separating zero, `E` and the type in two bytes
  rw [keyExactType_eq ht, krUnpackCacheKey, unpackFindTag_exact hn.1]
  dsimp only
  rw [Nat.add_sub_cancel, if_neg (by unfold knotDnameMaxlen at hsize ⊢; omega),
    knotDnameLf2wire_knotDnameLf hn hlt]
  dsimp only
  rw [List.getElem?_append_right (by omega), List.getElem?_append_right (by omega),
    show (knotDnameLf n).length + 1 + 1 - (knotDnameLf n).length = 2 by omega,
    show (knotDnameLf n).length + 1 + 2 - (knotDnameLf n).length = 3 by omega]
  dsimp only [List.getElem?_cons_succ, List.getElem?_cons_zero]
  rw [toUInt16_bytes]

theorem krUnpackCacheKey_a_type_a :
    WireLabels [[0x61]] ∧ (knotDnameWire [[0x61]]).length ≤ knotDnameMaxlen ∧ ExactKeyType 1 ∧
      krUnpackCacheKey (keyExactType (krDnameLf [[0x61]] false) 1) =
        some (.ok (knotDnameWire [[0x61]], keyType 1)) :=
  have hn : WireLabels [[0x61]] := by decide
  have hsize : (knotDnameWire [[0x61]]).length ≤ knotDnameMaxlen := by decide
  have ht : ExactKeyType 1 := by decide
  ⟨hn, hsize, ht, (krUnpackCacheKey_keyExactType hn hsize ht).1⟩

end Lf

end KnotResolver.Cache
