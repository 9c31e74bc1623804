import KnotResolver.Terminated
import KnotResolver.Cache.Stash

/-!
# The key space of the cache

Every record of the cache sits under a key that starts with the lookup format of a name (its
labels right to left, each followed by a zero byte), then a zero and a tag: `E` and the type for
an exact match (`key_exact_type`), `1` and the name within the zone for an NSEC (`key_NSEC1`),
`3`, the chain's parameter hash and the NSEC3 hash for an NSEC3 (`key_NSEC3`); the version record
has the four bytes `VERS`. For names whose labels are nonempty and hold no zero byte, a zero
right after a terminator, or a zero at the start, can only be the one before the tag
(`List.terminated_tag_inj`), so:

* exact keys are equal exactly when the names are and the types are after CNAME and DNAME are
  mapped to NS (`keyExactType_eq_iff`);
* the NSEC1 keys of names in a zone are equal exactly when the names are (`keyNsec1_eq_iff`);
  names whose lookup format is shorter than the zone's all get the null key;
* NSEC3 keys are equal exactly when zone, parameter hash and hash are (`keyNsec3Common_eq_iff`);
* no exact key is an NSEC1, NSEC3 or version key.
-/

namespace KnotResolver.Cache

/-- The names `kr_dname_lf` is meant for: labels of a wire name are nonempty, and
`check_dname_for_lf` rejects a zero byte in a label. -/
def LfName (n : Dname) : Prop := ∀ l ∈ n, l ≠ [] ∧ (0 : UInt8) ∉ l

instance : DecidablePred LfName := fun n => inferInstanceAs (Decidable (∀ l ∈ n, _))

/-- The types `key_exact_type` makes keys for: RRSIG has none, NSEC and NSEC3 are kept under keys
of their own. -/
def ExactKeyType (type : UInt16) : Prop :=
  type ≠ knotRrtypeRrsig ∧ type ≠ knotRrtypeNsec ∧ type ≠ knotRrtypeNsec3

instance (type : UInt16) : Decidable (ExactKeyType type) := by
  unfold ExactKeyType
  infer_instance

/-- The key of the cache's version record, read by `assert_right_version`. -/
def keyVers : List UInt8 := [0x56, 0x45, 0x52, 0x53]

/-- The type an exact key stores (`k->type`): CNAME and DNAME are kept with NS. -/
def keyType (type : UInt16) : UInt16 :=
  if type = knotRrtypeCname ∨ type = knotRrtypeDname then knotRrtypeNs else type

/-- The name whose lookup format `kr_dname_lf` writes: with `add_wildcard`, `*` in front. -/
def withWildcard (n : Dname) (addWildcard : Bool) : Dname :=
  if addWildcard then asteriskLabel :: n else n

/-! ## Lookup formats -/

theorem knotDnameLf_eq_terminated (n : Dname) : knotDnameLf n = List.terminated 0 n.reverse :=
  rfl

theorem knotDnameLf_append (pre n : Dname) :
    knotDnameLf (pre ++ n) = knotDnameLf n ++ knotDnameLf pre := by
  simp [knotDnameLf_eq_terminated]

theorem krDnameLf_eq (n : Dname) (addWildcard : Bool) :
    krDnameLf n addWildcard = knotDnameLf (withWildcard n addWildcard) := by
  cases addWildcard <;> simp [krDnameLf, withWildcard, knotDnameLf, asteriskLabel]

theorem LfName.words {n : Dname} (hn : LfName n) :
    ∀ l ∈ n.reverse, l ≠ [] ∧ (0 : UInt8) ∉ l :=
  fun l hl => hn l (List.mem_reverse.1 hl)

theorem LfName.withWildcard {n : Dname} (hn : LfName n) (addWildcard : Bool) :
    LfName (withWildcard n addWildcard) := by
  cases addWildcard with
  | false => exact hn
  | true =>
    intro l hl
    rcases List.mem_cons.1 hl with rfl | hl
    · decide
    · exact hn l hl

theorem LfName.of_suffix {pre n : Dname} (hn : LfName (pre ++ n)) : LfName pre :=
  fun l hl => hn l (List.mem_append_left n hl)

theorem suffix_withWildcard {z n : Dname} (h : z <:+ n) (addWildcard : Bool) :
    z <:+ withWildcard n addWildcard := by
  cases addWildcard with
  | false => exact h
  | true => exact h.trans (List.suffix_cons _ _)

/-! ## Exact keys -/

/-- The two little-endian bytes of a type determine it. -/
theorem eq_of_bytes16_eq {a b : UInt16} (hlo : a.toUInt8 = b.toUInt8)
    (hhi : (a >>> 8).toUInt8 = (b >>> 8).toUInt8) : a = b := by
  have e0 := congrArg UInt8.toNat hlo
  have e1 := congrArg UInt8.toNat hhi
  simp only [UInt16.toNat_toUInt8, UInt16.toNat_shiftRight] at e0 e1
  have ha := a.toNat_lt
  have hb := b.toNat_lt
  apply UInt16.toNat_inj.1
  simp at e0 e1
  omega

theorem keyExactTypeMaypkt_eq {type : UInt16} (ht : type ≠ knotRrtypeRrsig) (lf : List UInt8) :
    keyExactTypeMaypkt lf type =
      lf ++ [0, 0x45, (keyType type).toUInt8, (keyType type >>> 8).toUInt8] := by
  simp [keyExactTypeMaypkt, keyType, ht]

theorem keyExactType_eq {type : UInt16} (ht : ExactKeyType type) (lf : List UInt8) :
    keyExactType lf type =
      lf ++ [0, 0x45, (keyType type).toUInt8, (keyType type >>> 8).toUInt8] := by
  obtain ⟨hrrsig, hnsec, hnsec3⟩ := ht
  simp only [keyExactType, hnsec, hnsec3, or_self, if_false]
  exact keyExactTypeMaypkt_eq hrrsig lf

theorem keyExactType_eq_iff {a b : Dname} {s t : UInt16} (ha : LfName a) (hb : LfName b)
    (hs : ExactKeyType s) (ht : ExactKeyType t) :
    keyExactType (knotDnameLf a) s = keyExactType (knotDnameLf b) t ↔
      a = b ∧ keyType s = keyType t := by
  rw [keyExactType_eq hs, keyExactType_eq ht]
  constructor
  · intro h
    obtain ⟨hab, -, hbytes⟩ := List.terminated_tag_inj ha.words hb.words h
    obtain ⟨hlo, hhi⟩ := List.cons_eq_cons.1 hbytes
    exact ⟨List.reverse_injective hab, eq_of_bytes16_eq hlo (List.cons_eq_cons.1 hhi).1⟩
  · rintro ⟨rfl, hst⟩
    rw [hst]

/-- An exact key holds a zero byte, the one before its tag; the version key holds none. -/
theorem keyExactType_ne_keyVers {a : Dname} {s : UInt16} (hs : ExactKeyType s) :
    keyExactType (knotDnameLf a) s ≠ keyVers := by
  rw [keyExactType_eq hs]
  intro h
  have hzero : (0 : UInt8) ∈ keyVers := by
    rw [← h]
    exact List.mem_append_right _ List.mem_cons_self
  exact absurd hzero (by decide)

/-! ## NSEC1 keys -/

/-- The NSEC1 key of a name in the zone: the zone's lookup format, `0 '1'`, and the lookup
format of the labels below the zone without its final zero. -/
theorem keyNsec1_append (z pre : Dname) :
    keyNsec1 z (knotDnameLf (pre ++ z)) =
      knotDnameLf z ++ 0 :: 0x31 :: (knotDnameLf pre).dropLast := by
  rw [keyNsec1, knotDnameLf_append, List.length_append]
  split_ifs with hlt hgt
  · omega
  · rw [List.take_left' rfl, List.drop_left' rfl, List.append_assoc]
    rfl
  · -- the name is the apex: nothing below it, and nothing to drop
    have hnil : knotDnameLf pre = [] := List.eq_nil_of_length_eq_zero (by omega)
    simp [hnil]

theorem keyNsec1_krDnameLf {z n : Dname} (h : z <:+ n) (addWildcard : Bool) :
    ∃ pre, withWildcard n addWildcard = pre ++ z ∧
      keyNsec1 z (krDnameLf n addWildcard) =
        knotDnameLf z ++ 0 :: 0x31 :: (knotDnameLf pre).dropLast := by
  obtain ⟨pre, hpre⟩ := suffix_withWildcard h addWildcard
  refine ⟨pre, hpre.symm, ?_⟩
  rw [krDnameLf_eq, ← hpre, keyNsec1_append]

theorem keyNsec1_eq_iff {a b z : Dname} (ha : LfName a) (hb : LfName b) (hza : z <:+ a)
    (hzb : z <:+ b) (w₁ w₂ : Bool) :
    keyNsec1 z (krDnameLf a w₁) = keyNsec1 z (krDnameLf b w₂) ↔
      withWildcard a w₁ = withWildcard b w₂ := by
  obtain ⟨pa, hpa, hka⟩ := keyNsec1_krDnameLf hza w₁
  obtain ⟨pb, hpb, hkb⟩ := keyNsec1_krDnameLf hzb w₂
  rw [hka, hkb, hpa, hpb]
  constructor
  · intro h
    have hdrop := List.cons.inj (List.cons.inj (List.append_cancel_left h)).2
    have hva : LfName pa := LfName.of_suffix (hpa ▸ ha.withWildcard w₁)
    have hvb : LfName pb := LfName.of_suffix (hpb ▸ hb.withWildcard w₂)
    rw [List.reverse_injective (List.dropLast_terminated_inj hva.words hvb.words hdrop.2)]
  · intro h
    rw [List.append_cancel_right h]

theorem keyExactType_ne_keyNsec1 {a z n : Dname} {s : UInt16} (ha : LfName a) (hz : LfName z)
    (hs : ExactKeyType s) (hzn : z <:+ n) (addWildcard : Bool) :
    keyExactType (knotDnameLf a) s ≠ keyNsec1 z (krDnameLf n addWildcard) := by
  obtain ⟨pre, -, hk⟩ := keyNsec1_krDnameLf hzn addWildcard
  rw [keyExactType_eq hs, hk]
  intro h
  -- the tags `E` and `1` would sit at the same place
  have htag := (List.terminated_tag_inj ha.words hz.words h).2.1
  exact absurd htag (by decide)

/-! ## NSEC3 keys -/

/-- The four little-endian bytes of a parameter hash determine it. -/
theorem eq_of_bytes32_eq {a b : UInt32} (h0 : a.toUInt8 = b.toUInt8)
    (h1 : (a >>> 8).toUInt8 = (b >>> 8).toUInt8) (h2 : (a >>> 16).toUInt8 = (b >>> 16).toUInt8)
    (h3 : (a >>> 24).toUInt8 = (b >>> 24).toUInt8) : a = b := by
  have e0 := congrArg UInt8.toNat h0
  have e1 := congrArg UInt8.toNat h1
  have e2 := congrArg UInt8.toNat h2
  have e3 := congrArg UInt8.toNat h3
  simp only [UInt32.toNat_toUInt8, UInt32.toNat_shiftRight] at e0 e1 e2 e3
  have ha := a.toNat_lt
  have hb := b.toNat_lt
  apply UInt32.toNat_inj.1
  simp at e0 e1 e2 e3
  omega

theorem keyNsec3Common_eq_iff {z z' : Dname} (hz : LfName z) (hz' : LfName z') (p q : UInt32)
    (hash hash' : List UInt8) :
    keyNsec3Common z p ++ hash = keyNsec3Common z' q ++ hash' ↔ z = z' ∧ p = q ∧ hash = hash' := by
  constructor
  · intro h
    simp only [keyNsec3Common, List.append_assoc, List.cons_append] at h
    obtain ⟨hzz, -, hrest⟩ := List.terminated_tag_inj hz.words hz'.words h
    simp only [List.cons.injEq] at hrest
    obtain ⟨h0, h1, h2, h3, hh⟩ := hrest
    exact ⟨List.reverse_injective hzz, eq_of_bytes32_eq h0 h1 h2 h3, hh⟩
  · rintro ⟨rfl, rfl, rfl⟩
    rfl

theorem keyExactType_ne_keyNsec3 {a z : Dname} {s : UInt16} (ha : LfName a) (hz : LfName z)
    (hs : ExactKeyType s) (p : UInt32) (hash : List UInt8) :
    keyExactType (knotDnameLf a) s ≠ keyNsec3Common z p ++ hash := by
  rw [keyExactType_eq hs]
  intro h
  simp only [keyNsec3Common, List.append_assoc, List.cons_append] at h
  -- the tags `E` and `3` would sit at the same place
  have htag := (List.terminated_tag_inj ha.words hz.words h).2.1
  exact absurd htag (by decide)

/-! ## The key space -/

theorem cacheKeys_injective_partitioned {a b z z' : Dname} (ha : LfName a) (hb : LfName b)
    (hz : LfName z) (hz' : LfName z') :
    (∀ s t, ExactKeyType s → ExactKeyType t →
      (keyExactType (knotDnameLf a) s = keyExactType (knotDnameLf b) t ↔
        a = b ∧ keyType s = keyType t)) ∧
    (z <:+ a → z <:+ b → ∀ w₁ w₂,
      (keyNsec1 z (krDnameLf a w₁) = keyNsec1 z (krDnameLf b w₂) ↔
        withWildcard a w₁ = withWildcard b w₂)) ∧
    (∀ p q (hash hash' : List UInt8),
      keyNsec3Common z p ++ hash = keyNsec3Common z' q ++ hash' ↔
        z = z' ∧ p = q ∧ hash = hash') ∧
    (∀ s, ExactKeyType s → ∀ w p (hash : List UInt8), z <:+ b →
      keyExactType (knotDnameLf a) s ≠ keyNsec1 z (krDnameLf b w) ∧
      keyExactType (knotDnameLf a) s ≠ keyNsec3Common z p ++ hash ∧
      keyExactType (knotDnameLf a) s ≠ keyVers) := by
  refine ⟨fun s t hs ht => keyExactType_eq_iff ha hb hs ht,
    fun hza hzb w₁ w₂ => keyNsec1_eq_iff ha hb hza hzb w₁ w₂,
    fun p q hash hash' => keyNsec3Common_eq_iff hz hz' p q hash hash', ?_⟩
  intro s hs w p hash hzb
  exact ⟨keyExactType_ne_keyNsec1 ha hz hs hzb w, keyExactType_ne_keyNsec3 ha hz hs p hash,
    keyExactType_ne_keyVers hs⟩

/-- In the zone `ex.`, the NSEC1 keys of `a.ex.` and `*.b.ex.` differ, and `a.ex.` has one exact
key for CNAME and DNAME. -/
theorem cacheKeys_aex_bex :
    LfName [[0x61], [0x65, 0x78]] ∧ LfName [[0x62], [0x65, 0x78]] ∧ LfName [[0x65, 0x78]] ∧
      keyNsec1 [[0x65, 0x78]] (krDnameLf [[0x61], [0x65, 0x78]] false) ≠
        keyNsec1 [[0x65, 0x78]] (krDnameLf [[0x62], [0x65, 0x78]] true) ∧
      keyExactType (knotDnameLf [[0x61], [0x65, 0x78]]) knotRrtypeCname =
        keyExactType (knotDnameLf [[0x61], [0x65, 0x78]]) knotRrtypeDname := by
  have keys := @cacheKeys_injective_partitioned [[0x61], [0x65, 0x78]] [[0x62], [0x65, 0x78]]
    [[0x65, 0x78]] [[0x65, 0x78]] (by decide) (by decide) (by decide) (by decide)
  have keysA := @cacheKeys_injective_partitioned [[0x61], [0x65, 0x78]] [[0x61], [0x65, 0x78]]
    [[0x65, 0x78]] [[0x65, 0x78]] (by decide) (by decide) (by decide) (by decide)
  refine ⟨by decide, by decide, by decide, fun h => ?_, ?_⟩
  · have hnames := (keys.2.1 (by decide) (by decide) false true).1 h
    exact absurd hnames (by decide)
  · exact (keysA.1 knotRrtypeCname knotRrtypeDname (by decide) (by decide)).2 ⟨rfl, by decide⟩

/-- The zone `ex.` with the root and `a.`, names whose lookup formats are shorter than the zone's:
`key_NSEC1` fails its assertion for both and returns the same null key. -/
theorem nsec1_null_key_collision :
    LfName [] ∧ LfName [[0x61]] ∧ LfName [[0x65, 0x78]] ∧
      keyNsec1 [[0x65, 0x78]] (krDnameLf [] false) =
        keyNsec1 [[0x65, 0x78]] (krDnameLf [[0x61]] false) ∧
      withWildcard [] false ≠ withWildcard [[0x61]] false := by
  decide

end KnotResolver.Cache
