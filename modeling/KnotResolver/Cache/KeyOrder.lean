import KnotResolver.Cache.Keys

/-!
# NSEC1 keys in canonical order, and the range search over them

`find_leq_NSEC1` finds the NSEC matching or covering a name with one less-or-equal search
(`cdb_read_leq`) on the name's NSEC1 key. This works because the key order of LMDB (bytes compared
as unsigned, a proper prefix first) is, on the NSEC1 keys of a zone, the canonical order of
RFC 4034 on their owners (`compareLex_keyNsec1`): the lookup format lists the labels right to
left, each followed by a zero byte, which sorts below every byte of a label. The NSEC1 keys of a
zone are exactly the cache keys that extend the zone's prefix (`CacheKey.nsec1_of_extends`), a
range of the key order, so the search lands on the key of the greatest cached owner at or below
the name whenever there is one, and `dname_wire_reconstruct` reads that owner back from the key.

What `cdb_read_leq` returns is the entry at the key, or the greatest entry below it when the key
is absent (`cdbReadLeq_ok`), and it returns `ENOENT` when every stored key lies on one side of the
key (`cdbReadLeq_enoent`). The last case includes a key above every
stored key: `MDB_SET_RANGE` then finds nothing, and the search fails although a smaller key is
stored (`readLeq_above_last_key_enoent`).
-/

namespace KnotResolver.Cache

/-! ## `cdb_read_leq` -/

section ReadLeq

variable {key : List UInt8}

/-- Keys that compare strictly are distinct. -/
theorem ne_of_compareLex_lt {a b : List UInt8} (h : List.compareLex compare a b = .lt) : a ≠ b :=
  @Std.ReflCmp.ne_of_cmp_ne_eq _ (List.compareLex compare) _ a b (by rw [h]; exact nofun)

/-- What the walk of `cdb_read_leq` returns over sorted entries, given that the entry it last
passed lies below `key`. -/
theorem readLeqLoop_ok :
    ∀ {prev : Option (List UInt8 × CacheVal)} {l : List (List UInt8 × CacheVal)} {r : Int}
      {k : List UInt8} {v : CacheVal},
      l.Pairwise (fun a b => List.compareLex compare a.1 b.1 = .lt) →
      (∀ p ∈ prev, List.compareLex compare p.1 key = .lt) →
      readLeqLoop key prev l = .ok (r, k, v) →
      (r = 0 ∧ k = key ∧ (k, v) ∈ l) ∨
      (r = 1 ∧ ((k, v) ∈ l ∨ prev = some (k, v)) ∧ List.compareLex compare k key = .lt ∧
        (∀ q ∈ l, q.1 ≠ key) ∧
        ∀ q ∈ l, List.compareLex compare q.1 key = .lt → (List.compareLex compare q.1 k).isLE)
  | _, [], _, _, _, _, _, h => by cases h
  | prev, (k', v') :: rest, r, k, v, hs, hprev, h => by
    have hrest := hs.of_cons
    have hhead : ∀ q ∈ rest, List.compareLex compare k' q.1 = .lt :=
      fun q hq => List.rel_of_pairwise_cons hs hq
    unfold readLeqLoop at h
    split at h
    · next hlt =>
      -- the walk goes on, with `k'` as the last key passed
      rcases readLeqLoop_ok hrest (by rintro p ⟨⟩; exact hlt) h with
        ⟨rfl, rfl, hmem⟩ | ⟨rfl, hmem, hk, hne, hgreat⟩
      · exact .inl ⟨rfl, rfl, List.mem_cons_of_mem _ hmem⟩
      · refine .inr ⟨rfl, ?_, hk, ?_, ?_⟩
        · rcases hmem with hmem | heq
          · exact .inl (List.mem_cons_of_mem _ hmem)
          · cases heq
            exact .inl List.mem_cons_self
        · intro q hq
          rcases List.mem_cons.1 hq with rfl | hq
          · exact ne_of_compareLex_lt hlt
          · exact hne q hq
        · intro q hq hqk
          rcases List.mem_cons.1 hq with rfl | hq
          · rcases hmem with hmem | heq
            · exact Ordering.isLE_of_eq_lt (hhead _ hmem)
            · cases heq
              exact Std.ReflCmp.isLE_rfl
          · exact hgreat q hq hqk
    · next hnlt =>
      split at h
      · next heq =>
        cases h
        exact .inl ⟨rfl, heq, List.mem_cons_self⟩
      · next hne =>
        split at h
        · next pk pv =>
          cases h
          -- nothing from `k'` on lies below `key`: the rest lies above `k'`
          have habove : ∀ q ∈ rest, List.compareLex compare q.1 key ≠ .lt :=
            fun q hq hqk => hnlt (Std.TransCmp.lt_trans (hhead q hq) hqk)
          refine .inr ⟨rfl, .inr rfl, hprev _ rfl, ?_, ?_⟩
          · intro q hq
            rcases List.mem_cons.1 hq with rfl | hq
            · exact hne
            · rintro rfl
              exact hnlt (hhead _ hq)
          · intro q hq hqk
            rcases List.mem_cons.1 hq with rfl | hq
            · exact absurd hqk hnlt
            · exact absurd hqk (habove q hq)
        · cases h

/-- What `cdb_read_leq` returns: the entry at `key`, or the greatest entry below `key`, which is
then absent. -/
theorem cdbReadLeq_ok {db : Cdb} {r : Int} {k : List UInt8} {v : CacheVal}
    (h : cdbReadLeq db key = .ok (r, k, v)) :
    (k, v) ∈ db.entries ∧
      ((r = 0 ∧ k = key) ∨
        (r = 1 ∧ List.compareLex compare k key = .lt ∧ (∀ q ∈ db.entries, q.1 ≠ key) ∧
          ∀ q ∈ db.entries, List.compareLex compare q.1 key = .lt →
            (List.compareLex compare q.1 k).isLE)) := by
  rcases readLeqLoop_ok db.sorted (by rintro p ⟨⟩) h with
    ⟨rfl, rfl, hmem⟩ | ⟨rfl, hmem, hk, hne, hgreat⟩
  · exact ⟨hmem, .inl ⟨rfl, rfl⟩⟩
  · exact ⟨hmem.resolve_right nofun, .inr ⟨rfl, hk, hne, hgreat⟩⟩

theorem readLeqLoop_below :
    ∀ {prev : Option (List UInt8 × CacheVal)} {l : List (List UInt8 × CacheVal)},
      (∀ q ∈ l, List.compareLex compare q.1 key = .lt) →
      readLeqLoop key prev l = .error (krError ENOENT)
  | _, [], _ => rfl
  | _, (k', v') :: rest, hbelow => by
    unfold readLeqLoop
    rw [if_pos (hbelow _ List.mem_cons_self)]
    exact readLeqLoop_below fun q hq => hbelow q (List.mem_cons_of_mem _ hq)

/-- `ENOENT` when every stored key lies above `key`, and also when every stored key lies below
it. -/
theorem cdbReadLeq_enoent {db : Cdb}
    (h : (∀ q ∈ db.entries, List.compareLex compare key q.1 = .lt) ∨
      ∀ q ∈ db.entries, List.compareLex compare q.1 key = .lt) :
    cdbReadLeq db key = .error (krError ENOENT) := by
  rcases h with habove | hbelow
  · -- the first key is above `key` and there is no entry before it
    unfold cdbReadLeq
    cases hl : db.entries with
    | nil => rfl
    | cons q rest =>
      have hq := habove q (hl ▸ List.mem_cons_self)
      have hnlt : List.compareLex compare q.1 key ≠ .lt := Std.OrientedCmp.not_lt_of_lt hq
      have hne : q.1 ≠ key := (ne_of_compareLex_lt hq).symm
      unfold readLeqLoop
      rw [if_neg hnlt, if_neg hne]
  · exact readLeqLoop_below hbelow

end ReadLeq

/-- The database holding the one key `01`. -/
def oneKeyDb : Cdb :=
  ⟨[([0x01], .entry ⟨0, 0, 0, false, false, [], [], none⟩)], List.pairwise_singleton _ _⟩

/-- A less-or-equal search for `02` in a database holding `01` fails with `ENOENT`:
`MDB_SET_RANGE` finds no key at or above `02`. -/
theorem readLeq_above_last_key_enoent :
    (∃ q ∈ oneKeyDb.entries, List.compareLex compare q.1 [0x02] = .lt) ∧
      cdbReadLeq oneKeyDb [0x02] = .error (krError ENOENT) := by
  have hbelow : ∀ q ∈ oneKeyDb.entries, List.compareLex compare q.1 [0x02] = .lt := by
    intro q hq
    rw [oneKeyDb, List.mem_singleton] at hq
    subst hq
    decide
  exact ⟨⟨_, List.mem_singleton_self _, by decide⟩, cdbReadLeq_enoent (.inr hbelow)⟩

/-! ## The keys of the cache -/

/-- The keys the cache writes: exact keys (`key_exact_type_maypkt`, also those of packets), the
NSEC1 keys of names in their zone, NSEC3 keys, and the version key. -/
inductive CacheKey : List UInt8 → Prop
  | exact {a : Dname} {type : UInt16} : LfName a → type ≠ knotRrtypeRrsig →
      CacheKey (keyExactTypeMaypkt (knotDnameLf a) type)
  | nsec1 {z a : Dname} : LfName z → LfName a → z <:+ a → CacheKey (keyNsec1 z (knotDnameLf a))
  | nsec3 {z : Dname} {p : UInt32} {hash : List UInt8} : LfName z →
      CacheKey (keyNsec3Common z p ++ hash)
  | vers : CacheKey keyVers

/-- The first `key_nwz_off` bytes of the NSEC1 keys of zone `z`: its lookup format and `0 '1'`. -/
def nsec1Prefix (z : Dname) : List UInt8 := knotDnameLf z ++ [0, 0x31]

/-- `o` owns an NSEC1 record of zone `z` in the cache: a name at or below `z` whose key is
stored. -/
def Nsec1Owner (db : Cdb) (z o : Dname) : Prop :=
  LfName o ∧ z <:+ o ∧ keyNsec1 z (knotDnameLf o) ∈ db.entries.map Prod.fst

theorem length_nsec1Prefix (z : Dname) : (nsec1Prefix z).length = keyNwzOff z := by
  simp [nsec1Prefix, keyNwzOff]

theorem keyNsec1_eq_prefix_append (z pre : Dname) :
    keyNsec1 z (knotDnameLf (pre ++ z)) = nsec1Prefix z ++ (knotDnameLf pre).dropLast := by
  rw [keyNsec1_append, nsec1Prefix, List.append_assoc]
  rfl

/-- The NSEC1 key of a name in the zone starts with the zone's NSEC1 prefix. -/
theorem nsec1Prefix_prefix_keyNsec1 {z n : Dname} (hzn : z <:+ n) :
    nsec1Prefix z <+: keyNsec1 z (knotDnameLf n) := by
  obtain ⟨pn, rfl⟩ := hzn
  rw [keyNsec1_eq_prefix_append]
  exact List.prefix_append _ _

/-- The part of an NSEC1 key within the zone: the lookup format of the labels below the zone,
without its final zero. -/
theorem drop_keyNsec1 (z pre : Dname) :
    (keyNsec1 z (knotDnameLf (pre ++ z))).drop (keyNwzOff z) = (knotDnameLf pre).dropLast := by
  rw [keyNsec1_eq_prefix_append, ← length_nsec1Prefix, List.drop_left]

/-- Among the keys of the cache, those that extend the prefix of a zone's NSEC1 keys are the
NSEC1 keys of names in that zone. -/
theorem CacheKey.nsec1_of_extends {z : Dname} {k : List UInt8} (hk : CacheKey k) (hz : LfName z)
    (hp : nsec1Prefix z <+: k) : ∃ o, LfName o ∧ z <:+ o ∧ k = keyNsec1 z (knotDnameLf o) := by
  obtain ⟨rest, hrest⟩ := hp
  rw [nsec1Prefix, List.append_assoc, List.cons_append, List.cons_append, List.nil_append] at hrest
  cases hk with
  | @exact a type ha ht =>
    rw [keyExactTypeMaypkt_eq ht] at hrest
    -- the tags `1` and `E` would sit at the same place
    have htag := (List.terminated_tag_inj hz.words ha.words hrest).2.1
    exact absurd htag (by decide)
  | @nsec1 z' a hz' ha hza =>
    obtain ⟨pre, rfl⟩ := hza
    rw [keyNsec1_append] at hrest
    obtain ⟨hzz, -, -⟩ := List.terminated_tag_inj hz.words hz'.words hrest
    obtain rfl := List.reverse_injective hzz
    exact ⟨pre ++ z, ha, List.suffix_append pre z, rfl⟩
  | @nsec3 z' p hash hz' =>
    simp only [keyNsec3Common, List.append_assoc, List.cons_append] at hrest
    have htag := (List.terminated_tag_inj hz.words hz'.words hrest).2.1
    exact absurd htag (by decide)
  | vers =>
    -- the prefix holds a zero byte and the version key none
    have hzero : (0 : UInt8) ∈ keyVers := by
      rw [← hrest]
      exact List.mem_append_right _ List.mem_cons_self
    exact absurd hzero (by decide)

/-! ## Key order and canonical order -/

/-- The zero byte that ends each label sorts below every byte of a label. -/
theorem compare_zero_left {x : UInt8} (hx : x ≠ 0) : compare 0 x = .lt := by
  rw [Std.compare_eq_lt]
  exact UInt8.pos_iff_ne_zero.2 hx

/-- Names in a zone compare as the labels below the zone do. -/
theorem knotDnameCmp_append_right (pa pb z : Dname) :
    knotDnameCmp (pa ++ z) (pb ++ z) =
      List.compareLex (List.compareLex compare) pa.reverse pb.reverse := by
  rw [knotDnameCmp, List.reverse_append, List.reverse_append, List.compareLex_append_left]

/-- The parts within the zone of the NSEC1 keys of two names in the zone compare as the names
do in canonical order. -/
theorem compareLex_drop_keyNsec1 {z a b : Dname} (ha : LfName a) (hb : LfName b) (hza : z <:+ a)
    (hzb : z <:+ b) :
    List.compareLex compare ((keyNsec1 z (knotDnameLf a)).drop (keyNwzOff z))
      ((keyNsec1 z (knotDnameLf b)).drop (keyNwzOff z)) = knotDnameCmp a b := by
  obtain ⟨pa, rfl⟩ := hza
  obtain ⟨pb, rfl⟩ := hzb
  rw [drop_keyNsec1, drop_keyNsec1, knotDnameLf_eq_terminated, knotDnameLf_eq_terminated,
    List.compareLex_dropLast_terminated (fun x hx => compare_zero_left hx)
      (LfName.of_suffix ha).words (LfName.of_suffix hb).words,
    knotDnameCmp_append_right]

/-- NSEC1 keys of names in the zone compare as the names do in canonical order. -/
theorem compareLex_keyNsec1 {z a b : Dname} (ha : LfName a) (hb : LfName b) (hza : z <:+ a)
    (hzb : z <:+ b) :
    List.compareLex compare (keyNsec1 z (knotDnameLf a)) (keyNsec1 z (knotDnameLf b)) =
      knotDnameCmp a b := by
  rw [← compareLex_drop_keyNsec1 ha hb hza hzb]
  obtain ⟨pa, rfl⟩ := hza
  obtain ⟨pb, rfl⟩ := hzb
  rw [drop_keyNsec1, drop_keyNsec1, keyNsec1_eq_prefix_append, keyNsec1_eq_prefix_append,
    List.compareLex_append_left]

theorem keyNsec1_inj {z a b : Dname} (ha : LfName a) (hb : LfName b) (hza : z <:+ a)
    (hzb : z <:+ b) (h : keyNsec1 z (knotDnameLf a) = keyNsec1 z (knotDnameLf b)) : a = b := by
  have hcmp := compareLex_keyNsec1 ha hb hza hzb
  have hself : List.compareLex compare (keyNsec1 z (knotDnameLf b)) (keyNsec1 z (knotDnameLf b)) =
      .eq := Std.ReflCmp.compare_self
  rw [h, hself] at hcmp
  exact Std.LawfulEqCmp.eq_of_compare hcmp.symm

/-- `dname_wire_reconstruct` reads the owner back from the part of its NSEC1 key within the
zone. -/
theorem dnameWireReconstruct_keyNsec1 {z o : Dname} (ho : LfName o) (hzo : z <:+ o) :
    dnameWireReconstruct z ((keyNsec1 z (knotDnameLf o)).drop (keyNwzOff z)) = o := by
  obtain ⟨pre, rfl⟩ := hzo
  have hpre := (LfName.of_suffix ho).words
  rw [drop_keyNsec1, dnameWireReconstruct]
  by_cases hnil : pre = []
  · subst hnil
    rfl
  · have hrev : pre.reverse ≠ [] := by simpa using hnil
    have hkwz : (knotDnameLf pre).dropLast ≠ [] := List.dropLast_terminated_ne_nil hpre hrev
    rw [if_neg hkwz, knotDnameLf_eq_terminated, List.dropLast_terminated_eq_intercalate hrev,
      List.splitOn_intercalate _ (fun l hl => (hpre l hl).2) hrev, List.reverse_reverse]

/-! ## The range search on an NSEC1 key -/

section RangeSearch

variable {db : Cdb} {z n : Dname} {r : Int} {k : List UInt8} {v : CacheVal}

/-- A range search on the NSEC1 key of a name in the zone that lands within the zone's NSEC1
keys finds the key of the greatest cached owner at or below the name. -/
theorem readLeq_keyNsec1_greatest (hz : LfName z) (hkeys : ∀ q ∈ db.entries, CacheKey q.1)
    (hn : LfName n) (hzn : z <:+ n) (h : cdbReadLeq db (keyNsec1 z (knotDnameLf n)) = .ok (r, k, v))
    (hk : nsec1Prefix z <+: k) :
    ∃ o, Nsec1Owner db z o ∧ k = keyNsec1 z (knotDnameLf o) ∧ (knotDnameCmp o n).isLE ∧
      ∀ o', Nsec1Owner db z o' → (knotDnameCmp o' n).isLE → (knotDnameCmp o' o).isLE := by
  obtain ⟨hmem, hres⟩ := cdbReadLeq_ok h
  obtain ⟨o, ho, hzo, rfl⟩ := (hkeys _ hmem).nsec1_of_extends hz hk
  refine ⟨o, ⟨ho, hzo, List.mem_map_of_mem hmem⟩, rfl, ?_, ?_⟩
  · rcases hres with ⟨-, hkn⟩ | ⟨-, hlt, -, -⟩
    · rw [keyNsec1_inj ho hn hzo hzn hkn]
      exact Std.ReflCmp.isLE_rfl
    · rw [← compareLex_keyNsec1 ho hn hzo hzn, hlt]
      rfl
  · rintro o' ⟨ho', hzo', hmem'⟩ hle
    obtain ⟨q, hq, hqk⟩ := List.mem_map.1 hmem'
    rcases hres with ⟨-, hkn⟩ | ⟨-, -, habsent, hgreat⟩
    · -- an exact match: the owner is the name itself
      rw [keyNsec1_inj ho hn hzo hzn hkn]
      exact hle
    · -- the name's key is absent, so the owner's key lies strictly below it
      have hlt : knotDnameCmp o' n = .lt := by
        cases hc : knotDnameCmp o' n with
        | lt => rfl
        | eq =>
          obtain rfl := Std.LawfulEqCmp.eq_of_compare hc
          exact absurd hqk (habsent q hq)
        | gt => rw [hc] at hle; cases hle
      have hq_lt : List.compareLex compare q.1 (keyNsec1 z (knotDnameLf n)) = .lt := by
        rw [hqk, compareLex_keyNsec1 ho' hn hzo' hzn, hlt]
      have hle' := hgreat q hq hq_lt
      rwa [hqk, compareLex_keyNsec1 ho' ho hzo' hzo] at hle'

/-- When some cached owner lies at or below the name, the range search lands within the zone's
NSEC1 keys. -/
theorem readLeq_keyNsec1_inZone (hn : LfName n) (hzn : z <:+ n)
    (h : cdbReadLeq db (keyNsec1 z (knotDnameLf n)) = .ok (r, k, v))
    (howner : ∃ o', Nsec1Owner db z o' ∧ (knotDnameCmp o' n).isLE) : nsec1Prefix z <+: k := by
  have hprefix := nsec1Prefix_prefix_keyNsec1 hzn
  obtain ⟨hmem, hres⟩ := cdbReadLeq_ok h
  rcases hres with ⟨-, rfl⟩ | ⟨-, hlt, habsent, hgreat⟩
  · exact hprefix
  · obtain ⟨o', ⟨ho', hzo', hmem'⟩, hle⟩ := howner
    obtain ⟨q, hq, hqk⟩ := List.mem_map.1 hmem'
    -- the owner's key lies below the name's, which is absent, so at most `k`
    have hq_le : (List.compareLex compare q.1 (keyNsec1 z (knotDnameLf n))).isLE := by
      rw [hqk, compareLex_keyNsec1 ho' hn hzo' hzn]
      exact hle
    have hq_lt : List.compareLex compare q.1 (keyNsec1 z (knotDnameLf n)) = .lt := by
      cases hc : List.compareLex compare q.1 (keyNsec1 z (knotDnameLf n)) with
      | lt => rfl
      | eq => exact absurd (Std.LawfulEqCmp.eq_of_compare hc) (habsent q hq)
      | gt => rw [hc] at hq_le; cases hq_le
    have hqk_le := hgreat q hq hq_lt
    -- the zone's prefix lies below the owner's key, so below `k`
    have hpq : (List.compareLex compare (nsec1Prefix z) q.1).isLE := by
      rw [hqk]
      exact List.compareLex_isLE_of_prefix (nsec1Prefix_prefix_keyNsec1 hzo')
    exact List.prefix_of_compareLex_between hprefix (Std.TransCmp.isLE_trans hpq hqk_le)
      (Ordering.isLE_of_eq_lt hlt)

/-- The check of `find_leq_NSEC1` that the key found lies in the zone: its first `key_nwz_off`
bytes are those of the search key, i.e. the zone's NSEC1 prefix. -/
theorem inZone_iff_extends {key : List UInt8} (hkey : nsec1Prefix z <+: key) :
    (keyNwzOff z ≤ k.length ∧ key.take (keyNwzOff z) = k.take (keyNwzOff z)) ↔
      nsec1Prefix z <+: k := by
  have htake : key.take (keyNwzOff z) = nsec1Prefix z := by
    rw [← length_nsec1Prefix]
    exact (List.prefix_iff_eq_take.1 hkey).symm
  rw [htake, List.prefix_iff_eq_take, length_nsec1Prefix]
  constructor
  · exact fun h => h.2
  · intro h
    refine ⟨?_, h⟩
    have hlen := congrArg List.length h
    rw [List.length_take, length_nsec1Prefix] at hlen
    omega

/-- The NSEC `find_leq_NSEC1` returns for a name in the zone is owned by the greatest cached
owner at or below the name, which `dname_wire_reconstruct` reads back from the key. -/
theorem findLeqNsec1_owner {now : UInt32} {sname : Dname} {w : Bool} {found : LeqNsec1}
    (hz : LfName z) (hkeys : ∀ q ∈ db.entries, CacheKey q.1) (hs : LfName sname)
    (hzs : z <:+ sname)
    (h : findLeqNsec1 db now z (krDnameLf sname w) (keyNsec1 z (krDnameLf sname w)) = .ok found) :
    ∃ o, Nsec1Owner db z o ∧ dnameWireReconstruct z found.kwzLow = o ∧
      (knotDnameCmp o (withWildcard sname w)).isLE ∧
      ∀ o', Nsec1Owner db z o' → (knotDnameCmp o' (withWildcard sname w)).isLE →
        (knotDnameCmp o' o).isLE := by
  obtain ⟨r, k, v, hread, -, -, -, hlow, hzone⟩ := findLeqNsec1_spec h
  rw [krDnameLf_eq] at hread hzone
  have hn := hs.withWildcard w
  have hzn := suffix_withWildcard hzs w
  have hkey := nsec1Prefix_prefix_keyNsec1 hzn
  -- found exactly, or within the zone by the check of `find_leq_NSEC1`
  have hk : nsec1Prefix z <+: k := by
    rcases hzone with rfl | hcheck
    · rcases (cdbReadLeq_ok hread).2 with ⟨-, rfl⟩ | ⟨hr, -⟩
      · exact hkey
      · cases hr
    · exact (inZone_iff_extends hkey).1 hcheck
  obtain ⟨o, howner, rfl, hle, hgreat⟩ := readLeq_keyNsec1_greatest hz hkeys hn hzn hread hk
  refine ⟨o, howner, ?_, hle, hgreat⟩
  rw [hlow]
  exact dnameWireReconstruct_keyNsec1 howner.1 howner.2.1

end RangeSearch

theorem nsec1Keys_canonical_order {z : Dname} (hz : LfName z) :
    (∀ a b w₁ w₂, LfName a → LfName b → z <:+ a → z <:+ b →
      List.compareLex compare ((keyNsec1 z (krDnameLf a w₁)).drop (keyNwzOff z))
          ((keyNsec1 z (krDnameLf b w₂)).drop (keyNwzOff z)) =
        knotDnameCmp (withWildcard a w₁) (withWildcard b w₂) ∧
      List.compareLex compare (keyNsec1 z (krDnameLf a w₁)) (keyNsec1 z (krDnameLf b w₂)) =
        knotDnameCmp (withWildcard a w₁) (withWildcard b w₂)) ∧
    ∀ (db : Cdb) (sname : Dname) (w : Bool), (∀ q ∈ db.entries, CacheKey q.1) → LfName sname →
      z <:+ sname →
      (∀ now found,
        findLeqNsec1 db now z (krDnameLf sname w) (keyNsec1 z (krDnameLf sname w)) = .ok found →
        ∃ o, Nsec1Owner db z o ∧ dnameWireReconstruct z found.kwzLow = o ∧
          (knotDnameCmp o (withWildcard sname w)).isLE ∧
          ∀ o', Nsec1Owner db z o' → (knotDnameCmp o' (withWildcard sname w)).isLE →
            (knotDnameCmp o' o).isLE) ∧
      (∀ r k v, cdbReadLeq db (keyNsec1 z (krDnameLf sname w)) = .ok (r, k, v) →
        (∃ o', Nsec1Owner db z o' ∧ (knotDnameCmp o' (withWildcard sname w)).isLE) →
        keyNwzOff z ≤ k.length ∧
          (keyNsec1 z (krDnameLf sname w)).take (keyNwzOff z) = k.take (keyNwzOff z)) := by
  refine ⟨fun a b w₁ w₂ ha hb hza hzb => ?_, fun db sname w hkeys hs hzs => ⟨?_, ?_⟩⟩
  · rw [krDnameLf_eq, krDnameLf_eq]
    have ha' := ha.withWildcard w₁
    have hb' := hb.withWildcard w₂
    have hza' := suffix_withWildcard hza w₁
    have hzb' := suffix_withWildcard hzb w₂
    exact ⟨compareLex_drop_keyNsec1 ha' hb' hza' hzb', compareLex_keyNsec1 ha' hb' hza' hzb'⟩
  · intro now found h
    exact findLeqNsec1_owner hz hkeys hs hzs h
  · intro r k v hread howner
    rw [krDnameLf_eq] at hread ⊢
    have hzn := suffix_withWildcard hzs w
    exact (inZone_iff_extends (nsec1Prefix_prefix_keyNsec1 hzn)).2 (readLeq_keyNsec1_inZone (hs.withWildcard w) hzn hread howner)

/-- In the zone `ex.`, the NSEC1 key of `a.ex.` sorts before that of `*.b.ex.`, as the names do. -/
theorem nsec1Keys_aex_wildcard_bex :
    LfName [[0x65, 0x78]] ∧
      List.compareLex compare (keyNsec1 [[0x65, 0x78]] (krDnameLf [[0x61], [0x65, 0x78]] false))
          (keyNsec1 [[0x65, 0x78]] (krDnameLf [[0x62], [0x65, 0x78]] true)) =
        knotDnameCmp [[0x61], [0x65, 0x78]] [asteriskLabel, [0x62], [0x65, 0x78]] :=
  ⟨by decide, ((nsec1Keys_canonical_order (by decide)).1 _ _ false true (by decide) (by decide)
    (List.suffix_cons _ _) (List.suffix_cons _ _)).2⟩

end KnotResolver.Cache
