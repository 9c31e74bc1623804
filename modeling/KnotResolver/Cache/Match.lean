import KnotResolver.Cache.KeyOrder

/-!
# Matching a subtree of the cache (`kr_cache_match`, `kr_cache_remove_subtree`)

`kr_cache_match` lists the keys that start with a prefix cut from an exact key of the name: the
lookup format of the name for its whole subtree, followed by the tag `0 'E'` for the name alone.
`cdb_match` positions a cursor at the first key not below the prefix (`MDB_SET_RANGE`) and walks
on while the keys start with it, at most `maxcount` of them.

The walk finds every key with the prefix because the keys extending a list form a contiguous
range of the key order (`List.takeWhile_dropWhile_eq_filter`). For a name that is not the root,
the keys of the cache with the prefix are those of its subtree: the exact keys of the name and
of the names below it, and the NSEC1 and NSEC3 keys of the zones at or below it; with the tag,
the exact keys of the name alone (`isPrefixOf_krCacheMatchKey_iff`). Labels end in a zero byte
in the lookup format, so a sibling that extends a label of the name (`examples.com` next to
`example.com`) is not in it. `kr_cache_remove_subtree` deletes the keys matched
(`krCacheMatch_subtree`).
-/

namespace KnotResolver.Cache

/-- The prefix `kr_cache_match` searches for: the exact key of `name` with a mock type, less the
type, and less the tag `0 'E'` unless only the name itself is wanted; the root keeps a zero. -/
def krCacheMatchKey (name : Dname) (exactName : Bool) : List UInt8 :=
  let key := keyExactType (krDnameLf name false) knotRrtypeA
  let len := key.length - 2
  let len := if !exactName then len - 2 + (if name = [] then 1 else 0) else len
  key.take len

/-- The walk of `cdb_match` from the cursor on: a key that does not start with `key` ends it, and
so does the `maxcount`-th result (`budget` counts the results still allowed). -/
def cdbMatchLoop (key : List UInt8) : Nat → List (List UInt8 × CacheVal) →
    List (List UInt8 × CacheVal)
  | _, [] => []
  | budget, (k, v) :: rest =>
    if !key.isPrefixOf k then []
    else if budget = 0 then []
    else (k, v) :: cdbMatchLoop key (budget - 1) rest

/-- `cdb_match`: the keys with their values; `ENOENT` when no key is at least `key`, where
`MDB_SET_RANGE` finds nothing. -/
def cdbMatch (db : Cdb) (key : List UInt8) (maxcount : Nat) :
    Except Int (List (List UInt8 × CacheVal)) :=
  match db.entries.dropWhile fun q => List.compareLex compare q.1 key == .lt with
  | [] => .error (krError ENOENT)
  | rest => .ok (cdbMatchLoop key maxcount rest)

/-- `kr_cache_match`. -/
def krCacheMatch (db : Cdb) (name : Dname) (exactName : Bool) (maxcount : Nat) :
    Except Int (List (List UInt8 × CacheVal)) :=
  cdbMatch db (krCacheMatchKey name exactName) maxcount

/-- `mdb_del` of a key that is stored. -/
def Cdb.erase (db : Cdb) (key : List UInt8) : Cdb :=
  ⟨db.entries.filter (·.1 != key), db.sorted.filter _⟩

/-- `cdb_remove`: the keys are deleted one by one, those not stored skipped; the number deleted. -/
def cdbRemove (db : Cdb) : List (List UInt8) → Nat × Cdb
  | [] => (0, db)
  | k :: ks =>
    if (db.entries.map Prod.fst).contains k then
      let r := cdbRemove (db.erase k) ks
      (r.1 + 1, r.2)
    else cdbRemove db ks

/-- `kr_cache_remove_subtree`: the keys matched are deleted; `ENOENT` from the match means there
is nothing to delete. -/
def krCacheRemoveSubtree (db : Cdb) (name : Dname) (exactName : Bool) (maxcount : Nat) :
    Int × Cdb :=
  match krCacheMatch db name exactName maxcount with
  | .error e => (if e = knotEnoent then 0 else e, db)
  | .ok kvs =>
    if kvs.length = 0 then (0, db)
    else
      let r := cdbRemove db (kvs.map Prod.fst)
      (r.1, r.2)

/-! ## The walk -/

theorem cdbMatchLoop_eq (key : List UInt8) :
    ∀ (budget : Nat) (l : List (List UInt8 × CacheVal)),
      cdbMatchLoop key budget l = (l.takeWhile fun q => key.isPrefixOf q.1).take budget
  | _, [] => by rw [cdbMatchLoop, List.takeWhile_nil, List.take_nil]
  | budget, (k, v) :: rest => by
    rw [cdbMatchLoop, List.takeWhile_cons]
    by_cases hk : key.isPrefixOf k = true
    · rw [if_neg (by simp [hk]), if_pos hk]
      cases budget with
      | zero => rfl
      | succ b =>
        rw [if_neg (Nat.succ_ne_zero b), Nat.add_sub_cancel, cdbMatchLoop_eq key b rest]
        rfl
    · have hk' : key.isPrefixOf k = false := Bool.eq_false_iff.2 hk
      rw [if_pos (by rw [hk']; rfl), if_neg hk, List.take_nil]

/-- Over the sorted keys, `cdb_match` returns the first `maxcount` entries whose keys extend
`key`, or `ENOENT` when no key is at least `key`, and then none extends it. -/
theorem cdbMatch_eq (db : Cdb) (key : List UInt8) (maxcount : Nat) :
    cdbMatch db key maxcount =
        .ok ((db.entries.filter fun q => key.isPrefixOf q.1).take maxcount) ∨
      (cdbMatch db key maxcount = .error (krError ENOENT) ∧
        db.entries.filter (fun q => key.isPrefixOf q.1) = []) := by
  have hblock := List.takeWhile_dropWhile_eq_filter Prod.fst key db.sorted
  unfold cdbMatch
  cases hd : db.entries.dropWhile fun q => List.compareLex compare q.1 key == .lt with
  | nil =>
    rw [hd, List.takeWhile_nil] at hblock
    exact .inr ⟨rfl, hblock.symm⟩
  | cons q rest =>
    rw [hd] at hblock
    dsimp only
    rw [cdbMatchLoop_eq, hblock]
    exact .inl rfl

/-! ## The keys of a subtree -/

/-- The subtree of `n` in the cache: the exact keys of `n` and of the names below it, and the
NSEC1 and NSEC3 keys of the zones at or below `n`; with `exactName`, the exact keys of `n`
alone, of any type, packets and entry lists included. -/
inductive InSubtree (n : Dname) : Bool → List UInt8 → Prop
  | exact {type : UInt16} : type ≠ knotRrtypeRrsig →
      InSubtree n true (keyExactTypeMaypkt (knotDnameLf n) type)
  | below {a : Dname} {type : UInt16} : LfName a → n <:+ a → type ≠ knotRrtypeRrsig →
      InSubtree n false (keyExactTypeMaypkt (knotDnameLf a) type)
  | nsec1 {z a : Dname} : LfName z → LfName a → n <:+ z → z <:+ a →
      InSubtree n false (keyNsec1 z (knotDnameLf a))
  | nsec3 {z : Dname} {p : UInt32} {hash : List UInt8} : LfName z → n <:+ z →
      InSubtree n false (keyNsec3Common z p ++ hash)

theorem krCacheMatchKey_false {n : Dname} (hroot : n ≠ []) :
    krCacheMatchKey n false = knotDnameLf n := by
  rw [krCacheMatchKey, krDnameLf, keyExactType_eq (by decide)]
  simp [hroot]

theorem krCacheMatchKey_true (n : Dname) :
    krCacheMatchKey n true = knotDnameLf n ++ [0, 0x45] := by
  rw [krCacheMatchKey, krDnameLf, keyExactType_eq (by decide)]
  simp only [Bool.not_true, Bool.false_eq_true, if_false, List.append_nil, List.length_append,
    List.length_cons, List.length_nil]
  rw [show (knotDnameLf n).length + (0 + 1 + 1 + 1 + 1) - 2 = (knotDnameLf n).length + 2 by omega,
    List.take_length_add_append]
  rfl

/-- The lookup format of a name starts that of a name followed by a zero exactly when the
second lies at or below the first. -/
theorem knotDnameLf_prefix_iff {n a : Dname} (hn : LfName n) (ha : LfName a) (r : List UInt8) :
    knotDnameLf n <+: knotDnameLf a ++ 0 :: r ↔ n <:+ a := by
  constructor
  · intro h
    rw [knotDnameLf_eq_terminated, knotDnameLf_eq_terminated] at h
    exact List.reverse_prefix.1
      (List.prefix_words_of_terminated hn.words (fun v hv => (ha.words v hv).2) h)
  · rintro ⟨pre, rfl⟩
    rw [knotDnameLf_append, List.append_assoc]
    exact List.prefix_append _ _

/-- With a tag after the zero, the two names and tags are the same. -/
theorem knotDnameLf_tag_prefix_iff {n a : Dname} (hn : LfName n) (ha : LfName a) {g g' : UInt8}
    (r : List UInt8) :
    knotDnameLf n ++ [0, g] <+: knotDnameLf a ++ 0 :: g' :: r ↔ n = a ∧ g = g' := by
  constructor
  · rintro ⟨x, hx⟩
    rw [List.append_assoc, List.cons_append, List.cons_append, List.nil_append,
      knotDnameLf_eq_terminated, knotDnameLf_eq_terminated] at hx
    obtain ⟨hna, hg, -⟩ := List.terminated_tag_inj hn.words ha.words hx
    exact ⟨List.reverse_injective hna, hg⟩
  · rintro ⟨rfl, rfl⟩
    exact ⟨r, by simp⟩

/-- A lookup format of a name that is not the root holds a zero byte, which the version key
lacks. -/
theorem not_prefix_keyVers {p : List UInt8} (hp : (0 : UInt8) ∈ p) : ¬p <+: keyVers := by
  intro h
  exact absurd (h.subset hp) (by decide)

theorem zero_mem_knotDnameLf {n : Dname} (hroot : n ≠ []) : (0 : UInt8) ∈ knotDnameLf n := by
  cases n with
  | nil => exact absurd rfl hroot
  | cons l rest =>
    rw [show l :: rest = [l] ++ rest from rfl, knotDnameLf_append]
    simp [knotDnameLf]

/-- For a name that is not the root, the keys of the cache that `kr_cache_match` selects are
those of its subtree. -/
theorem isPrefixOf_krCacheMatchKey_iff {n : Dname} (hn : LfName n) (hroot : n ≠ [])
    {k : List UInt8} (hk : CacheKey k) (exactName : Bool) :
    (krCacheMatchKey n exactName).isPrefixOf k = true ↔ InSubtree n exactName k := by
  rw [List.isPrefixOf_iff_prefix]
  cases exactName with
  | false =>
    rw [krCacheMatchKey_false hroot]
    constructor
    · intro hp
      cases hk with
      | @exact a type ha ht =>
        rw [keyExactTypeMaypkt_eq ht] at hp
        exact .below ha ((knotDnameLf_prefix_iff hn ha _).1 hp) ht
      | @nsec1 z a hz ha hza =>
        obtain ⟨pre, rfl⟩ := hza
        rw [keyNsec1_append] at hp
        exact .nsec1 hz ha ((knotDnameLf_prefix_iff hn hz _).1 hp) (List.suffix_append pre z)
      | @nsec3 z p hash hz =>
        rw [keyNsec3Common, List.append_assoc, List.cons_append] at hp
        exact .nsec3 hz ((knotDnameLf_prefix_iff hn hz _).1 hp)
      | vers => exact absurd hp (not_prefix_keyVers (zero_mem_knotDnameLf hroot))
    · intro hs
      cases hs with
      | @below a type ha hna ht =>
        rw [keyExactTypeMaypkt_eq ht]
        exact (knotDnameLf_prefix_iff hn ha _).2 hna
      | @nsec1 z a hz ha hnz hza =>
        obtain ⟨pre, rfl⟩ := hza
        rw [keyNsec1_append]
        exact (knotDnameLf_prefix_iff hn hz _).2 hnz
      | @nsec3 z p hash hz hnz =>
        rw [keyNsec3Common, List.append_assoc, List.cons_append]
        exact (knotDnameLf_prefix_iff hn hz _).2 hnz
  | true =>
    rw [krCacheMatchKey_true]
    constructor
    · intro hp
      cases hk with
      | @exact a type ha ht =>
        rw [keyExactTypeMaypkt_eq ht] at hp
        obtain ⟨rfl, -⟩ := (knotDnameLf_tag_prefix_iff hn ha _).1 hp
        exact .exact ht
      | @nsec1 z a hz ha hza =>
        -- the tags `E` and `1` differ
        obtain ⟨pre, rfl⟩ := hza
        rw [keyNsec1_append] at hp
        exact absurd ((knotDnameLf_tag_prefix_iff hn hz _).1 hp).2 (by decide)
      | @nsec3 z p hash hz =>
        rw [keyNsec3Common, List.append_assoc, List.cons_append, List.cons_append] at hp
        exact absurd ((knotDnameLf_tag_prefix_iff hn hz _).1 hp).2 (by decide)
      | vers =>
        exact absurd hp (not_prefix_keyVers (List.mem_append_right _ List.mem_cons_self))
    · rintro ⟨ht⟩
      rw [keyExactTypeMaypkt_eq ht]
      exact (knotDnameLf_tag_prefix_iff hn hn _).2 ⟨rfl, rfl⟩

/-! ## Deleting the keys matched -/

theorem cdbRemove_entries : ∀ (db : Cdb) (keys : List (List UInt8)),
    (cdbRemove db keys).2.entries = db.entries.filter fun q => q.1 ∉ keys
  | db, [] => by simp [cdbRemove]
  | db, k :: ks => by
    unfold cdbRemove
    split_ifs with hk
    · rw [cdbRemove_entries, Cdb.erase, List.filter_filter]
      apply List.filter_congr
      intro q _
      by_cases hq : q.1 = k <;> simp [hq]
    · -- a key not stored is skipped
      rw [cdbRemove_entries]
      apply List.filter_congr
      intro q hq
      have hne : q.1 ≠ k := fun h => hk (List.contains_iff_mem.2 (List.mem_map.2 ⟨q, hq, h⟩))
      simp [hne]

theorem cdbRemove_count : ∀ (db : Cdb) (keys : List (List UInt8)), keys.Nodup →
    (∀ k ∈ keys, k ∈ db.entries.map Prod.fst) → (cdbRemove db keys).1 = keys.length
  | _, [], _, _ => rfl
  | db, k :: ks, hnd, hin => by
    obtain ⟨hk, hnd'⟩ := List.nodup_cons.1 hnd
    -- the other keys are still stored after `k` is deleted
    have hin' : ∀ k' ∈ ks, k' ∈ (db.erase k).entries.map Prod.fst := by
      intro k' hk'
      obtain ⟨q, hq, rfl⟩ := List.mem_map.1 (hin k' (List.mem_cons_of_mem _ hk'))
      have hne : q.1 ≠ k := fun h => hk (h ▸ hk')
      exact List.mem_map.2 ⟨q, List.mem_filter.2 ⟨hq, by simpa using hne⟩, rfl⟩
    rw [cdbRemove, if_pos (List.contains_iff_mem.2 (hin k List.mem_cons_self))]
    simp only [List.length_cons]
    rw [cdbRemove_count (db.erase k) ks hnd' hin']

/-- The keys of the database are distinct. -/
theorem Cdb.nodup_keys (db : Cdb) : (db.entries.map Prod.fst).Nodup :=
  List.nodup_iff_pairwise_ne.2 (List.pairwise_map.2 (db.sorted.imp ne_of_compareLex_lt))

/-- The entries of the cache whose keys `kr_cache_match` selects, in key order. -/
def matchedEntries (db : Cdb) (name : Dname) (exactName : Bool) : List (List UInt8 × CacheVal) :=
  db.entries.filter fun q => (krCacheMatchKey name exactName).isPrefixOf q.1

/-- `kr_cache_remove_subtree` deletes the first `maxcount` entries `kr_cache_match` selects and
returns their number. -/
theorem krCacheRemoveSubtree_eq (db : Cdb) (name : Dname) (exactName : Bool) (maxcount : Nat) :
    (krCacheRemoveSubtree db name exactName maxcount).1 =
        ((matchedEntries db name exactName).take maxcount).length ∧
      (krCacheRemoveSubtree db name exactName maxcount).2.entries = db.entries.filter fun q =>
        q.1 ∉ ((matchedEntries db name exactName).take maxcount).map Prod.fst := by
  unfold krCacheRemoveSubtree krCacheMatch
  rcases cdbMatch_eq db (krCacheMatchKey name exactName) maxcount with h | ⟨h, hnil⟩
  · change cdbMatch _ _ _ = .ok ((matchedEntries db name exactName).take maxcount) at h
    rw [h]
    dsimp only
    have hsub : (((matchedEntries db name exactName).take maxcount).map Prod.fst).Sublist
        (db.entries.map Prod.fst) :=
      ((List.take_sublist _ _).trans List.filter_sublist).map _
    split_ifs with hlen
    · rw [List.eq_nil_of_length_eq_zero hlen]
      simp
    · refine ⟨?_, cdbRemove_entries _ _⟩
      rw [cdbRemove_count db _ (db.nodup_keys.sublist hsub) fun k hk => hsub.subset hk,
        List.length_map]
  · rw [h]
    have hempty : matchedEntries db name exactName = [] := hnil
    simp [hempty, knotEnoent, krError, ENOENT]

/-! ## The subtree -/

/-- `kr_cache_match` of a name that is not the root, over a cache of the keys the cache writes:
the entries it selects are those of the name's subtree (of the name alone with `exactName`),
it returns the first `maxcount` of them in key order, or `ENOENT` when there are none and no
key sorts after the prefix, and `kr_cache_remove_subtree` deletes exactly those it returns. -/
theorem krCacheMatch_subtree {db : Cdb} (hkeys : ∀ q ∈ db.entries, CacheKey q.1) {n : Dname}
    (hn : LfName n) (hroot : n ≠ []) (exactName : Bool) (maxcount : Nat) :
    (∀ q ∈ db.entries, q ∈ matchedEntries db n exactName ↔ InSubtree n exactName q.1) ∧
      (krCacheMatch db n exactName maxcount = .ok ((matchedEntries db n exactName).take maxcount) ∨
        krCacheMatch db n exactName maxcount = .error (krError ENOENT) ∧
          matchedEntries db n exactName = []) ∧
      (krCacheRemoveSubtree db n exactName maxcount).1 =
        ((matchedEntries db n exactName).take maxcount).length ∧
      (krCacheRemoveSubtree db n exactName maxcount).2.entries = db.entries.filter fun q =>
        q.1 ∉ ((matchedEntries db n exactName).take maxcount).map Prod.fst := by
  refine ⟨fun q hq => ?_, cdbMatch_eq db _ maxcount, krCacheRemoveSubtree_eq db n exactName maxcount⟩
  rw [matchedEntries, List.mem_filter, and_iff_right hq]
  exact isPrefixOf_krCacheMatchKey_iff hn hroot (hkeys q hq) exactName

/-- `example.com.` -/
def exampleComName : Dname := [[0x65, 0x78, 0x61, 0x6d, 0x70, 0x6c, 0x65], [0x63, 0x6f, 0x6d]]

/-- `examples.com.` -/
def examplesComName : Dname :=
  [[0x65, 0x78, 0x61, 0x6d, 0x70, 0x6c, 0x65, 0x73], [0x63, 0x6f, 0x6d]]

/-- `www.example.com.` -/
def wwwExampleComName : Dname := [[0x77, 0x77, 0x77]] ++ exampleComName

/-- An A record cached at time 0 for an hour. -/
def glueEntry : EntryH := ⟨0, 3600, krRankSecure, false, false, [.addr [192, 0, 2, 1]], [], none⟩

/-- A cache of three A records: at `example.com.`, at its sibling `examples.com.` and at
`www.example.com.`. -/
def siblingsCache : Cdb where
  entries :=
    [(keyExactTypeMaypkt (knotDnameLf exampleComName) knotRrtypeA, .entry glueEntry),
      (keyExactTypeMaypkt (knotDnameLf wwwExampleComName) knotRrtypeA, .entry glueEntry),
      (keyExactTypeMaypkt (knotDnameLf examplesComName) knotRrtypeA, .entry glueEntry)]
  sorted := by decide

/-- The subtree of `example.com.` in it is the name and `www.example.com.`, not the sibling. -/
theorem krCacheMatch_subtree_siblings :
    (∀ q ∈ siblingsCache.entries, CacheKey q.1) ∧ LfName exampleComName ∧ exampleComName ≠ [] ∧
      ((∀ q ∈ siblingsCache.entries,
          q ∈ matchedEntries siblingsCache exampleComName false ↔ InSubtree exampleComName false q.1) ∧
        (krCacheMatch siblingsCache exampleComName false 10 =
            .ok ((matchedEntries siblingsCache exampleComName false).take 10) ∨
          krCacheMatch siblingsCache exampleComName false 10 = .error (krError ENOENT) ∧
            matchedEntries siblingsCache exampleComName false = []) ∧
        (krCacheRemoveSubtree siblingsCache exampleComName false 10).1 =
          ((matchedEntries siblingsCache exampleComName false).take 10).length ∧
        (krCacheRemoveSubtree siblingsCache exampleComName false 10).2.entries =
          siblingsCache.entries.filter fun q =>
            q.1 ∉ ((matchedEntries siblingsCache exampleComName false).take 10).map Prod.fst) ∧
      (matchedEntries siblingsCache exampleComName false).length = 2 :=
  have hkeys : ∀ q ∈ siblingsCache.entries, CacheKey q.1 := by
    intro q hq
    simp only [siblingsCache, List.mem_cons, List.not_mem_nil, or_false] at hq
    rcases hq with rfl | rfl | rfl
    · exact @CacheKey.exact exampleComName knotRrtypeA (by decide) (by decide)
    · exact @CacheKey.exact wwwExampleComName knotRrtypeA (by decide) (by decide)
    · exact @CacheKey.exact examplesComName knotRrtypeA (by decide) (by decide)
  ⟨hkeys, by decide, by decide,
    krCacheMatch_subtree hkeys (by decide) (by decide) false 10, by decide⟩

end KnotResolver.Cache
