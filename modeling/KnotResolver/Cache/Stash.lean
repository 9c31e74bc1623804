import KnotResolver.SortedMap
import KnotResolver.RankedArray
import KnotResolver.Cache.PeekSound

/-!
# Stashing RRsets (`lib/cache/api.c`, `lib/cache/entry_list.c`)

`stash_rrarray_entry` takes an RRset the iterator or the validator selected, looks among the
selected records for an RRSIG set covering it, and `stash_rrset` writes it: an NSEC or NSEC3 set
under the key of its chain when it is secure, any other set under the key of its name and type.
That name is the owner less as many labels as the RRSIG's label count says were expanded from a
wildcard, with `*` in front when there are any: a set signed as a wildcard expansion is stored as
the wildcard, which `try_wild` then expands to other names. `entry_h_splice` puts the entry into
its slot of the entry list for NS, CNAME and DNAME, and keeps an entry that is fresher and of at
least the new rank unless the new one is secure.

The label count is taken from the RRSIG whatever the rank of the set, and nothing compares the
name it gives with the RRSIG's signer (`stashRrset_wildcard_key`): an insecure RRset with an RRSIG
claiming fewer labels is stored as the wildcard of an ancestor, in the parent zone too, and
answers for its other names (`insecure_rrset_answers_for_parent`).
-/

namespace KnotResolver.Cache

/-! ## Writing the database -/

/-- The code `mdb_put` returns for an empty key. -/
def mdbBadValsize : Int := -30781

/-- `cache_write_or_clear` for a write the database takes: the value at `key` becomes `val`;
LMDB refuses the null key. -/
def cacheWriteOrClear (cache : Cdb) (key : List UInt8) (val : CacheVal) : Except Int Cdb :=
  if key = [] then .error (krError mdbBadValsize)
  else .ok ⟨cache.entries.upsert (List.compareLex compare) key val, List.upsert_pairwise cache.sorted⟩

theorem cacheWriteOrClear_eq_ok {cache c : Cdb} {key : List UInt8} {val : CacheVal}
    (h : cacheWriteOrClear cache key val = .ok c) :
    cdbRead c key = .ok val ∧ ∀ key', key' ≠ key → cdbRead c key' = cdbRead cache key' := by
  unfold cacheWriteOrClear at h
  split at h
  · cases h
  cases h
  refine ⟨?_, fun key' hne => ?_⟩
  · simp only [cdbRead, List.lookup_upsert_self]
  · simp only [cdbRead, List.lookup_upsert_of_ne _ hne]

/-! ## `entry_h_splice` -/

/-- `memset(el, 0, sizeof(el))`: the entry list with nothing in it. -/
def entryApexEmpty : EntryApex := ⟨Vector.replicate entryApexNsecsCnt none, none, none, none⟩

/-- `el[i_type]` set to the new entry of `type`, one of NS, CNAME and DNAME. -/
def EntryApex.setEntry (ea : EntryApex) (type : UInt16) (eh : EntryH) : EntryApex :=
  if type = knotRrtypeNs then { ea with ns := some eh }
  else if type = knotRrtypeCname then { ea with cname := some eh }
  else { ea with dname := some eh }

/-- The types kept in the entry list of a name rather than on their own (`i_type` nonzero). -/
def inEntryList (type : UInt16) : Prop :=
  type = knotRrtypeNs ∨ type = knotRrtypeCname ∨ type = knotRrtypeDname

instance (type : UInt16) : Decidable (inEntryList type) := by
  unfold inEntryList
  infer_instance

/-- `entry_h_splice`: writes the new entry `eh` of `type` under `key`, into the entry list for NS,
CNAME and DNAME. Unless the new entry is secure, a consistent entry already there that has TTL
left, is not expiring and is of at least the new rank is kept (`EEXIST`). A secure entry of
another key type overwrites without reading what is there. -/
def entryHSplice (cache : Cdb) (eh : EntryH) (rank : UInt8) (key : List UInt8) (ktype type : UInt16)
    (timestamp : UInt32) : Except Int Cdb :=
  let secure := krRankTest rank krRankSecure
  let val := if !secure || ktype = knotRrtypeNs then (cdbRead cache key).toOption else none
  -- the entry list, empty when there is none or it does not parse
  let el := match val with
    | some v => (entryListParse v).toOption.getD entryApexEmpty
    | none => entryApexEmpty
  let ehOrig := match val.map (entryHSeek · type) with
    | some (.ok (some o)) => if entryHConsistent o then some o else none
    | _ => none
  let fresher := match ehOrig with
    | some o =>
      let oldTtl := getNewTtl o timestamp
      decide (0 < oldTtl) && !isExpiring o.ttl (UInt32.ofInt oldTtl) && decide (rank ≤ o.rank)
    | none => false
  if !secure && fresher then .error (krError EEXIST)
  else if inEntryList type then cacheWriteOrClear cache key (.apex (el.setEntry type eh))
  else cacheWriteOrClear cache key (.entry eh)

theorem entryHSeek_setEntry {type : UInt16} (ht : inEntryList type) (ea : EntryApex) (eh : EntryH) :
    entryHSeek (.apex (ea.setEntry type eh)) type = .ok (some eh) := by
  rcases ht with rfl | rfl | rfl <;> rfl

theorem entryHSeek_entry {type : UInt16} (ht : ¬inEntryList type) (eh : EntryH) :
    entryHSeek (.entry eh) type = .ok (some eh) := by
  simp only [inEntryList, not_or] at ht
  simp only [entryHSeek, ht.1, ht.2.1, ht.2.2, if_false, CacheVal.entryH?]

/-- The shape of `entry_h_splice`: it keeps what is there, or writes the entry on its own or into
an entry list. -/
theorem entryHSplice_shape (cache : Cdb) (eh : EntryH) (rank : UInt8) (key : List UInt8)
    (ktype type : UInt16) (timestamp : UInt32) :
    ∃ (keep : Bool) (el : EntryApex), entryHSplice cache eh rank key ktype type timestamp =
      if keep then .error (krError EEXIST)
      else if inEntryList type then cacheWriteOrClear cache key (.apex (el.setEntry type eh))
      else cacheWriteOrClear cache key (.entry eh) :=
  ⟨_, _, rfl⟩

/-- After `entry_h_splice`, the entry is found under its key, and nothing else has changed. -/
theorem entryHSplice_eq_ok {cache c : Cdb} {eh : EntryH} {rank : UInt8} {key : List UInt8}
    {ktype type : UInt16} {timestamp : UInt32}
    (h : entryHSplice cache eh rank key ktype type timestamp = .ok c) :
    (∃ v, cdbRead c key = .ok v ∧ entryHSeek v type = .ok (some eh)) ∧
      ∀ key', key' ≠ key → cdbRead c key' = cdbRead cache key' := by
  obtain ⟨keep, el, hshape⟩ := entryHSplice_shape cache eh rank key ktype type timestamp
  rw [hshape] at h
  split_ifs at h with hkeep ht
  · obtain ⟨hread, hframe⟩ := cacheWriteOrClear_eq_ok h
    exact ⟨⟨_, hread, entryHSeek_setEntry ht _ eh⟩, hframe⟩
  · obtain ⟨hread, hframe⟩ := cacheWriteOrClear_eq_ok h
    exact ⟨⟨_, hread, entryHSeek_entry ht eh⟩, hframe⟩

/-! ## `stash_rrset` -/

/-- The TTL bounds of `struct kr_cache`, `KR_CACHE_DEFAULT_TTL_MIN` and `_MAX` unless set. -/
structure KrCacheTtl where
  ttlMin : UInt32 := 5
  ttlMax : UInt32 := 6 * 24 * 3600
  deriving DecidableEq, Repr

/-- What stashing the records of a query changes: the database, `nsec_pmap` (the signers of the
NSEC* records stashed, with the parameters of an NSEC3 chain) and `has_optout`. -/
structure StashState where
  cache : Cdb
  nsecPmap : List (Dname × Option Nsec3.Nsec3Params) := []
  hasOptout : Bool := false

/-- `trie_get_ins` of the signer into `nsec_pmap`, and for NSEC3 the chain's parameters copied
into a value still empty. -/
def nsecPmapIns (m : List (Dname × Option Nsec3.Nsec3Params)) (signer : Dname)
    (params : Option Nsec3.Nsec3Params) : List (Dname × Option Nsec3.Nsec3Params) :=
  match m.lookup signer with
  | none => m ++ [(signer, params)]
  | some none => m.map fun q => if q.1 = signer then (signer, params) else q
  | some (some _) => m

/-- `wild_labels`: how many leftmost labels of the owner the RRSIG's label count says were expanded
from a wildcard. -/
def stashWildLabels (rr : Rrset) (rrSigs : Option Rrset) : Int :=
  match rrSigs with
  | none => 0
  | some sigs => (knotDnameLabels rr.owner : Int) - sigs.rdata.knotRrsigLabels.toNat

theorem knotWireNextLabel_iterate (n : Nat) (d : Dname) : knotWireNextLabel^[n] d = d.drop n := by
  induction n generalizing d with
  | zero => rfl
  | succ n ih => rw [Function.iterate_succ_apply, ih, knotWireNextLabel, List.drop_tail]

/-- The entry `stash_rrset` writes. -/
def stashEntry (cfg : KrCacheTtl) (rr : Rrset) (rrSigs : Option Rrset) (timestamp : UInt32)
    (rank : UInt8) : EntryH :=
  ⟨timestamp, max (min rr.ttl cfg.ttlMax) cfg.ttlMin, rank, false, false, rr.rrs,
    (rrSigs.map Rrset.rrs).getD [], none⟩

/-- `key_NSEC3`: the key of the NSEC3 record `nsec3Name` in the chain tagged `nsecPHash`, the zone
being the first `zlfLen` bytes of the name's lookup format and the hash the base32hex decoding of
its first label; the null key when that is no hash. -/
def keyNsec3 (k : CacheNsec3) (zlfLen : Nat) (nsec3Name : Dname) (nsecPHash : UInt32) :
    List UInt8 :=
  match k.base32hexDecode (nsec3Name.headD []) with
  | none => []
  | some hash =>
    if hash.length ≠ nsec3HashLen then []
    else (knotDnameLf nsec3Name).take zlfLen ++ [0, 0x33, nsecPHash.toUInt8,
      (nsecPHash >>> 8).toUInt8, (nsecPHash >>> 16).toUInt8, (nsecPHash >>> 24).toUInt8] ++ hash

/-- `stash_rrset`: whether the RRset was written, and the state after. -/
def stashRrset (k : CacheNsec3) (cfg : KrCacheTtl) (st : StashState) (rr : Rrset)
    (rrSigs : Option Rrset) (timestamp : UInt32) (rank : UInt8) : Except Int (Bool × StashState) :=
  let wildLabels := stashWildLabels rr rrSigs
  if wildLabels < 0 then .ok (false, st)
  else
    let encloser := knotWireNextLabel^[wildLabels.toNat] rr.owner
    let lf := krDnameLf encloser (wildLabels ≠ 0)
    let eh := stashEntry cfg rr rrSigs timestamp rank
    -- a refused splice, e.g. of an entry fresher than this one, is not an error
    let stashAt (key : List UInt8) (ktype : UInt16) (st : StashState) :
        Except Int (Bool × StashState) :=
      match entryHSplice st.cache eh rank key ktype rr.type timestamp with
      | .error _ => .ok (false, st)
      | .ok cache => .ok (true, { st with cache })
    if rr.type = knotRrtypeNsec3 ∧ rr.rrs.length ≠ 1 then .ok (false, st)
    else if rr.type = knotRrtypeNsec3 ∧ rr.rdata.knotNsec3Flags &&& Nsec3.optOutBit ≠ 0 then
      .ok (false, { st with hasOptout := true })
    else if rr.type = knotRrtypeNsec ∨ rr.type = knotRrtypeNsec3 then
      if !krRankTest rank krRankSecure then .ok (false, st)
      else
        match rrSigs with
        | none => .error (krError EINVAL)
        | some sigs =>
          if sigs.rrs = [] then .error (krError EINVAL)
          else
            let signer := sigs.rdata.knotRrsigSignerName
            if rr.type = knotRrtypeNsec then
              stashAt (keyNsec1 signer lf) knotRrtypeNsec
                { st with nsecPmap := nsecPmapIns st.nsecPmap signer none }
            else
              match nsec3RdataParams rr.rdata with
              | none => .error (krError EILSEQ)
              | some params =>
                stashAt (keyNsec3 k (knotDnameLf signer).length encloser (k.nsecPMkHash params))
                  knotRrtypeNsec3 { st with nsecPmap := nsecPmapIns st.nsecPmap signer (some params) }
    else
      let ktype := if rr.type = knotRrtypeCname ∨ rr.type = knotRrtypeDname then knotRrtypeNs
        else rr.type
      stashAt (keyExactType lf rr.type) ktype st

/-- Where `stash_rrset` writes a set of a type other than NSEC and NSEC3: under the name that the
label count of its RRSIG leaves, with a `*` in front when that strips labels, whatever the set's
rank and whatever the RRSIG's signer. Nothing else of the database changes. -/
theorem stashRrset_wildcard_key (k : CacheNsec3) (cfg : KrCacheTtl) (st : StashState) (rr : Rrset)
    (rrSigs : Option Rrset) (timestamp : UInt32) (rank : UInt8) {st' : StashState}
    (hnsec : rr.type ≠ knotRrtypeNsec) (hnsec3 : rr.type ≠ knotRrtypeNsec3)
    (h : stashRrset k cfg st rr rrSigs timestamp rank = .ok (true, st')) :
    0 ≤ stashWildLabels rr rrSigs ∧
      (∃ v, cdbRead st'.cache (keyExactType (krDnameLf (rr.owner.drop
          (stashWildLabels rr rrSigs).toNat) (stashWildLabels rr rrSigs ≠ 0)) rr.type) = .ok v ∧
        entryHSeek v rr.type = .ok (some (stashEntry cfg rr rrSigs timestamp rank))) ∧
      ∀ key', key' ≠ keyExactType (krDnameLf (rr.owner.drop (stashWildLabels rr rrSigs).toNat)
          (stashWildLabels rr rrSigs ≠ 0)) rr.type →
        cdbRead st'.cache key' = cdbRead st.cache key' := by
  unfold stashRrset at h
  by_cases hw : stashWildLabels rr rrSigs < 0
  · simp only [hw, ↓reduceIte] at h
    cases h
  simp only [hw, hnsec, hnsec3, false_and, or_self, ↓reduceIte, knotWireNextLabel_iterate] at h
  split at h
  · cases h
  next cache hs =>
    cases h
    obtain ⟨hread, hframe⟩ := entryHSplice_eq_ok hs
    exact ⟨Int.not_lt.1 hw, hread, hframe⟩

/-! ## An insecure RRset with a forged label count -/

/-- `www.sub.ex A 192.0.2.1`, from the zone `sub.ex`. -/
def forgedRr : Rrset :=
  ⟨[[0x77, 0x77, 0x77], [0x73, 0x75, 0x62], [0x65, 0x78]], knotRrtypeA, knotClassIn, 300,
    [.addr [192, 0, 2, 1]]⟩

/-- An RRSIG of `sub.ex` over it that claims one label, so that the set reads as an expansion of
`*.ex`, a wildcard of the parent zone. -/
def forgedSigs : Rrset :=
  ⟨forgedRr.owner, knotRrtypeRrsig, knotClassIn, 300,
    [.rrsig knotRrtypeA 8 1 300 0 0 0 [[0x73, 0x75, 0x62], [0x65, 0x78]]]⟩

def emptyCdb : Cdb := ⟨[], .nil⟩

theorem forgedRr_stashed_at_wildcard :
    ∃ st', stashRrset ⟨fun _ _ _ _ => none, fun _ => [], fun _ => none, fun _ => 0⟩ {}
        { cache := emptyCdb } forgedRr (some forgedSigs) 0 (krRankInsecure ||| krRankAuth) =
        .ok (true, st') ∧
      ∃ v, cdbRead st'.cache (keyExactType (krDnameLf [[0x65, 0x78]] true) knotRrtypeA) = .ok v ∧
        entryHSeek v knotRrtypeA =
          .ok (some (stashEntry {} forgedRr (some forgedSigs) 0 (krRankInsecure ||| krRankAuth))) := by
  obtain ⟨-, hv, -⟩ := stashRrset_wildcard_key ⟨fun _ _ _ _ => none, fun _ => [], fun _ => none,
    fun _ => 0⟩ {} { cache := emptyCdb } forgedRr (some forgedSigs) 0 (krRankInsecure ||| krRankAuth)
    (by decide) (by decide) rfl
  exact ⟨_, rfl, hv⟩

/-! ## `stash_rrarray_entry` -/

/-- `check_rrtype`: the cache skips meta-types and RRSIG sets on their own. -/
def checkRrtype (type : UInt16) : Bool := !knotRrtypeIsMetatype type && type != knotRrtypeRrsig

/-- `check_dname_for_lf`: no label holds a zero byte, which would end the name for `strlen`. -/
def checkDnameForLf (n : Dname) : Bool := n.all fun label => !label.contains 0

/-- `stash_rrset_precond`: `EINVAL` for a class other than IN, `false` for a type or owner the
cache skips. -/
def stashRrsetPrecond (rr : Rrset) : Except Int Bool :=
  if rr.rclass ≠ knotClassIn then .error (krError EINVAL)
  else .ok (checkRrtype rr.type && checkDnameForLf rr.owner)

/-- The search of `stash_rrarray_entry` for the signatures of `rr`, from the end of the array: an
RRSIG set of the same query, not cached, whose first record covers `rr`'s type, at `rr`'s owner. -/
def findRrsigs (arr : List RankedEntry) (qryUid : UInt32) (rr : Rrset) : Option Nat :=
  let ok (e : RankedEntry) : Bool :=
    e.qryUid == qryUid && !e.cached && e.rr.type == knotRrtypeRrsig &&
      e.rr.rdata.knotRrsigTypeCovered == rr.type && rr.owner == e.rr.owner
  (arr.reverse.findIdx? ok).map (arr.length - 1 - ·)

/-- `entry->cached = true`. -/
def markCached (arr : List RankedEntry) (i : Nat) : List RankedEntry :=
  arr.modify i fun e => { e with cached := true }

/-- `stash_rrarray_entry` for the entry `i` of `arr`: the array with the entry and its RRSIGs
marked as cached once written, the state, and the count of non-authoritative sets written. -/
def stashRrarrayEntry (k : CacheNsec3) (cfg : KrCacheTtl) (arr : List RankedEntry) (i : Nat)
    (qryUid timestamp : UInt32) (st : StashState) (unauthCnt : Nat) :
    Except Int (List RankedEntry × StashState × Nat) :=
  match arr[i]? with
  | none => .ok (arr, st, unauthCnt)
  | some entry =>
    if entry.cached ∨ entry.rr.type = knotRrtypeRrsig then .ok (arr, st, unauthCnt)
    else
      match stashRrsetPrecond entry.rr with
      | .error e => .error e
      | .ok false => .ok (arr, st, unauthCnt)
      | .ok true =>
        let sigsAt := findRrsigs arr qryUid entry.rr
        match stashRrset k cfg st entry.rr (sigsAt.bind fun j => arr[j]?.map (·.rr)) timestamp
            entry.rank with
        | .error e => .error e
        | .ok (false, st) => .ok (arr, st, unauthCnt)
        | .ok (true, st) =>
          let arr := markCached arr i
          let arr := match sigsAt with
            | some j => markCached arr j
            | none => arr
          let unauth := !krRankTest entry.rank krRankAuth && entry.rr.type != knotRrtypeNs
          .ok (arr, st, if unauth then unauthCnt + 1 else unauthCnt)

/-! ## Stashed as a wildcard of the parent zone -/

/-- The records the iterator selected for query 1: the A set, ranked `KR_RANK_INSECURE |
KR_RANK_AUTH` as in a zone without a chain of trust, and its RRSIG. -/
def forgedSelected : List RankedEntry :=
  [{ qryUid := 1, rank := krRankInsecure ||| krRankAuth, toWire := true, rr := forgedRr },
    { qryUid := 1, rank := krRankInsecure ||| krRankAuth, toWire := false, rr := forgedSigs }]

/-- Stashing the insecure A set of `www.sub.ex` stores it as `*.ex A`, and `try_wild` then
answers `c.ex A` in the parent zone from it, at a rank no trust anchor is needed for. -/
theorem insecure_rrset_answers_for_parent :
    ∃ arr' st' n, stashRrarrayEntry ⟨fun _ _ _ _ => none, fun _ => [], fun _ => none, fun _ => 0⟩
        {} forgedSelected 0 1 0 { cache := emptyCdb } 0 =
        .ok (arr', st', n) ∧
      krRankTest (krRankInsecure ||| krRankAuth) krRankSecure = false ∧
      (tryWild st'.cache 100 (krRankInitial ||| krRankAuth) [[0x63], [0x65, 0x78]] {}
        [[0x65, 0x78]] knotRrtypeA).1 = krOk ∧
      ((tryWild st'.cache 100 (krRankInitial ||| krRankAuth) [[0x63], [0x65, 0x78]] {}
        [[0x65, 0x78]] knotRrtypeA).2.answer.map AnswerRrset.rr) =
        some ⟨[[0x63], [0x65, 0x78]], knotRrtypeA, knotClassIn, 200, [.addr [192, 0, 2, 1]]⟩ :=
  ⟨_, _, _, rfl, rfl, rfl, rfl⟩

end KnotResolver.Cache
