import KnotResolver.Ranked
import KnotResolver.Pkt
import KnotResolver.Dnssec.Nsec3

/-!
# Cache keys, entries and the database

The cache (`lib/cache/`) keeps its records in an LMDB database whose keys are byte strings,
ordered as `memcmp` orders them with a prefix first, i.e. by `List.compareLex compare`. A key is
built from the lookup format of a name (`knot_dname_lf`: the labels from the right, each followed
by a zero byte), so that the descendants of a name share its key as a prefix.

* `keyExactTypeMaypkt` is the key of the records of one name and type: `dname_lf`, `0`, `'E'`, type;
* `keyNsec1` is the key of an NSEC record for the range search: the zone's lookup format, `0`,
  `'1'`, then the lookup format of the name within the zone without its final zero;
* `cdbReadLeq` is the range search of `cdb_lmdb.c`: the entry at the key, or the one before.

A value is given decoded: an entry (`struct entry_h`) with its records, RRSIGs or cached packet,
or, under the key of NS, the entry list of a zone apex (`struct entry_apex`): the NSEC*
parameters of the zone and the entries of NS, CNAME and DNAME.
-/

namespace KnotResolver.Cache

/-- `knot_dname_lf`: the labels from the right, each followed by a zero byte. -/
def knotDnameLf (n : Dname) : List UInt8 := (n.reverse.map (· ++ [0])).flatten

/-- `kr_dname_lf`, optionally with a `*` label added in front of the name. -/
def krDnameLf (n : Dname) (addWildcard : Bool) : List UInt8 :=
  knotDnameLf n ++ if addWildcard then [0x2a, 0] else []

/-- `knot_dname_lf2wire` after `dname_wire_reconstruct`: the labels of a lookup format within
the zone, in front of the zone's. -/
def dnameWireReconstruct (zname : Dname) (kwz : List UInt8) : Dname :=
  (if kwz = [] then [] else (kwz.splitOn 0).reverse) ++ zname

/-- `key_exact_type_maypkt` over the lookup format in the key buffer; the type is stored in host
(little-endian) byte order, CNAME and DNAME share the key of NS, and RRSIG has the null key. -/
def keyExactTypeMaypkt (lf : List UInt8) (type : UInt16) : List UInt8 :=
  if type = knotRrtypeRrsig then []
  else
    let type := if type = knotRrtypeCname ∨ type = knotRrtypeDname then knotRrtypeNs else type
    lf ++ [0, 0x45, type.toUInt8, (type >>> 8).toUInt8]

/-- `key_nwz_off`: where the name within the zone starts in an NSEC1 key. -/
def keyNwzOff (zname : Dname) : Nat := (knotDnameLf zname).length + 2

/-- `key_NSEC1` over the lookup format `lf` that `kr_dname_lf` wrote into the key buffer: the tag
`0 '1'` goes after the zone's part, and the final zero is dropped. The empty key is the null key
returned when the name is not in the zone. -/
def keyNsec1 (zname : Dname) (lf : List UInt8) : List UInt8 :=
  let zlfLen := (knotDnameLf zname).length
  if lf.length < zlfLen then []
  else if zlfLen < lf.length then lf.take zlfLen ++ [0, 0x31] ++ (lf.drop zlfLen).dropLast
  else lf ++ [0, 0x31]

/-- The second half of `kwz_between`: `k2` against the high end `k4` of the range, given the
answer for `k2 < k4`. -/
def kwzBetweenHigh (retMaybe : Nat) (k2 k4 : List UInt8) : Nat :=
  -- an empty high end is the wrap-around to the apex
  if k4.length = 0 then (if k2.length > 0 then retMaybe else 4)
  else
    let cmp24 := memcmp k2 k4 (min k2.length k4.length)
    if cmp24 = .eq ∧ k2.length = k4.length then 4
    else if cmp24 = .gt ∨ (cmp24 = .eq ∧ k2.length > k4.length) then 5
    else retMaybe

/-- `kwz_between`: where `k2` lies with respect to the NSEC range from `k1` to `k4`; `none`
stands for a null `k1`, assumed below `k2` and no prefix of it.
0: `k2 < k1`; 1: `k2 = k1`; 2: `k1` is a prefix of `k2 < k4`; 3: `k1 < k2 < k4`, not 2;
4: `k2 = k4`; 5: `k2 > k4`. -/
def kwzBetween (k1 : Option (List UInt8)) (k2 k4 : List UInt8) : Nat :=
  match k1 with
  | some k1 =>
    let cmp12 := memcmp k1 k2 (min k1.length k2.length)
    if cmp12 = .eq ∧ k1.length = k2.length then 1
    else if cmp12 = .gt ∨ (cmp12 = .eq ∧ k1.length > k2.length) then 0
    else kwzBetweenHigh (if cmp12 = .eq then 2 else 3) k2 k4
  | none => kwzBetweenHigh 3 k2 k4

/-! ## Entries -/

/-- `struct entry_h`, with its data decoded: the records of the RRset and of its RRSIGs, or for a
packet the message, when it parses. -/
structure EntryH where
  time : UInt32
  ttl : UInt32
  rank : UInt8
  isPacket : Bool
  hasOptout : Bool
  rrs : List Rdata
  sigs : List Rdata := []
  pkt : Option KnotPkt := none
  deriving DecidableEq, Repr

/-- An NSEC* parameter slot of an apex entry: the time until which the zone's chain is used, and
for NSEC3 the parameters (`nsec_p->raw`, none for NSEC). -/
structure NsecP where
  stamp : UInt32
  raw : Option Nsec3.Nsec3Params
  deriving DecidableEq, Repr

/-- `ENTRY_APEX_NSECS_CNT`. -/
def entryApexNsecsCnt : Nat := 2

/-- `struct entry_apex` as `entry_list_parse` reads it: the NSEC* parameter slots and the entries
of NS, CNAME and DNAME. -/
structure EntryApex where
  nsecs : Vector (Option NsecP) entryApexNsecsCnt
  ns : Option EntryH := none
  cname : Option EntryH := none
  dname : Option EntryH := none
  deriving DecidableEq, Repr

/-- A value of the database. -/
inductive CacheVal where
  | entry (eh : EntryH)
  | apex (ea : EntryApex)
  deriving DecidableEq, Repr

/-- The value read as an `entry_h`; an apex's data is not one. -/
def CacheVal.entryH? : CacheVal → Option EntryH
  | .entry eh => some eh
  | .apex _ => none

/-- `entry_list_parse`: the value read as an apex. -/
def entryListParse : CacheVal → Except Int EntryApex
  | .apex ea => .ok ea
  | .entry _ => .error (krError EILSEQ)

/-- `entry_h_seek`: the entry of `type` in the value, which for NS, CNAME and DNAME is a slot of
the apex list. -/
def entryHSeek (val : CacheVal) (type : UInt16) : Except Int (Option EntryH) :=
  let slot : Option (EntryApex → Option EntryH) :=
    if type = knotRrtypeNs then some EntryApex.ns
    else if type = knotRrtypeCname then some EntryApex.cname
    else if type = knotRrtypeDname then some EntryApex.dname
    else none
  match slot with
  | none => .ok val.entryH?
  | some get =>
    match entryListParse val with
    | .error e => .error e
    | .ok ea =>
      match get ea with
      | some eh => .ok (some eh)
      | none => .error (krError ENOENT)

/-- A 32-bit value read as `int32_t`. -/
def asInt32 (x : UInt32) : Int := if x.toNat < 2 ^ 31 then x.toNat else x.toNat - 2 ^ 32

/-- `get_new_ttl` without a stale-serving callback: the TTL left at `now`, in `int32_t`
arithmetic; a negative value means expired. -/
def getNewTtl (entry : EntryH) (now : UInt32) : Int :=
  let diff := if asInt32 (now - entry.time) < 0 then 0 else now - entry.time
  asInt32 (entry.ttl - diff)

/-- The time passed since `time` as `get_new_ttl` counts it: `now - time` in `int32_t`, or `0`
when that is negative. -/
def elapsed (time now : UInt32) : UInt32 := if asInt32 (now - time) < 0 then 0 else now - time

/-- `nsec_p_ttl`: the time the chain of the slot is still used, in `int32_t` serial arithmetic;
an empty slot is `ENOENT`, an expired one `ESTALE`. -/
def nsecPTtl (p : Option NsecP) (timestamp : UInt32) : Except Int Int :=
  match p with
  | none => .error (krError ENOENT)
  | some p =>
    let newTtl := asInt32 (p.stamp - timestamp)
    if newTtl < 0 then .error (krError ESTALE) else .ok newTtl

/-- `is_expiring`: less than about a hundredth of the TTL, plus five seconds, is left. -/
def isExpiring (origTtl newTtl : UInt32) : Bool := 100 * ((newTtl.toNat : Int) - 5) < origTtl.toNat

/-- `entry_h_consistent` for an entry whose length checks passed. -/
def entryHConsistent (eh : EntryH) : Bool :=
  krRankCheck eh.rank && (!krRankTest eh.rank krRankBogus || eh.isPacket) &&
    (eh.isPacket || !eh.hasOptout)

/-- `entry_h_consistent_NSEC`. -/
def entryHConsistentNsec (eh : EntryH) : Bool :=
  entryHConsistent eh && !eh.isPacket && !eh.hasOptout

/-! ## The database -/

/-- The cache database: its values, strictly increasing in key. -/
structure Cdb where
  entries : List (List UInt8 × CacheVal)
  sorted : entries.Pairwise fun a b => List.compareLex compare a.1 b.1 = .lt

/-- The entries a value holds: the entry itself, or those of an apex list. -/
def CacheVal.entries : CacheVal → List EntryH
  | .entry eh => [eh]
  | .apex ea => [ea.ns, ea.cname, ea.dname].reduceOption

/-- `e` is an entry of the cache. -/
def Cdb.Stores (db : Cdb) (e : EntryH) : Prop := ∃ p ∈ db.entries, e ∈ p.2.entries

/-- `ea` is the entry list of a zone apex in the cache. -/
def Cdb.StoresApex (db : Cdb) (ea : EntryApex) : Prop := ∃ key, (key, .apex ea) ∈ db.entries

/-- `cdb_read`: the value at `key`, `ENOENT` when there is none. -/
def cdbRead (db : Cdb) (key : List UInt8) : Except Int CacheVal :=
  match db.entries.lookup key with
  | some v => .ok v
  | none => .error (krError ENOENT)

/-- The walk of `cdb_read_leq`: `MDB_SET_RANGE` finds the first key not below `key`, and unless
it is `key` itself, `MDB_PREV` steps back to the entry before; `prev` is the last key passed. -/
def readLeqLoop (key : List UInt8) :
    Option (List UInt8 × CacheVal) → List (List UInt8 × CacheVal) →
      Except Int (Int × List UInt8 × CacheVal)
  | _, [] => .error (krError ENOENT)
  | prev, (k, v) :: rest =>
    if List.compareLex compare k key = .lt then readLeqLoop key (some (k, v)) rest
    else if k = key then .ok (0, k, v)
    else
      match prev with
      | some (pk, pv) => .ok (1, pk, pv)
      | none => .error (krError ENOENT)

/-- `cdb_read_leq`: `0` and the entry at `key`, or `1` and the entry before the first key above
`key`; `ENOENT` when there is no key above `key` or none before it. -/
def cdbReadLeq (db : Cdb) (key : List UInt8) : Except Int (Int × List UInt8 × CacheVal) :=
  readLeqLoop key none db.entries

/-- What the walk of `cdb_read_leq` finds is an entry it passed or the one before them. -/
theorem readLeqLoop_mem {key : List UInt8} :
    ∀ {prev : Option (List UInt8 × CacheVal)} {l : List (List UInt8 × CacheVal)} {r : Int}
      {k : List UInt8} {v : CacheVal},
      readLeqLoop key prev l = .ok (r, k, v) → (k, v) ∈ l ∨ prev = some (k, v)
  | _, [], _, _, _, h => by cases h
  | prev, (k', v') :: rest, r, k, v, h => by
    unfold readLeqLoop at h
    split at h
    · rcases readLeqLoop_mem h with hmem | heq
      · exact .inl (List.mem_cons_of_mem _ hmem)
      · cases heq
        exact .inl List.mem_cons_self
    · split at h
      · cases h
        exact .inl List.mem_cons_self
      · split at h
        next pk pv => cases h; exact .inr rfl
        next => cases h

theorem cdbReadLeq_mem {db : Cdb} {key : List UInt8} {r : Int} {k : List UInt8} {v : CacheVal}
    (h : cdbReadLeq db key = .ok (r, k, v)) : (k, v) ∈ db.entries :=
  (readLeqLoop_mem h).resolve_right nofun

/-! ## Entries the cache answers from -/

/-- An entry the cache may answer from at `now`: stored, consistent, and unexpired. -/
structure Cdb.Usable (db : Cdb) (now : UInt32) (e : EntryH) : Prop where
  stored : db.Stores e
  consistent : entryHConsistent e = true
  fresh : 0 ≤ getNewTtl e now

/-- An NSEC or NSEC3 entry usable in a proof: a consistent NSEC* entry, secure and unexpired. -/
structure Cdb.SecureNsec (db : Cdb) (now : UInt32) (e : EntryH) : Prop extends db.Usable now e where
  nsec : entryHConsistentNsec e = true
  secure : krRankTest e.rank krRankSecure = true

/-- The NSEC* parameters `p` are those of a zone apex in the cache, and still in use at `now`. -/
def Cdb.NsecPLive (db : Cdb) (now : UInt32) (p : NsecP) : Prop :=
  (∃ ea, db.StoresApex ea ∧ some p ∈ ea.nsecs.toList) ∧ ∃ t, nsecPTtl (some p) now = .ok t

theorem CacheVal.entryH?_eq_some {v : CacheVal} {e : EntryH} : v.entryH? = some e ↔ v = .entry e := by
  cases v <;> simp [CacheVal.entryH?]

theorem entryHConsistent_of_nsec {e : EntryH} (h : entryHConsistentNsec e = true) :
    entryHConsistent e = true := by
  simp only [entryHConsistentNsec, Bool.and_eq_true] at h
  exact h.1.1

theorem Cdb.stores_of_mem {db : Cdb} {k : List UInt8} {e : EntryH} (h : (k, .entry e) ∈ db.entries) :
    db.Stores e :=
  ⟨_, h, List.mem_singleton_self e⟩

/-- The checks both range searches make on the entry they find: what passes is a secure NSEC*
entry of the cache. -/
theorem secureNsec_of_readLeq {db : Cdb} {key k : List UInt8} {r : Int} {v : CacheVal}
    {e : EntryH} {now : UInt32} (hread : cdbReadLeq db key = .ok (r, k, v)) (hv : v.entryH? = some e)
    (hc : entryHConsistentNsec e = true)
    (hf : ¬(getNewTtl e now < 0 ∨ (!krRankTest e.rank krRankSecure) = true)) :
    db.SecureNsec now e := by
  have hmem := cdbReadLeq_mem hread
  rw [CacheVal.entryH?_eq_some.mp hv] at hmem
  simp only [not_or, Int.not_lt, Bool.not_eq_true', Bool.not_eq_false] at hf
  exact ⟨⟨db.stores_of_mem hmem, entryHConsistent_of_nsec hc, hf.1⟩, hc, hf.2⟩

end KnotResolver.Cache
