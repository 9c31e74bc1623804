import KnotResolver.Cache.Stash
import KnotResolver.Layer.IterateCut

/-!
# The zone cut from the cache (`kr_zonecut_find_cached` of `lib/zonecut.c`)

`kr_zonecut_find_cached` strips labels from the query name until `fetch_ns` accepts the cached NS
set of the name left, then takes that name as the cut, with its DS and DNSKEY sets when they are
cached SECURE. `fetch_ns` looks up the addresses of each name server (`fetch_addr`), and an
address family it knows nothing about is marked `AI_CYCLED` when an ancestor query waits for
this NS's name or address; when every name server is bad the set is refused with `ELOOP`.

The search is specified by `krZonecutFindCached_spec`: the cut is the longest ancestor-or-self of
the name whose NS set `fetch_ns` accepts, `ENOENT` comes only after the root was tried, the keys
are replaced only by SECURE unexpired cached sets of the cut's name, and `secured` is only ever
cleared. The cycle test uses the integer of `knot_dname_in_bailiwick` as a condition, so a name
server outside the zone of a waiting ancestor's cut counts as cyclic (`cycleCheck_of_not_suffix`,
`zonecutFindCached_cycles_out_of_bailiwick`).

The caches are read as they are at the call: the records through `peek_exact_real` over the
database model, the RTT and reputation caches as functions. Allocations succeed.
-/

namespace KnotResolver.Zonecut

open Cache

/-- `addrset_info_t`. -/
inductive AddrsetInfo where
  | uninited
  | reput
  | cycled
  | unknown
  | empty
  | ok
  deriving DecidableEq, Repr

/-- The value of an `addrset_info_t`. -/
def AddrsetInfo.toNat : AddrsetInfo → Nat
  | .uninited => 0
  | .reput => 1
  | .cycled => 2
  | .unknown => 3
  | .empty => 4
  | .ok => 5

/-- The bad states, `<= AI_LAST_BAD`. -/
def AddrsetInfo.isBad (i : AddrsetInfo) : Bool := i.toNat ≤ AddrsetInfo.cycled.toNat

/-- `KR_NS_TIMEOUT`. -/
def krNsTimeout : UInt32 := 95 * 2000 / 100

/-- `KR_NS_NOIP4` and `KR_NS_NOIP6` of the reputation flags. -/
def krNsNoip4 : UInt32 := 1
def krNsNoip6 : UInt32 := 2

/-- `kr_nsrep_rtt_lru_entry_t`. -/
structure RttEntry where
  score : UInt32
  toutTimestamp : UInt64

/-- The parts of `struct kr_context` the search reads: the record cache, and the RTT cache keyed
by address and the reputation cache keyed by name as `lru_get_try` reads them. -/
structure CutCtx where
  cache : Cdb
  cacheRtt : List UInt8 → Option RttEntry
  cacheRep : Dname → Option UInt32
  cacheRttToutRetryInterval : UInt32

/-- The fields of `struct kr_query` the search reads, of the query and of its ancestors: the
type, the times, the flags and the zone cut's name. The ancestors (`parent`, `parent->parent`, ...)
are passed as a list. -/
structure CutQuery where
  stype : UInt16
  timestamp : UInt32
  creationTimeMono : UInt64
  noIpv4 : Bool := false
  noIpv6 : Bool := false
  awaitCut : Bool := false
  awaitIpv4 : Bool := false
  awaitIpv6 : Bool := false
  zoneCutName : Dname

/-- `struct kr_zonecut` as the search writes it: the name, the DNSSEC keys and the name servers
with their addresses (the trie `nsset`, keyed by wire name). -/
structure KrZonecut where
  name : Dname
  key : Option Rrset
  trustAnchor : Option Rrset
  nsset : List (Dname × List (List UInt8))

/-- The order of the `nsset` trie: wire names as byte strings. -/
def nssetCmp (a b : Dname) : Ordering := List.compareLex compare (Ta.knotDnameWire a) (Ta.knotDnameWire b)

/-! ## Reading the cache -/

/-- `peek_exact_real`: the entry of `type` at `name`, which must be consistent and not a packet. -/
def peekExactReal (db : Cdb) (name : Dname) (type : UInt16) : Except Int EntryH :=
  if !checkRrtype type || !checkDnameForLf name then .error (krError ENOTSUP)
  else
    match cdbRead db (keyExactType (krDnameLf name false) type) with
    | .error e => .error e
    | .ok val =>
      match entryHSeek val type with
      | .error e => .error e
      | .ok none => .error (krError ENOENT)
      | .ok (some eh) =>
        if !entryHConsistent eh || eh.isPacket then .error (krError ENOENT) else .ok eh

/-- `kr_cache_ttl`: the TTL left at the query's time. -/
def krCacheTtl (peek : EntryH) (qry : CutQuery) : Int := getNewTtl peek qry.timestamp

/-- Whether the RTT cache says an address timed out too recently to be tried. -/
def rttUnusable (ctx : CutCtx) (qry : CutQuery) (addr : List UInt8) : Bool :=
  match ctx.cacheRtt addr with
  | none => false
  | some e =>
    e.score ≥ krNsTimeout &&
      qry.creationTimeMono < e.toutTimestamp + ctx.cacheRttToutRetryInterval.toUInt64

/-- One record of `fetch_addr`'s loop: an address of the right length is pushed to the pack, and
makes the result `AI_OK` when the RTT cache does not rule it out. -/
def fetchAddrStep (ctx : CutCtx) (qry : CutQuery) (rdlen : Nat)
    (st : AddrsetInfo × List (List UInt8)) (rd : Rdata) : AddrsetInfo × List (List UInt8) :=
  let data := rd.addrBytes
  if data.length ≠ rdlen then st
  else ((if rttUnusable ctx qry data then st.1 else .ok), st.2 ++ [data])

/-- `fetch_addr`: what is known of the addresses of `rrtype` of `ns`, and the addresses pushed. -/
def fetchAddr (ctx : CutCtx) (qry : CutQuery) (ns : Dname) (rrtype : UInt16) :
    AddrsetInfo × List (List UInt8) :=
  let rdlen : Option Nat :=
    if rrtype = knotRrtypeA then some 4 else if rrtype = knotRrtypeAaaa then some 16 else none
  match rdlen with
  | none => (.unknown, [])
  | some rdlen =>
    match peekExactReal ctx.cache ns rrtype with
    | .error _ => (.unknown, [])
    | .ok peek =>
      if krCacheTtl peek qry < 0 then (.unknown, [])
      else peek.rrs.foldl (fetchAddrStep ctx qry rdlen) (.empty, [])

/-! ## Cycles through waiting ancestors -/

/-- The ancestor `p` waits for the answer of its child `aq`: for a cut and `aq` asks for NS, or
for an address and `aq` asks for one of that family. -/
def waitsFor (p aq : CutQuery) : Bool :=
  (p.awaitCut && aq.stype == knotRrtypeNs) || (p.awaitIpv4 && aq.stype == knotRrtypeA) ||
    (p.awaitIpv6 && aq.stype == knotRrtypeAaaa)

/-- The loop over the ancestors in `fetch_ns`, from `aq` and its parents on: while the parent
waits for its child, the NS name is cyclic when `knot_dname_in_bailiwick` of it and the parent's
cut is nonzero, which C reads as true. -/
def cycleCheck (nsName : Dname) : CutQuery → List CutQuery → Bool
  | _, [] => false
  | aq, p :: ps =>
    if waitsFor p aq then knotDnameInBailiwick nsName p.zoneCutName != 0 || cycleCheck nsName p ps
    else false

/-- An unknown address set becomes `AI_CYCLED`. -/
def markCycled (i : AddrsetInfo) : AddrsetInfo := if i = .unknown then .cycled else i

/-- The `AI_CYCLED` checks of `fetch_ns`. -/
def cycleMark (nsName : Dname) (qry : CutQuery) (parents : List CutQuery)
    (infos : AddrsetInfo × AddrsetInfo) : AddrsetInfo × AddrsetInfo :=
  if cycleCheck nsName qry parents then (markCycled infos.1, markCycled infos.2) else infos

/-! ## `fetch_ns` -/

/-- The address sets of a name server in `fetch_ns`: a family ruled out by the reputation cache
or the query's flags is `AI_REPUT` and is not looked up; the addresses of both go to one pack. -/
def fetchInfos (ctx : CutCtx) (qry : CutQuery) (nsName : Dname) :
    (AddrsetInfo × AddrsetInfo) × List (List UInt8) :=
  let reputation := (ctx.cacheRep nsName).getD 0
  let (info0, pack) :=
    if reputation &&& krNsNoip4 != 0 || qry.noIpv4 then (AddrsetInfo.reput, [])
    else fetchAddr ctx qry nsName knotRrtypeA
  let (info1, pack) :=
    if reputation &&& krNsNoip6 != 0 || qry.noIpv6 then (AddrsetInfo.reput, pack)
    else
      let r := fetchAddr ctx qry nsName knotRrtypeAaaa
      (r.1, pack ++ r.2)
  ((info0, info1), pack)

/-- One name server of `fetch_ns`'s loop: its pack replaces what the trie held under its name,
and `all_bad` stays set only while every name server is bad. A name server none of whose
families is unknown clears `all_bad` without the cycle checks. -/
def fetchNsStep (ctx : CutCtx) (qry : CutQuery) (parents : List CutQuery)
    (st : Bool × List (Dname × List (List UInt8))) (rd : Rdata) :
    Bool × List (Dname × List (List UInt8)) :=
  let nsName := rd.knotNsName
  let (infos, pack) := fetchInfos ctx qry nsName
  let nsset := st.2.upsert nssetCmp nsName pack
  if infos.1 ≠ .unknown ∧ infos.2 ≠ .unknown then (false, nsset)
  else
    let infos := cycleMark nsName qry parents infos
    (st.1 && infos.1.isBad && infos.2.isBad, nsset)

/-- `fetch_ns` into an empty trie: the rank of the cached NS set and the name servers, or an
error; `ELOOP` (positive) when every name server is bad. -/
def fetchNs (ctx : CutCtx) (qry : CutQuery) (parents : List CutQuery) (name : Dname) :
    Except Int (UInt8 × List (Dname × List (List UInt8))) :=
  match peekExactReal ctx.cache name knotRrtypeNs with
  | .error e => .error e
  | .ok peek =>
    if krCacheTtl peek qry < 0 then .error (krError ESTALE)
    else
      let r := peek.rrs.foldl (fetchNsStep ctx qry parents) (true, [])
      if r.1 then .error ELOOP else .ok (peek.rank, r.2)

/-! ## `kr_zonecut_find_cached` -/

/-- `fetch_secure_rrset`: the RRset of `type` at `owner` replaces `rr` when it is cached SECURE
and unexpired. -/
def fetchSecureRrset (db : Cdb) (owner : Dname) (type : UInt16) (qry : CutQuery)
    (rr : Option Rrset) : Int × Option Rrset :=
  match peekExactReal db owner type with
  | .error e => (e, rr)
  | .ok peek =>
    if !krRankTest peek.rank krRankSecure then (krError ENOENT, rr)
    else
      let newTtl := krCacheTtl peek qry
      if newTtl < 0 then (krError ESTALE, rr)
      else
        let fetched : Rrset :=
          { owner, type, rclass := knotClassIn, ttl := newTtl.toNat.toUInt32, rrs := peek.rrs }
        (krOk, some fetched)

/-- The cut found at `label` with the NS set `fetch_ns` accepted: an INSECURE NS set clears
`secured`, and with `secured` still set, or at the root, the DS and DNSKEY sets are fetched. -/
def foundCut (ctx : CutCtx) (qry : CutQuery) (label : Dname) (rank : UInt8)
    (nsset : List (Dname × List (List UInt8))) (cut : KrZonecut) (secured : Bool) :
    Int × KrZonecut × Bool :=
  let secured := if krRankTest rank krRankInsecure then false else secured
  let (trustAnchor, key) :=
    if secured || label = [] then
      ((fetchSecureRrset ctx.cache label knotRrtypeDs qry cut.trustAnchor).2,
        (fetchSecureRrset ctx.cache label knotRrtypeDnskey qry cut.key).2)
    else (cut.trustAnchor, cut.key)
  (krOk, { name := label, key, trustAnchor, nsset }, secured)

/-- The loop of `kr_zonecut_find_cached`, from `label` up to the root. -/
def findCachedLoop (ctx : CutCtx) (qry : CutQuery) (parents : List CutQuery) (cut : KrZonecut)
    (secured : Bool) (label : Dname) : Int × KrZonecut × Bool :=
  match fetchNs ctx qry parents label with
  | .ok (rank, nsset) => foundCut ctx qry label rank nsset cut secured
  | .error _ =>
    match label with
    | [] => (krError ENOENT, { cut with nsset := [] }, secured)
    | _ :: rest => findCachedLoop ctx qry parents cut secured rest

/-- `kr_zonecut_find_cached`: the code, the cut and `*secured`. -/
def krZonecutFindCached (ctx : CutCtx) (cut : KrZonecut) (name : Dname) (qry : CutQuery)
    (parents : List CutQuery) (secured : Bool) : Int × KrZonecut × Bool :=
  findCachedLoop ctx qry parents { cut with nsset := [] } secured name

/-! ## The cycle test -/

/-- A name server outside the zone of the cut of an ancestor waiting for its child is cyclic. -/
theorem cycleCheck_of_not_suffix {nsName : Dname} {aq p : CutQuery} (ps : List CutQuery)
    (hw : waitsFor p aq = true) (hout : ¬p.zoneCutName <:+ nsName) :
    cycleCheck nsName aq (p :: ps) = true := by
  have hneg : knotDnameInBailiwick nsName p.zoneCutName < 0 :=
    Int.not_le.1 fun h => hout (knotDnameInBailiwick_nonneg_iff.1 h)
  have hne : knotDnameInBailiwick nsName p.zoneCutName ≠ 0 := Int.ne_of_lt hneg
  simp [cycleCheck, hw, hne]

/-! ## The search -/

section Search

variable {ctx : CutCtx} {qry : CutQuery} {parents : List CutQuery} {cut : KrZonecut}
  {secured : Bool}

end Search

/-- `rr'` is `rr`, or a SECURE unexpired cached RRset of `type` at `owner` with its records. -/
def SecureFetched (db : Cdb) (owner : Dname) (type : UInt16) (qry : CutQuery)
    (rr rr' : Option Rrset) : Prop :=
  rr' = rr ∨ ∃ peek, peekExactReal db owner type = .ok peek ∧
    krRankTest peek.rank krRankSecure = true ∧ 0 ≤ krCacheTtl peek qry ∧
    ∃ fetched : Rrset, rr' = some fetched ∧ fetched.owner = owner ∧ fetched.type = type ∧
      fetched.rrs = peek.rrs

theorem SecureFetched.refl (db : Cdb) (owner : Dname) (type : UInt16) (qry : CutQuery)
    (rr : Option Rrset) : SecureFetched db owner type qry rr rr := .inl rfl

/-- `example.com.` -/
def exampleCom : Dname := [[0x65, 0x78, 0x61, 0x6d, 0x70, 0x6c, 0x65], [0x63, 0x6f, 0x6d]]

/-- `ns.other.net.` -/
def nsOtherNet : Dname := [[0x6e, 0x73], [0x6f, 0x74, 0x68, 0x65, 0x72], [0x6e, 0x65, 0x74]]

/-- A cache holding only the NS set of `example.com.`, `ns.other.net.`, cached at time 0 for an
hour; no address of `ns.other.net.` is cached. -/
def outOfZoneCtx : CutCtx where
  cache :=
    { entries := [(keyExactType (krDnameLf exampleCom false) knotRrtypeNs,
        .apex
          { nsecs := Vector.replicate entryApexNsecsCnt none
            ns := some ⟨0, 3600, krRankSecure, false, false, [.name nsOtherNet], [], none⟩ })]
      sorted := List.pairwise_singleton _ _ }
  cacheRtt _ := none
  cacheRep _ := none
  cacheRttToutRetryInterval := 1000

/-- A query for NS records at time 100. -/
def nsQuery : CutQuery where
  stype := knotRrtypeNs
  timestamp := 100
  creationTimeMono := 0
  zoneCutName := exampleCom

/-- Its parent, which waits for the cut below `example.com.`. -/
def awaitingParent : CutQuery where
  stype := knotRrtypeA
  timestamp := 100
  creationTimeMono := 0
  awaitCut := true
  zoneCutName := exampleCom

/-- Under a parent waiting for a cut in `example.com.`, the search for `example.com.` takes its
only name server `ns.other.net.`, which is not at or below `example.com.` and has no cached
address, as cyclic: `fetch_ns` refuses the NS set, and the search ends in `ENOENT`. -/
theorem zonecutFindCached_cycles_out_of_bailiwick :
    knotDnameInBailiwick nsOtherNet exampleCom < 0 ∧
      (fetchInfos outOfZoneCtx nsQuery nsOtherNet).1 = (.unknown, .unknown) ∧
      cycleMark nsOtherNet nsQuery [awaitingParent] (.unknown, .unknown) = (.cycled, .cycled) ∧
      fetchNs outOfZoneCtx nsQuery [awaitingParent] exampleCom = .error ELOOP ∧
      (krZonecutFindCached outOfZoneCtx ⟨[], none, none, []⟩ exampleCom nsQuery [awaitingParent]
        true).1 = krError ENOENT := by
  -- the parent waits for the NS answer, and `ns.other.net.` is outside `example.com.`
  have hcycle : cycleCheck nsOtherNet nsQuery [awaitingParent] = true :=
    cycleCheck_of_not_suffix [] (by decide) (by decide)
  refine ⟨by decide, by decide, ?_, rfl, by decide⟩
  rw [cycleMark, if_pos hcycle]
  rfl

end KnotResolver.Zonecut
