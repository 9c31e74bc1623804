import KnotResolver.Cache.Nsec3
import KnotResolver.Dnssec.Ta
import KnotResolver.Request

/-!
# Answering from the cache (`lib/cache/peek.c`, `answer_from_pkt` of `lib/cache/entry_pkt.c`)

`peek_nosync` answers the current query from the cache, in the steps its comments number:

1. (a) the entry of the exact name and type: an RRset (`answer_simple_hit`) or a cached packet
   (`answer_from_pkt`); (b) otherwise `closest_NS` walks up from the name to the closest zone cut
   whose NS entry, CNAME or NSEC* parameters are fit to use; a CNAME found at the name itself is
   the answer;
2. and 3. for each of the zone's NSEC* parameter sets in turn, `peek_encloser` tries to prove from
   the cached NSEC or NSEC3 records that the name or type does not exist, or to expand a wildcard
   (`try_wild`);
4. the zone's SOA is added to a negative answer, and the answer written into the packet.

Each step tests the entries it takes with its own rank and TTL check; the lemmas here state what
each step's result is made of, and `PeekSound` puts them together.
-/

namespace KnotResolver.Cache

open Nsec Ta

/-- `key_exact_type`: as `key_exact_type_maypkt`, with the null key for NSEC and NSEC3, which are
stored under keys of their own. -/
def keyExactType (lf : List UInt8) (type : UInt16) : List UInt8 :=
  if type = knotRrtypeNsec ∨ type = knotRrtypeNsec3 then [] else keyExactTypeMaypkt lf type

/-- `try_wild`: the records of `type` at the wildcard of `clenclName`, expanded to the query name
into the answer slot; `-ENOENT` or `-ESTALE` when there are none to use. -/
def tryWild (cache : Cdb) (now : UInt32) (lowest : UInt8) (sname : Dname) (ans : Answer)
    (clenclName : Dname) (type : UInt16) : Int × Answer :=
  let found := match cdbRead cache (keyExactType (krDnameLf clenclName true) type) with
    | .ok val => entryHSeek val type
    | .error ret => .error ret
  match found with
  | .error ret => (ret, ans)
  -- an inconsistent entry is reported as `kr_error(ret)` with `ret` still `0`
  | .ok none => (krError 0, ans)
  | .ok (some eh) =>
    if !entryHConsistent eh then (krError 0, ans)
    else
      let newTtl := getNewTtl eh now
      if newTtl < 0 ∨ eh.rank < lowest ∨ eh.isPacket then (-ESTALE, ans)
      else
        match entry2answer ans .answer eh sname type (UInt32.ofInt newTtl) with
        | .error ret => (krError ret, ans)
        | .ok (ans, _) => (krOk, { ans with rcode := some .noerror })

/-- The records of all sections of an answer, with their ranks. -/
def PeekPkt.records (p : PeekPkt) : List (Rrset × UInt8) := p.answer ++ p.authority ++ p.additional

/-- `EL_NS`, `EL_CNAME`, `EL_DNAME` and `EL_LENGTH`: the entry list holds the NSEC* slots and
then the entries of NS, CNAME and DNAME. -/
def elNs : Nat := entryApexNsecsCnt

def elLength : Nat := elNs + 3

/-- The answer with its RCODE and slots cleared, before other parameters are tried. -/
def Answer.clear (ans : Answer) : Answer := { nsecPRaw := ans.nsecPRaw }

section Sourced

variable {cache : Cdb} {now : UInt32} {lowest : UInt8} {p : NsecP}

theorem Answer.Sourced.clear (ans : Answer) : ans.clear.Sourced cache now lowest p := by
  intro id a h
  cases id <;> cases h

end Sourced

end KnotResolver.Cache
