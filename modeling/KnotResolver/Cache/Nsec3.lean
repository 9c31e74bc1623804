import KnotResolver.Cache.Nsec1
import KnotResolver.Fold

/-!
# Aggressive negative answers from cached NSEC3 (`lib/cache/nsec3.c`)

NSEC3 records are cached under the key of their hash: the zone's lookup format, `0 '3'`, a hash
of the chain's parameters (`nsec_p_mkHash`) and the 20 bytes of the NSEC3 hash, so that one range
search finds the NSEC3 matching or covering the hash of a name. `nsec3_encloser` walks from the
query name towards the zone apex, looking for a name whose hash is covered right below one whose
hash is matched: the next closer name and the closest provable encloser of RFC 5155.
`nsec3_src_synth` then looks for the NSEC3 of the wildcard at the closest encloser.

The NSEC3 hash, `base32hex_encode`, `base32hex_decode` and `nsec_p_mkHash` are parameters
(`CacheNsec3`).
-/

namespace KnotResolver.Cache

open Nsec

/-- `NSEC3_HASH_LEN`. -/
def nsec3HashLen : Nat := 20

/-- What the NSEC3 part of the cache takes from outside: `dnssec_nsec3_hash` (by algorithm,
iterations and salt), `base32hex_encode` and `base32hex_decode`, and `nsec_p_mkHash`, which tags
the keys of a chain. -/
structure CacheNsec3 where
  nsec3Hash : UInt8 → UInt16 → List UInt8 → Dname → Option (List UInt8)
  base32hexEncode : List UInt8 → List UInt8
  base32hexDecode : List UInt8 → Option (List UInt8)
  nsecPMkHash : Nsec3.Nsec3Params → UInt32

/-- `key_NSEC3_common`: the zone's lookup format, `0 '3'` and the tag of the chain in host byte
order. -/
def keyNsec3Common (zname : Dname) (nsecPHash : UInt32) : List UInt8 :=
  knotDnameLf zname ++ [0, 0x33, nsecPHash.toUInt8, (nsecPHash >>> 8).toUInt8,
    (nsecPHash >>> 16).toUInt8, (nsecPHash >>> 24).toUInt8]

/-- The NSEC3 parameters at the start of a record, as `find_leq_NSEC3` compares them. -/
def nsec3RdataParams : Rdata → Option Nsec3.Nsec3Params
  | .nsec3 alg flags iterations salt _ _ => some ⟨alg, flags, iterations, salt⟩
  | _ => none

section Sourced

variable {cache : Cdb} {now : UInt32} {lowest : UInt8} {p : NsecP} {zname : Dname}
  {k : CacheNsec3} {params : Nsec3.Nsec3Params}

end Sourced

end KnotResolver.Cache
