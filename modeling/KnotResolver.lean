import KnotResolver.Lex
import KnotResolver.Codec
import KnotResolver.Terminated
import KnotResolver.Buffer
import KnotResolver.Ring
import KnotResolver.Fold
import KnotResolver.SortedMap
import KnotResolver.Framing
import KnotResolver.Memory
import KnotResolver.Bitmap
import KnotResolver.Dname
import KnotResolver.Rrset
import KnotResolver.Ranked
import KnotResolver.RankedArray
import KnotResolver.Pkt
import KnotResolver.Request
import KnotResolver.Resolve.Finish
import KnotResolver.Layer.IterateCut
import KnotResolver.Layer.IterateAnswer
import KnotResolver.Dnssec.Nsec
import KnotResolver.Dnssec.NsecZone
import KnotResolver.Dnssec.Nsec3
import KnotResolver.Dnssec.Nsec3Zone
import KnotResolver.Dnssec.Validate
import KnotResolver.Dnssec.Ta
import KnotResolver.Cache.Cdb
import KnotResolver.Cache.EntryList
import KnotResolver.Cache.Answer
import KnotResolver.Cache.Nsec1
import KnotResolver.Cache.Nsec3
import KnotResolver.Cache.Peek
import KnotResolver.Cache.PeekSound
import KnotResolver.Cache.Stash
import KnotResolver.Cache.Keys
import KnotResolver.Daemon.Session
import KnotResolver.Daemon.Io
import KnotResolver.Generic.Queue
import KnotResolver.Generic.Trie
import KnotResolver.Generic.TrieKey
import KnotResolver.Generic.TrieWf
import KnotResolver.Generic.TrieOps
import KnotResolver.Generic.TrieIns
import KnotResolver.Generic.TrieIter
import KnotResolver.Generic.TrieSpec
import KnotResolver.Generic.Lru
import KnotResolver.Generic.LruWf
import KnotResolver.Generic.LruSpec
import KnotResolver.Cache.KeyOrder
import KnotResolver.Daemon.Subreq
import KnotResolver.Cache.Unpack
import KnotResolver.Straddr
import KnotResolver.Zonecut.FindCached
import KnotResolver.Daemon.Tls
import KnotResolver.Cache.Match
import KnotResolver.Generic.Pack
import KnotResolver.Generic.TrieLeq
import KnotResolver.Zonecut.Nsset
import KnotResolver.Cache.NsecRange
import KnotResolver.Cache.EntryPkt
import KnotResolver.Generic.Bits
import KnotResolver.Bitcmp
import KnotResolver.Rnd
import KnotResolver.Rrkey
import KnotResolver.Generic.SelectSort
import KnotResolver.Nsrep
import KnotResolver.Daemon.TlsTicket
import KnotResolver.Hints
import KnotResolver.HintsRelation
import KnotResolver.HintsQuery
import KnotResolver.Generic.Map
import KnotResolver.Generic.MapWf
import KnotResolver.Generic.MapSpec
import KnotResolver.Rplan
import KnotResolver.Resolve.NsAddr
import KnotResolver.Layer.IterateResolve
import KnotResolver.Dnssec.Nsec3Nodata
