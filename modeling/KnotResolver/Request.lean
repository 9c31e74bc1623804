import KnotResolver.Ranked
import KnotResolver.Pkt

/-! Queries of the resolution plan (`lib/rplan.h`), requests (`struct kr_request` of
`lib/resolve.h`) and the loop that runs one callback of every module layer (`RESUME_LAYERS`).

A module's callback may change the whole request through its pointer, and its return value
becomes the request's state; a module layer is therefore a function on requests. -/

namespace KnotResolver

/-- `enum kr_layer_state`. -/
inductive KrLayerState where
  | consume
  | produce
  | done
  | fail
  | yield
  deriving DecidableEq, Repr

/-- The flags of `struct kr_qflags` that the modelled code reads. -/
structure KrQflags where
  noMinimize : Bool := false
  noThrottle : Bool := false
  resolved : Bool := false
  awaitCut : Bool := false
  cached : Bool := false
  expiring : Bool := false
  allowLocal : Bool := false
  dnssecWant : Bool := false
  dnssecBogus : Bool := false
  dnssecInsecure : Bool := false
  stub : Bool := false
  alwaysCut : Bool := false
  dnssecWexpand : Bool := false
  permissive : Bool := false
  strict : Bool := false
  cname : Bool := false
  trace : Bool := false
  dnssecOptout : Bool := false
  nonauth : Bool := false
  forward : Bool := false
  deriving DecidableEq, Repr

/-- `struct kr_query`, with the chain of queries whose CNAME it follows (`cname_parent`). -/
structure KrQuery where
  uid : UInt32
  sname : Dname
  stype : UInt16
  sclass : UInt16
  flags : KrQflags
  reorder : UInt16 := 0
  cnameParent : Option KrQuery := none
  deriving Repr

/-- `struct kr_request`. -/
structure KrRequest where
  state : KrLayerState
  answer : KnotPkt
  answSelected : List RankedEntry
  authSelected : List RankedEntry
  additional : List Rrset
  /-- `rplan.pending`, the last element being the tail of the array. -/
  pending : List KrQuery
  resolved : List KrQuery
  /-- `qsource.flags.tls`. -/
  qsourceTls : Bool
  rank : UInt8

/-- A module layer's callback. -/
abbrev KrLayer := KrRequest → KrRequest

/-- `ITERATE_LAYERS`: run the callback of every module in turn, stopping after one that yields. -/
def iterateLayers : List KrLayer → KrRequest → KrRequest
  | [], r => r
  | f :: fs, r => if (f r).state = .yield then f r else iterateLayers fs (f r)

end KnotResolver
