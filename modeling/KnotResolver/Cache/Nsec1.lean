import KnotResolver.Cache.Answer
import KnotResolver.Pkt
import KnotResolver.Dnssec.NsecZone

/-!
# Aggressive negative answers from cached NSEC (`lib/cache/nsec1.c`)

`peek_encloser` answers a query from the NSEC records of the cache when they prove that the name
or the type does not exist (RFC 8198). `nsec1_encloser` finds the NSEC matching or covering the
query name by a range search (`find_leq_NSEC1`) and derives the closest encloser from the labels
the name shares with the NSEC's owner and next name; `nsec1_src_synth` then looks for the NSEC
matching or covering the wildcard at the closest encloser (the source of synthesis).

A name that an NSEC covers can still exist as an empty non-terminal: it is then an ancestor of
the NSEC's next name. `nsec1_encloser` takes this into account through the labels shared with the
next name; `nsec1_src_synth` does not, and so takes an empty non-terminal wildcard for a missing
one (`ent_wildcard_nxdomain`).
-/

namespace KnotResolver.Cache

open Nsec

/-- `AR_SOA`, returned by `nsec1_src_synth` when the proof is complete. -/
def arSoa : Int := 1

/-- `ESKIP` of `nsec1_encloser`: this NSEC does not help. -/
def eskip : Int := ENOENT

/-- What `find_leq_NSEC1` finds: the entry, whether its key matched exactly, the low end of the
NSEC within the zone, the high end (only when it covers), and the TTL left. -/
structure LeqNsec1 where
  value : EntryH
  exactMatch : Bool
  kwzLow : List UInt8
  kwzHigh : List UInt8
  newTtl : Int

/-- `find_leq_NSEC1` for `key`, the NSEC1 key of the lookup format `lf` in the key buffer. -/
def findLeqNsec1 (cache : Cdb) (now : UInt32) (zname : Dname) (lf key : List UInt8) :
    Except String LeqNsec1 :=
  let nwzOff := keyNwzOff zname
  -- the null key has length 0
  if key.length < nwzOff then .error "range search ERROR"
  else
    match cdbReadLeq cache key with
    | .error ret =>
      if ret = krError ENOENT then .error "range search miss" else .error "range search ERROR"
    | .ok (ret, keyNsec, val) =>
      match val.entryH? with
      | none => .error "range search found inconsistent entry"
      | some val =>
      if !entryHConsistentNsec val then .error "range search found inconsistent entry"
      else if getNewTtl val now < 0 ∨ !krRankTest val.rank krRankSecure then
        .error "range search found stale or insecure entry"
      else if ret = 0 then .ok ⟨val, true, keyNsec.drop nwzOff, [], getNewTtl val now⟩
      -- the NSEC starts strictly before the name; it must be in the zone and reach past it
      else if ¬(nwzOff ≤ keyNsec.length ∧ key.take nwzOff = keyNsec.take nwzOff) then
        .error "range search miss (!nsec_in_zone)"
      else
        match val.rrs with
        | [] => .error "ERROR"
        | next :: _ =>
          let zlfLen := (knotDnameLf zname).length
          let kwzHi := (krDnameLf (knotDnameToLower next.knotNsecNext) false).drop zlfLen
          if kwzBetween none (lf.drop zlfLen) kwzHi ≠ 3 then .error "range search miss (!covers)"
          else .ok ⟨val, false, keyNsec.drop nwzOff, kwzHi, getNewTtl val now⟩

/-- What `nsec1_encloser` leaves for `peek_encloser`: the answer, the label count of the closest
encloser (`-1` when the name was matched), and the ends of the NSEC covering the name. -/
structure Encloser where
  ans : Answer
  clenclLabels : Int
  coverLowKwz : List UInt8
  coverHiKwz : List UInt8

/-- `nsec1_encloser`; a failure carries its return code and the answer as it was left. -/
def nsec1Encloser (cache : Cdb) (now : UInt32) (zname sname : Dname) (stype : UInt16)
    (snameLabels : Nat) (ans : Answer) : Except (Int × Answer) Encloser :=
  let lf := krDnameLf sname false
  match findLeqNsec1 cache now zname lf (keyNsec1 zname lf) with
  | .error _ => .error (eskip, ans)
  | .ok found =>
    let owner := if found.exactMatch then sname else dnameWireReconstruct zname found.kwzLow
    match entry2answer ans .nsec found.value owner knotRrtypeNsec (UInt32.ofInt found.newTtl) with
    | .error ret => .error (ret, ans)
    | .ok (ans, nsecArr) =>
      let nsecRr := nsecArr.rr
      let bm := nsecRr.rdata.bitmap
      if found.exactMatch then
        if krNsecBitmapNodataCheck bm stype nsecRr.owner ≠ 0 then .error (eskip, ans)
        else .ok ⟨{ ans with rcode := some .nodata }, -1, found.kwzLow, found.kwzHigh⟩
      else
        -- a covered name below a delegation of the NSEC's owner is not in this zone
        let nsecMatched := knotDnameMatchedLabels nsecRr.owner sname
        if nsecMatched = knotDnameLabels nsecRr.owner ∧ krNsecChildrenInZoneCheck bm ≠ 0 then
          .error (eskip, ans)
        else
          -- the owner, the next name and their ancestors exist, and nothing else between them
          let next := knotDnameToLower nsecRr.rdata.knotNsecNext
          let clenclLabels := max nsecMatched (knotDnameMatchedLabels sname next)
          -- an empty non-terminal needs no NSEC of its own
          let rcode := if snameLabels = clenclLabels then PktClass.nodata else .nxdomain
          .ok ⟨{ ans with rcode := some rcode }, clenclLabels, found.kwzLow, found.kwzHigh⟩

/-- `nonexistence_ok`, after `kwz_between`. -/
def nonexistenceOk (cmp : Nat) (rrs : Rrset) : Bool :=
  if cmp = 3 then true
  else if cmp ≠ 2 then false
  else krNsecChildrenInZoneCheck rrs.rdata.bitmap ≠ 0

/-- `nsec1_src_synth`: `AR_SOA` when the proof is complete, `0` when the wildcard's records are
to be looked up, or an error. -/
def nsec1SrcSynth (cache : Cdb) (now : UInt32) (zname clenclName : Dname) (stype : UInt16)
    (coverLowKwz coverHiKwz : List UInt8) (ans : Answer) : Int × Answer :=
  let lf := krDnameLf clenclName true
  let key := keyNsec1 zname lf
  let nwzOff := keyNwzOff zname
  if key.length < nwzOff then (krError 1, ans)
  else
    let cmp := kwzBetween (some coverLowKwz) (key.drop nwzOff) coverHiKwz
    let sameRr := (ans.nsec.map AnswerRrset.rr).getD default
    -- the NSEC covering the name also covers the source of synthesis
    if nonexistenceOk cmp sameRr then (arSoa, ans)
    else
      let proof : Except (Int × Answer) (Bool × Rrset × Answer) :=
        if cmp = 1 then .ok (true, sameRr, ans)
        else
          match findLeqNsec1 cache now zname lf key with
          | .error _ => .error (krOk, ans)
          | .ok found =>
            match entry2answer ans .wild found.value (dnameWireReconstruct zname found.kwzLow)
                knotRrtypeNsec (UInt32.ofInt found.newTtl) with
            | .error ret => .error (ret, ans)
            | .ok (ans, arr) => .ok (found.exactMatch, arr.rr, ans)
      match proof with
      | .error r => r
      | .ok (exactMatch, nsecRr, ans) =>
        let bm := nsecRr.rdata.bitmap
        if !exactMatch then
          let nsecMatched := knotDnameMatchedLabels nsecRr.owner clenclName
          if nsecMatched = knotDnameLabels nsecRr.owner ∧ krNsecChildrenInZoneCheck bm ≠ 0 then
            (krOk, { ans with wild := none })
          -- the wildcard does not exist
          else (arSoa, ans)
        else if krNsecBitmapNodataCheck bm stype nsecRr.owner = 0 then
          (arSoa, { ans with rcode := some .nodata })
        -- the wildcard holds data: look for it
        else (krOk, { ans with rcode := some .noerror, wild := none })

/-- The wildcard lookups at the end of `peek_encloser`: the type asked for, then CNAME. -/
def tryWildLoop (tryWild : Answer → Dname → UInt16 → Int × Answer) (clenclName : Dname) :
    List UInt16 → Answer → Int × Answer
  | [], ans => (-ENOENT, ans)
  | type :: rest, ans =>
    let r := tryWild ans clenclName type
    if r.1 = krOk then (krOk, r.2)
    else if r.1 ≠ -ENOENT ∧ r.1 ≠ -ESTALE then (krError r.1, r.2)
    else tryWildLoop tryWild clenclName rest r.2

/-- `peek_encloser` for a zone signed with NSEC: `0` when the answer is complete (save for the
SOA), positive to try other parameters, negative to leave the cache. `try_wild`, the lookup of
the wildcard's records, is a parameter. -/
def peekEncloserNsec1 (tryWild : Answer → Dname → UInt16 → Int × Answer) (cache : Cdb)
    (now : UInt32) (zname sname : Dname) (stype : UInt16) (ans : Answer) : Int × Answer :=
  let snameLabels := knotDnameLabels sname
  match nsec1Encloser cache now zname sname stype snameLabels ans with
  | .error r => r
  | .ok encl =>
    let ans := encl.ans
    if ans.rcode ≠ some .nodata ∧ ans.rcode ≠ some .nxdomain then (krError EINVAL, ans)
    -- a matched name exists: no wildcard can apply
    else if ans.rcode ≠ some .nxdomain then (krOk, ans)
    else
      let clenclName := sname.drop (snameLabels - encl.clenclLabels).toNat
      let synth := nsec1SrcSynth cache now zname clenclName stype encl.coverLowKwz
        encl.coverHiKwz ans
      if synth.1 = arSoa then (krOk, synth.2)
      else if synth.1 ≠ 0 then synth
      else
        tryWildLoop tryWild clenclName
          (if stype = knotRrtypeCname then [stype] else [stype, knotRrtypeCname]) synth.2

/-! ## Where the records of the proof come from -/

/-- What `find_leq_NSEC1` returns, read back: the value of the range search, a secure NSEC entry,
with the part of its key within the zone, found at the key itself or within the zone. -/
theorem findLeqNsec1_spec {cache : Cdb} {now : UInt32} {zname : Dname} {lf key : List UInt8}
    {found : LeqNsec1} (h : findLeqNsec1 cache now zname lf key = .ok found) :
    ∃ r k v, cdbReadLeq cache key = .ok (r, k, v) ∧ v.entryH? = some found.value ∧
      cache.SecureNsec now found.value ∧ found.newTtl = getNewTtl found.value now ∧
      found.kwzLow = k.drop (keyNwzOff zname) ∧
      (r = 0 ∨ keyNwzOff zname ≤ k.length ∧
        key.take (keyNwzOff zname) = k.take (keyNwzOff zname)) := by
  unfold findLeqNsec1 at h
  dsimp only at h
  split at h
  · cases h
  split at h
  · split at h <;> cases h
  next ret keyNsec val hread =>
    split at h
    · cases h
    next e he =>
      split at h
      · cases h
      next hc =>
        split at h
        · cases h
        next hf =>
          have hs := secureNsec_of_readLeq hread he (by simpa using hc) hf
          split at h
          · next hret =>
            cases h
            exact ⟨_, _, _, hread, he, hs, rfl, rfl, .inl hret⟩
          split at h
          · cases h
          next hzone =>
            split at h
            · cases h
            split at h
            · cases h
            cases h
            exact ⟨_, _, _, hread, he, hs, rfl, rfl, .inr (not_not.1 hzone)⟩

theorem findLeqNsec1_ok {cache : Cdb} {now : UInt32} {zname : Dname} {lf key : List UInt8}
    {found : LeqNsec1} (h : findLeqNsec1 cache now zname lf key = .ok found) :
    cache.SecureNsec now found.value ∧ found.newTtl = getNewTtl found.value now := by
  obtain ⟨-, -, -, -, -, hs, hnew, -⟩ := findLeqNsec1_spec h
  exact ⟨hs, hnew⟩

theorem Cdb.SecureNsec.admits {cache : Cdb} {now : UInt32} {e : EntryH} (lowest : UInt8)
    {p : NsecP} (hs : cache.SecureNsec now e) (hp : cache.NsecPLive now p) :
    (Role.proof p).Admits cache now lowest e :=
  ⟨hs.secure, hs.nsec, hp⟩

section Sourced

variable {cache : Cdb} {now : UInt32} {lowest : UInt8} {p : NsecP} {zname : Dname}

/-- The NSEC a range search finds, put into a proof slot, keeps the answer sourced. -/
theorem Answer.Sourced.found {ans ans' : Answer} {id : ArId} {found : LeqNsec1} {lf key : List UInt8}
    {owner : Dname} {a : AnswerRrset} (hs : ans.Sourced cache now lowest p)
    (hp : cache.NsecPLive now p) (hid : id.role p = .proof p)
    (hfound : findLeqNsec1 cache now zname lf key = .ok found)
    (h : Cache.entry2answer ans id found.value owner knotRrtypeNsec (UInt32.ofInt found.newTtl) =
      .ok (ans', a)) :
    ans'.Sourced cache now lowest p := by
  obtain ⟨hsec, hnew⟩ := findLeqNsec1_ok hfound
  rw [hnew] at h
  exact hs.entry2answer hsec.toUsable (hid ▸ hsec.admits lowest hp)
    (ArId.typed_of_role hid (.inl rfl)) h

end Sourced

/-! ## Caches of one zone -/

/-- The value holds the record of position `i` of the chain, secure and unexpired at `now`. -/
def ChainValue (z : NsecZone) (now : UInt32) (i : Nat) (hi : i < z.owners.length) :
    CacheVal → Prop
  | .entry e => e.rrs = [z.chainRdata i hi] ∧ krRankTest e.rank krRankSecure = true ∧
      entryHConsistentNsec e = true ∧ 0 ≤ getNewTtl e now
  | .apex _ => False

instance (z : NsecZone) (now : UInt32) (i : Nat) (hi : i < z.owners.length) :
    (v : CacheVal) → Decidable (ChainValue z now i hi v)
  | .entry e => inferInstanceAs (Decidable (e.rrs = [z.chainRdata i hi] ∧
      krRankTest e.rank krRankSecure = true ∧ entryHConsistentNsec e = true ∧
      0 ≤ getNewTtl e now))
  | .apex _ => isFalse id

/-- The NSEC1 entries of the cache are those of the NSEC chain of `z`: an entry at the key of each
owner, holding the owner's record of the chain, secure and unexpired at `now`, and no other entry
under the zone's NSEC1 keys. -/
def CachedChain (z : NsecZone) (cache : Cdb) (now : UInt32) : Prop :=
  (∀ (i : Nat) (hi : i < z.owners.length), ∃ p ∈ cache.entries,
      p.1 = keyNsec1 z.apex (krDnameLf z.owners[i] false) ∧ ChainValue z now i hi p.2) ∧
    ∀ p ∈ cache.entries, knotDnameLf z.apex ++ [0, 0x31] <+: p.1 →
      ∃ o ∈ z.owners, p.1 = keyNsec1 z.apex (krDnameLf o false)

instance (z : NsecZone) (cache : Cdb) (now : UInt32) : Decidable (CachedChain z cache now) :=
  inferInstanceAs (Decidable ((∀ (i : Nat) (hi : i < z.owners.length), ∃ p ∈ cache.entries,
      p.1 = keyNsec1 z.apex (krDnameLf z.owners[i] false) ∧ ChainValue z now i hi p.2) ∧
    ∀ p ∈ cache.entries, knotDnameLf z.apex ++ [0, 0x31] <+: p.1 →
      ∃ o ∈ z.owners, p.1 = keyNsec1 z.apex (krDnameLf o false)))

/-! ## A wildcard that is an empty non-terminal -/

/-- `ex.` with one name below its apex, `x.*.ex.`: the wildcard `*.ex.` exists as an empty
non-terminal. -/
def entWildcardZone : NsecZone where
  apex := [[0x65, 0x78]]
  owners := [[[0x65, 0x78]], [[0x78], asteriskLabel, [0x65, 0x78]]]
  types o := if o = [[0x65, 0x78]] then
      [knotRrtypeNs, knotRrtypeSoa, knotRrtypeRrsig, knotRrtypeNsec]
    else [knotRrtypeA, knotRrtypeRrsig, knotRrtypeNsec]
  sorted := by decide
  head_apex := rfl
  below_apex := by decide
  lower_case := by decide

/-- The zone's two NSEC entries, cached at time 0 for an hour, and its SOA entry. -/
def entWildcardCache : Cdb where
  entries :=
    [ (keyNsec1 [[0x65, 0x78]] (krDnameLf [[0x65, 0x78]] false),
        .entry ⟨0, 3600, krRankSecure, false, false,
          [.nsec [[0x78], asteriskLabel, [0x65, 0x78]]
            [knotRrtypeNs, knotRrtypeSoa, knotRrtypeRrsig, knotRrtypeNsec]], [], none⟩),
      (keyNsec1 [[0x65, 0x78]] (krDnameLf [[0x78], asteriskLabel, [0x65, 0x78]] false),
        .entry ⟨0, 3600, krRankSecure, false, false,
          [.nsec [[0x65, 0x78]] [knotRrtypeA, knotRrtypeRrsig, knotRrtypeNsec]], [], none⟩),
      (keyExactTypeMaypkt (krDnameLf [[0x65, 0x78]] false) knotRrtypeSoa,
        .entry ⟨0, 3600, krRankSecure, false, false, [.soa 3600], [], none⟩) ]
  sorted := by decide

/-- At time 100 the query `a.ex. A` is answered NXDOMAIN from the cache, although the wildcard
`*.ex.` of its closest encloser exists: the apex NSEC, whose next name `x.*.ex.` lies below the
wildcard, is taken as proof that the wildcard does not exist. -/
theorem ent_wildcard_nxdomain (tryWild : Answer → Dname → UInt16 → Int × Answer) :
    CachedChain entWildcardZone entWildcardCache 100 ∧
      (peekEncloserNsec1 tryWild entWildcardCache 100 [[0x65, 0x78]] [[0x61], [0x65, 0x78]]
        knotRrtypeA {}).1 = 0 ∧
      (peekEncloserNsec1 tryWild entWildcardCache 100 [[0x65, 0x78]] [[0x61], [0x65, 0x78]]
        knotRrtypeA {}).2.rcode = some .nxdomain ∧
      entWildcardZone.Exists [asteriskLabel, [0x65, 0x78]] :=
  ⟨by decide, rfl, rfl, by decide⟩

end KnotResolver.Cache
