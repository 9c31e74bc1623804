import KnotResolver.Fold
import KnotResolver.RankedArray
import KnotResolver.Request

/-! The iterator's handling of the authority section (`lib/layer/iterate.c`, `lib/zonecut.c`):
`process_authority` walks the authority section, descends the zone cut on NS RRsets through
`update_cut`, which also collects the name servers and their glue (`fetch_glue`,
`update_nsaddr`), and moves the cut's name on an SOA, or an answer-section NS, below it.

The code is modelled as built without `STRICT_MODE`. Running out of memory is not modelled: the
allocations of the C code succeed. -/

namespace KnotResolver

/-- `struct kr_zonecut`: the name, the cut it descended from and the name servers with their
addresses (a trie keyed by the wire name). The DNSSEC keys it carries are not read here. -/
structure ZoneCut where
  name : Dname
  parent : Option ZoneCut := none
  nsset : List (Dname × List (List UInt8)) := []

/-- Add an address to an address set (`pack_t`) unless it is there. -/
def packAdd (pack : List (List UInt8)) : Option (List UInt8) → List (List UInt8)
  | none => pack
  | some addr => if addr ∈ pack then pack else pack ++ [addr]

/-- `kr_zonecut_add`: a name server, with an address when one is given. -/
def krZonecutAdd (cut : ZoneCut) (ns : Dname) (addr : Option (List UInt8)) : ZoneCut :=
  if cut.nsset.any (·.1 == ns) then
    { cut with nsset := cut.nsset.map fun p => if p.1 = ns then (p.1, packAdd p.2 addr) else p }
  else { cut with nsset := cut.nsset ++ [(ns, packAdd [] addr)] }

/-- What the iterator's `resolve` reads and changes of a request: the current query and its zone
cut, the zone cut of the query it works for (`query->parent`; `none` for the request's own
query) with that query's `ALLOW_LOCAL`, the selected RRsets, the answer's rcode and the names
of the queries pushed onto the plan for CNAME targets; with the context's options and the ranks
the cache attached to the records of a cached packet (`rr->additional`). -/
structure IterState where
  qry : KrQuery
  cut : ZoneCut
  parentCut : Option ZoneCut
  parentAllowLocal : Bool
  answSelected : List RankedEntry
  authSelected : List RankedEntry
  addSelected : List RankedEntry
  answerRcode : UInt16
  pushed : List Dname
  noIpv4 : Bool
  noIpv6 : Bool
  cachedRank : Rrset → Option UInt8

namespace IterState

/-- `kr_ranked_rrarray_add` into the array of a section (`kr_request_selected`). -/
def rrarrayAdd (s : IterState) (sec : KnotSection) (rr : Rrset) (rank : UInt8) (toWire : Bool) :
    Int × IterState :=
  match sec with
  | .answer =>
    let r := krRankedRrarrayAdd s.answSelected rr rank toWire s.qry.uid
    (r.1, { s with answSelected := r.2 })
  | .authority =>
    let r := krRankedRrarrayAdd s.authSelected rr rank toWire s.qry.uid
    (r.1, { s with authSelected := r.2 })
  | .additional =>
    let r := krRankedRrarrayAdd s.addSelected rr rank toWire s.qry.uid
    (r.1, { s with addSelected := r.2 })

end IterState

/-- The address of an A or AAAA record. -/
def Rdata.addrBytes : Rdata → List UInt8
  | .addr bytes => bytes
  | _ => []

/-- `is_valid_addr`: not the unspecified address nor a loopback one. -/
def isValidAddr (addr : List UInt8) : Bool :=
  if addr.length = 4 then !(addr.all (· == 0) || addr.head? == some 0x7f)
  else if addr.length = 16 ∧ (addr.take 15).all (· == 0) then addr.getLastD 0 > 1
  else true

/-- `update_nsaddr`: an A or AAAA record gives its owner an address in the cut. -/
def updateNsaddr (rr : Rrset) (allowLocal : Bool) (cut : ZoneCut) : KrLayerState × ZoneCut :=
  if rr.type = knotRrtypeA ∨ rr.type = knotRrtypeAaaa then
    let aLen := if rr.type = knotRrtypeA then 4 else 16
    if aLen ≠ rr.rdata.addrBytes.length then (.fail, cut)
    -- invalid addresses are ignored
    else if !allowLocal && !isValidAddr rr.rdata.addrBytes then (.consume, cut)
    else (.consume, krZonecutAdd cut rr.owner (some rr.rdata.addrBytes))
  else (.consume, cut)

/-- The RRsets of the three record sections, with their section. -/
def KnotPkt.sections (pkt : KnotPkt) : List (KnotSection × Rrset) :=
  pkt.answer.map (.answer, ·) ++ pkt.authority.map (.authority, ·) ++
    pkt.additional.map (.additional, ·)

/-- `has_glue`: an A or AAAA RRset of the name server in the packet. -/
def hasGlue (pkt : KnotPkt) (ns : Dname) : Bool :=
  pkt.sections.any fun p =>
    p.2.owner == ns && (p.2.type == knotRrtypeA || p.2.type == knotRrtypeAaaa)

/-- One RRset of the loop of `fetch_glue`: the glue is selected, with a rank that only an
in-bailiwick answer earns, and its address goes to the current query's cut. -/
def fetchGlueRr (ns : Dname) (inBailiwick : Bool) (s : IterState) (p : KnotSection × Rrset) :
    IterState :=
  let rr := p.2
  if rr.owner ≠ ns then s
  else if rr.type ≠ knotRrtypeA ∧ rr.type ≠ knotRrtypeAaaa then s
  else
    let rank := if inBailiwick ∧ p.1 = .answer then krRankInitial ||| krRankAuth else krRankOmit
    let s := (s.rrarrayAdd p.1 rr rank false).2
    if rr.type = knotRrtypeA ∧ s.noIpv4 then s
    else if rr.type = knotRrtypeAaaa ∧ s.noIpv6 then s
    else { s with cut := (updateNsaddr rr s.qry.flags.allowLocal s.cut).2 }

/-- `fetch_glue`. -/
def fetchGlue (pkt : KnotPkt) (ns : Dname) (inBailiwick : Bool) (s : IterState) : IterState :=
  pkt.sections.foldl (fetchGlueRr ns inBailiwick) s

/-- One name server of an NS RRset in `update_cut`: it joins the cut unless it lies below the
zone without glue, and its glue is fetched as the mode allows. -/
def updateCutNs (pkt : KnotPkt) (owner currentCut : Dname) (s : IterState) (rd : Rdata) :
    IterState :=
  let nsName := rd.knotNsName
  -- glue is mandatory for a name server below the zone
  if knotDnameInBailiwick nsName owner ≥ 0 ∧ hasGlue pkt nsName = false then s
  else
    let s := { s with cut := krZonecutAdd s.cut nsName none }
    let inBailiwick := decide (knotDnameInBailiwick nsName currentCut ≥ 0)
    let doFetch :=
      if s.qry.flags.permissive then true
      else if s.qry.flags.strict then decide (knotDnameInBailiwick nsName s.cut.name ≥ 0)
      else inBailiwick
    if doFetch then fetchGlue pkt nsName inBailiwick s else s

/-- `update_cut`: an NS RRset at or below the cut in force before the packet and at or above the
query name descends the cut; one outside fails a referral. -/
def updateCut (pkt : KnotPkt) (rr : Rrset) (currentCut : Dname) (s : IterState) :
    KrLayerState × IterState :=
  if ¬(knotDnameInBailiwick rr.owner currentCut ≥ 0 ∧ knotDnameInBailiwick s.qry.sname rr.owner ≥ 0)
    then (if pkt.answer = [] then .fail else .consume, s)
  else
    -- descend, remembering the parent cut
    let r : KrLayerState × IterState :=
      if rr.owner ≠ s.cut.name then (.done, { s with cut := { name := rr.owner, parent := some s.cut } })
      else (.consume, s)
    (r.1, rr.rrs.foldl (updateCutNs pkt rr.owner currentCut) r.2)

/-- The loop of `process_authority` over the authority section; `result` and
`ns_record_exists` accumulate, a failing `update_cut` ends it. -/
def authorityLoop (pkt : KnotPkt) (currentCut : Dname) :
    List Rrset → KrLayerState → Bool → IterState → KrLayerState × Bool × IterState
  | [], result, nsExists, s => (result, nsExists, s)
  | rr :: rest, result, nsExists, s =>
    if rr.type = knotRrtypeNs then
      let r := updateCut pkt rr currentCut s
      if r.1 = .fail then (.fail, true, r.2)
      else authorityLoop pkt currentCut rest (if r.1 = .done then .done else result) true r.2
    -- an SOA below the cut: another zone served by the same name servers
    else if rr.type = knotRrtypeSoa ∧ knotDnameInBailiwick rr.owner s.cut.name > 0 then
      authorityLoop pkt currentCut rest result nsExists { s with cut := { s.cut with name := rr.owner } }
    else authorityLoop pkt currentCut rest result nsExists s

/-- One RRset of the answer section in `process_authority`: a server authoritative for both
sides of a delegation answers an NS query with the child's NS RRset. -/
def answerNsStep (cut : ZoneCut) (rr : Rrset) : ZoneCut :=
  if rr.type = knotRrtypeNs ∧ knotDnameInBailiwick rr.owner cut.name > 0 then
    { cut with name := rr.owner }
  else cut

/-- `process_authority`: `.done` for a referral that moved the cut, `.consume` for an answer. -/
def processAuthority (pkt : KnotPkt) (s : IterState) : KrLayerState × IterState :=
  if s.qry.flags.forward then (.consume, s)
  -- servers sending back a CNAME with another delegation, or mixing parent and child data
  else if pkt.answer ≠ [] ∧ pkt.authority ≠ [] ∧
      (pkt.answer.headD default).type = knotRrtypeCname then (.consume, s)
  else if pkt.answer ≠ [] ∧ pkt.authority ≠ [] ∧ pkt.aa = true ∧
      (pkt.answer.headD default).type = s.qry.stype ∧ (pkt.answer.headD default).owner = s.qry.sname
    then (.consume, s)
  else
    let r := authorityLoop pkt s.cut.name pkt.authority .consume false s
    if r.1 = .fail then (.fail, r.2.2)
    else
      let s := if !r.2.1 && pkt.aa then { r.2.2 with cut := pkt.answer.foldl answerNsStep r.2.2.cut }
        else r.2.2
      -- an unhelpful referral must not be validated as an authoritative answer
      if s.qry.flags.dnssecWant ∧ r.1 = .consume ∧ pkt.aa = false ∧ pkt.answer = [] ∧ r.2.1 = true
        then (.done, s)
      else (r.1, s)

/-! ## The cut's name through `process_authority`

Only `update_cut`, the SOA branch and the answer-section NS branch rename the cut; the name
servers and their glue leave the name alone. Each renaming goes strictly down, or down from the
cut in force before the packet, so the cut never moves up or sideways of it. Only `update_cut`
checks that the query name stays below. -/

@[simp] theorem krZonecutAdd_name (cut : ZoneCut) (ns : Dname) (addr : Option (List UInt8)) :
    (krZonecutAdd cut ns addr).name = cut.name := by
  unfold krZonecutAdd; split <;> rfl

@[simp] theorem updateNsaddr_name (rr : Rrset) (allowLocal : Bool) (cut : ZoneCut) :
    (updateNsaddr rr allowLocal cut).2.name = cut.name := by
  unfold updateNsaddr
  dsimp only
  split_ifs <;> simp

@[simp] theorem IterState.rrarrayAdd_cut (s : IterState) (sec : KnotSection) (rr : Rrset)
    (rank : UInt8) (toWire : Bool) : (s.rrarrayAdd sec rr rank toWire).2.cut = s.cut := by
  cases sec <;> rfl

@[simp] theorem IterState.rrarrayAdd_qry (s : IterState) (sec : KnotSection) (rr : Rrset)
    (rank : UInt8) (toWire : Bool) : (s.rrarrayAdd sec rr rank toWire).2.qry = s.qry := by
  cases sec <;> rfl

theorem fetchGlueRr_cut (ns : Dname) (inBailiwick : Bool) (s : IterState)
    (p : KnotSection × Rrset) :
    (fetchGlueRr ns inBailiwick s p).qry = s.qry ∧
      (fetchGlueRr ns inBailiwick s p).cut.name = s.cut.name := by
  unfold fetchGlueRr
  dsimp only
  split_ifs <;> simp

/-- Fetching glue changes neither the query nor the cut's name. -/
theorem fetchGlue_cut (pkt : KnotPkt) (ns : Dname) (inBailiwick : Bool) (s : IterState) :
    (fetchGlue pkt ns inBailiwick s).qry = s.qry ∧
      (fetchGlue pkt ns inBailiwick s).cut.name = s.cut.name := by
  unfold fetchGlue
  apply List.foldl_invariant (fun t : IterState => t.qry = s.qry ∧ t.cut.name = s.cut.name)
  · intro t p _ ht
    obtain ⟨hq, hn⟩ := fetchGlueRr_cut ns inBailiwick t p
    exact ⟨hq.trans ht.1, hn.trans ht.2⟩
  · exact ⟨rfl, rfl⟩

theorem updateCutNs_cut (pkt : KnotPkt) (owner currentCut : Dname) (s : IterState) (rd : Rdata) :
    (updateCutNs pkt owner currentCut s rd).qry = s.qry ∧
      (updateCutNs pkt owner currentCut s rd).cut.name = s.cut.name := by
  -- the name server joins the cut, and its glue may be fetched
  have hfetch : ∀ b, (fetchGlue pkt rd.knotNsName b
      { s with cut := krZonecutAdd s.cut rd.knotNsName none }).qry = s.qry ∧
      (fetchGlue pkt rd.knotNsName b
        { s with cut := krZonecutAdd s.cut rd.knotNsName none }).cut.name = s.cut.name := by
    intro b
    obtain ⟨hq, hn⟩ := fetchGlue_cut pkt rd.knotNsName b
      { s with cut := krZonecutAdd s.cut rd.knotNsName none }
    exact ⟨hq, by simpa using hn⟩
  unfold updateCutNs
  dsimp only
  split_ifs <;> first | exact ⟨rfl, rfl⟩ | exact hfetch _ | exact ⟨rfl, by simp⟩

/-- `update_cut` keeps the query and either keeps the cut's name or renames it to the NS owner,
which lies at or below the cut in force before the packet and at or above the query name. -/
theorem updateCut_cut (pkt : KnotPkt) (rr : Rrset) (currentCut : Dname) (s : IterState) :
    (updateCut pkt rr currentCut s).2.qry = s.qry ∧
      ((updateCut pkt rr currentCut s).2.cut.name = s.cut.name ∨
        ((updateCut pkt rr currentCut s).2.cut.name = rr.owner ∧ currentCut <:+ rr.owner ∧
          rr.owner <:+ s.qry.sname)) := by
  unfold updateCut
  split
  · exact ⟨rfl, .inl rfl⟩
  next hok =>
  simp only [not_not, ge_iff_le, knotDnameInBailiwick_nonneg_iff] at hok
  dsimp only
  -- the name servers leave the query and the name as `update_cut` set them
  have hns : ∀ t : IterState,
      (rr.rrs.foldl (updateCutNs pkt rr.owner currentCut) t).qry = t.qry ∧
        (rr.rrs.foldl (updateCutNs pkt rr.owner currentCut) t).cut.name = t.cut.name := by
    intro t
    apply List.foldl_invariant (fun u : IterState => u.qry = t.qry ∧ u.cut.name = t.cut.name)
    · intro u rd _ hu
      obtain ⟨hq, hn⟩ := updateCutNs_cut pkt rr.owner currentCut u rd
      exact ⟨hq.trans hu.1, hn.trans hu.2⟩
    · exact ⟨rfl, rfl⟩
  split
  · obtain ⟨hq, hn⟩ := hns { s with cut := { name := rr.owner, parent := some s.cut } }
    exact ⟨hq, .inr ⟨hn, hok.1, hok.2⟩⟩
  · obtain ⟨hq, hn⟩ := hns s
    exact ⟨hq, .inl hn⟩

section AuthorityLoop

variable {pkt : KnotPkt} {currentCut : Dname}

/-- The loop of `process_authority` keeps the query and keeps the cut at or below the cut in
force before the packet. -/
theorem authorityLoop_cut (rrs : List Rrset) (result : KrLayerState) (nsExists : Bool)
    (s : IterState) (hs : currentCut <:+ s.cut.name) :
    (authorityLoop pkt currentCut rrs result nsExists s).2.2.qry = s.qry ∧
      currentCut <:+ (authorityLoop pkt currentCut rrs result nsExists s).2.2.cut.name := by
  induction rrs generalizing result nsExists s with
  | nil => exact ⟨rfl, hs⟩
  | cons rr rest ih =>
    unfold authorityLoop
    split
    · -- an NS RRset goes through `update_cut`
      obtain ⟨hq, hname⟩ := updateCut_cut pkt rr currentCut s
      have hcut : currentCut <:+ (updateCut pkt rr currentCut s).2.cut.name := by
        rcases hname with hname | ⟨hname, hbelow, -⟩
        · rw [hname]; exact hs
        · rw [hname]; exact hbelow
      dsimp only
      split
      · exact ⟨hq, hcut⟩
      · obtain ⟨hq', hcut'⟩ := ih _ _ _ hcut
        exact ⟨hq'.trans hq, hcut'⟩
    split
    · -- an SOA strictly below the current cut
      next hsoa =>
      have hbelow : s.cut.name <:+ rr.owner :=
        (knotDnameInBailiwick_pos_iff.mp hsoa.2).1
      exact ih _ _ _ (hs.trans hbelow)
    · exact ih _ _ _ hs

end AuthorityLoop

theorem answerNsStep_name (cut : ZoneCut) (rr : Rrset) : cut.name <:+ (answerNsStep cut rr).name := by
  unfold answerNsStep
  split
  · next h => exact (knotDnameInBailiwick_pos_iff.mp h.2).1
  · exact List.suffix_refl _

/-- `process_authority` keeps the query and moves the cut only downwards. -/
theorem processAuthority_cut (pkt : KnotPkt) (s : IterState) :
    (processAuthority pkt s).2.qry = s.qry ∧ s.cut.name <:+ (processAuthority pkt s).2.cut.name := by
  unfold processAuthority
  split
  · exact ⟨rfl, List.suffix_refl _⟩
  split
  · exact ⟨rfl, List.suffix_refl _⟩
  split
  · exact ⟨rfl, List.suffix_refl _⟩
  obtain ⟨hq, hcut⟩ := @authorityLoop_cut pkt _ pkt.authority .consume false s
    (List.suffix_refl _)
  -- the answer-section NS RRsets only descend further
  have hans : ∀ cut : ZoneCut, cut.name <:+ (pkt.answer.foldl answerNsStep cut).name := by
    intro cut
    induction pkt.answer generalizing cut with
    | nil => exact List.suffix_refl _
    | cons rr rest ih => exact (answerNsStep_name cut rr).trans (ih _)
  dsimp only
  split
  · exact ⟨hq, hcut⟩
  split
  · split
    · exact ⟨hq, hcut.trans (hans _)⟩
    · exact ⟨hq, hcut.trans (hans _)⟩
  · split
    · exact ⟨hq, hcut⟩
    · exact ⟨hq, hcut⟩

end KnotResolver
