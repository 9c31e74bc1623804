import KnotResolver.Layer.IterateCut

/-! The iterator's handling of the answer (`lib/layer/iterate.c`): `unroll_cname` selects the
answer records of the query name and of the CNAME targets it may follow, `pick_authority` the
authority records within the zone, and `process_answer` and `process_referral_answer` combine
them after `process_authority`.

Failures leave the request as far as it had been changed, as the C code does. The packet's AA
bit, which `resolve` sets or clears for the layers after it, is not part of the model. -/

namespace KnotResolver

/-- `KR_CNAME_CHAIN_LIMIT`. -/
def krCnameChainLimit : Nat := 40

/-- `get_initial_rank`: the rank an RRset of the packet starts with. -/
def getInitialRank (s : IterState) (rr : Rrset) (answer : Bool) : UInt8 :=
  if s.qry.flags.cached then (s.cachedRank rr).getD krRankOmit
  else if answer ∨ krRrsetTypeMaysig rr ∈ [knotRrtypeDs, knotRrtypeSoa, knotRrtypeNsec, knotRrtypeNsec3]
    then krRankInitial ||| krRankAuth
  else krRankTry

/-- The loop of `pick_authority`: records of class IN at or below `zonecutName` are selected. -/
def pickAuthorityLoop (zonecutName : Dname) (toWire : Bool) : List Rrset → IterState → Int × IterState
  | [], s => (krOk, s)
  | rr :: rest, s =>
    if rr.rclass ≠ knotClassIn ∨ knotDnameInBailiwick rr.owner zonecutName < 0 then
      pickAuthorityLoop zonecutName toWire rest s
    else
      let r := s.rrarrayAdd .authority rr (getInitialRank s rr false) toWire
      if r.1 ≠ krOk then r else pickAuthorityLoop zonecutName toWire rest r.2

/-- `pick_authority`: a referral is judged against the parent cut, which `process_authority`
has just left, and is not written to the answer. -/
def pickAuthority (pkt : KnotPkt) (toWire : Bool) (s : IterState) : Int × IterState :=
  let referral := !pkt.aa
  let zonecutName := if referral then (s.cut.parent.map (·.name)).getD s.cut.name else s.cut.name
  pickAuthorityLoop zonecutName (toWire && !referral) pkt.authority s

/-- The state of the inner loop of `unroll_cname`: the request, the CNAME target found last and
the length of the chain so far. -/
structure UnrollState where
  s : IterState
  pending : Option Dname
  chainLen : Nat

/-- Where an answer record of the current name goes: into the final answer for the request's own
query, or as an address for the query a sub-query works for. -/
def unrollToWire (referral : Bool) (rr : Rrset) (s : IterState) :
    Except (KrLayerState × IterState) (Bool × IterState) :=
  match s.parentCut with
  | none => .ok (!referral, s)
  | some cut =>
    let r := updateNsaddr rr s.parentAllowLocal cut
    if r.1 = .fail then .error (.fail, s) else .ok (false, { s with parentCut := some r.2 })

/-- One RRset of the inner loop of `unroll_cname` for the name `cname`: records of `cname` of a
wanted type at or below the cut are selected, and a CNAME becomes the pending target. -/
def unrollCnameRr (referral : Bool) (cname : Dname) (anCount : Nat) (u : UnrollState)
    (rr : Rrset) : Except (KrLayerState × IterState) UnrollState :=
  let query := u.s.qry
  let type := krRrsetTypeMaysig rr
  if rr.rclass ≠ knotClassIn ∨
      ¬(rr.type = query.stype ∨ type = query.stype ∨ type = knotRrtypeCname ∨
        type = knotRrtypeDname) ∨
      rr.owner ≠ cname ∨ knotDnameInBailiwick rr.owner u.s.cut.name < 0 then .ok u
  -- an RRSIG with more labels than its owner is clearly wrong; fewer mean a wildcard expansion
  else if rr.type = knotRrtypeRrsig ∧ rr.rdata.knotRrsigLabels.toNat > cname.length then .ok u
  else
    let s := if rr.type = knotRrtypeRrsig ∧ rr.rdata.knotRrsigLabels.toNat < cname.length then
        { u.s with qry := { query with flags := { query.flags with dnssecWexpand := true } } }
      else u.s
    match unrollToWire referral rr s with
    | .error e => .error e
    | .ok (toWire, s) =>
      let r := s.rrarrayAdd .answer rr (getInitialRank s rr true) toWire
      if r.1 ≠ krOk then .error (.fail, r.2)
      else if query.stype = knotRrtypeCname ∨ rr.type ≠ knotRrtypeCname then .ok { u with s := r.2 }
      else if u.chainLen + 1 > anCount ∨ u.chainLen + 1 > krCnameChainLimit then
        .error (.fail, r.2)
      else .ok ⟨r.2, some rr.rdata.knotNsName, u.chainLen + 1⟩

/-- The inner loop of `unroll_cname` over the answer section. -/
def unrollCnameRrs (referral : Bool) (cname : Dname) (anCount : Nat) :
    List Rrset → UnrollState → Except (KrLayerState × IterState) UnrollState
  | [], u => .ok u
  | rr :: rest, u =>
    match unrollCnameRr referral cname anCount u rr with
    | .error e => .error e
    | .ok u => unrollCnameRrs referral cname anCount rest u

/-- The outer loop of `unroll_cname`, at most `KR_CNAME_CHAIN_LIMIT` rounds: the chain is followed
within the zone while each target replaces a single label. -/
def unrollCnameLoop (pkt : KnotPkt) (referral : Bool) :
    Nat → Dname → Nat → IterState → Except (KrLayerState × IterState) (Dname × IterState)
  | 0, _, _, s => .error (.fail, s)
  | fuel + 1, cname, chainLen, s =>
    match unrollCnameRrs referral cname pkt.answer.length pkt.answer ⟨s, none, chainLen⟩ with
    | .error e => .error e
    | .ok u =>
      match u.pending with
      | none => .ok (cname, u.s)
      | some pending =>
        if cname = pending then .error (.fail, u.s)
        -- in strict mode each CNAME target is fetched on its own
        else if u.s.qry.flags.strict then .ok (pending, u.s)
        -- information outside the bailiwick is not trusted
        else if knotDnameInBailiwick pending u.s.cut.name < 0 then .ok (pending, u.s)
        else if pending.length ≠ cname.length then .ok (pending, u.s)
        else if (knotDnameMatchedLabels pending cname : Int) ≠ (cname.length : Int) - 1 then
          .ok (pending, u.s)
        else unrollCnameLoop pkt referral fuel pending u.chainLen u.s

/-- `unroll_cname`: the last name of the chain, or a failure. -/
def unrollCname (pkt : KnotPkt) (referral : Bool) (s : IterState) :
    Except (KrLayerState × IterState) (Dname × IterState) :=
  unrollCnameLoop pkt referral krCnameChainLimit s.qry.sname 0 s

/-- `process_final`: the answer for the request's own query at the end of a CNAME chain goes to
the wire, last. `none` when the chain's target is not among the selected records. -/
def processFinal (pkt : KnotPkt) (cname : Dname) (s : IterState) : Option KrLayerState × IterState :=
  match s.answSelected.findIdx? fun e =>
      e.rr.owner = cname ∧ e.rr.rclass = s.qry.sclass ∧ e.rr.type = s.qry.stype with
  | none => (none, s)
  | some i =>
    let pktClass := krResponseClassify pkt
    let r := pickAuthority pkt (pktClass = .nxdomain ∨ pktClass = .nodata) s
    if r.1 ≠ krOk then (some .fail, r.2)
    else
      let s := r.2
      -- relocate the record after the chain
      let s := match s.answSelected[i]? with
        | some e =>
          if e.toWire then s
          else { s with answSelected := s.answSelected.eraseIdx i ++ [{ e with toWire := true }] }
        | none => s
      (some .done, { s with answerRcode := pkt.rcode })

/-- `is_authoritative`: AA, an SOA within the cut, the cut at the question, or permissive mode. -/
def isAuthoritative (pkt : KnotPkt) (s : IterState) : Bool :=
  pkt.aa || pkt.authority.any (fun rr =>
      rr.type == knotRrtypeSoa && decide (knotDnameInBailiwick rr.owner s.cut.name ≥ 0)) ||
    s.cut.name == pkt.qname || s.qry.flags.permissive

/-- The loop over the `cname_parent` chain of `process_answer`: the same question was already
asked on the way. -/
def cnameChainHas (sclass stype : UInt16) (cname : Dname) : Option KrQuery → Bool
  | none => false
  | some q => (q.sclass == sclass && q.stype == stype && q.sname == cname) ||
      cnameChainHas sclass stype cname q.cnameParent
decreasing_by
  cases q
  simp only [Option.some.sizeOf_spec, KrQuery.mk.sizeOf_spec]
  omega

/-- Set a flag of the current query. -/
def IterState.setFlags (s : IterState) (f : KrQflags → KrQflags) : IterState :=
  { s with qry := { s.qry with flags := f s.qry.flags } }

/-- Following a CNAME chain in `process_answer` with a new query for its target, after checking
that the same question was not asked on the way. -/
def followCname (pkt : KnotPkt) (cname : Dname) (s : IterState) : KrLayerState × IterState :=
  -- a CNAME'd answer to a forwarded DS or NS sub-query proves that there is no zone cut
  if s.parentCut.isSome ∧ s.qry.flags.forward ∧ (s.qry.stype = knotRrtypeDs ∨ s.qry.stype = knotRrtypeNs)
    then (.done, s)
  else if cnameChainHas s.qry.sclass s.qry.stype cname s.qry.cnameParent then (.fail, s)
  else
    let s := { s with pushed := s.pushed ++ [cname] }
    if !s.qry.flags.forward || s.qry.flags.dnssecWexpand then
      let r := pickAuthority pkt false s
      (if r.1 ≠ krOk then .fail else .done, r.2)
    else (.done, s)

/-- The end of `process_answer` once the answer is unrolled to `cname`: a CNAME chain is followed
unless the request's own answer is already at hand, the request's own answer is finalized, and
a sub-query keeps the authority records only for NSEC and NSEC3 proofs. -/
def processAnswerTail (pkt : KnotPkt) (cname : Dname) (s : IterState) : KrLayerState × IterState :=
  let isFinal := s.parentCut.isNone
  let pktClass := krResponseClassify pkt
  if cname ≠ s.qry.sname then
    let s := s.setFlags ({ · with cname := true })
    if isFinal then
      match processFinal pkt cname s with
      | (some state, s) => (state, s)
      | (none, s) => followCname pkt cname s
    else followCname pkt cname s
  else if isFinal then
    let r := pickAuthority pkt (pktClass = .nxdomain ∨ pktClass = .nodata) s
    if r.1 ≠ krOk then (.fail, r.2) else (.done, { r.2 with answerRcode := pkt.rcode })
  else if pkt.authority.any (fun rr => rr.type == knotRrtypeNsec || rr.type == knotRrtypeNsec3) then
    let r := pickAuthority pkt false s
    (if r.1 ≠ krOk then .fail else .done, r.2)
  else (.done, s)

/-- `process_answer`. -/
def processAnswer (pkt : KnotPkt) (s : IterState) : KrLayerState × IterState :=
  let pktClass := krResponseClassify pkt
  -- the answer to a minimized question
  if pkt.qname ≠ s.qry.sname ∧ pktClass ∈ [.noerror, .nxdomain, .refused, .nodata] then
    if pktClass = .noerror ∧ pkt.answer ≠ [] ∧ pkt.qname = s.cut.name then (.consume, s)
    else (.consume, s.setFlags ({ · with noMinimize := true }))
  else if !isAuthoritative pkt s ∧ !s.qry.flags.forward ∧ (pktClass = .nxdomain ∨ pktClass = .nodata)
    then (.fail, s)
  else
    match unrollCname pkt false s with
    | .error e => e
    | .ok (cname, s) =>
      -- the packet counts as authoritative from here on
      processAnswerTail { pkt with aa := true } cname (s.setFlags ({ · with resolved := true }))

/-- `process_referral_answer`: the records of the answer are selected, none for the wire, and the
authority records against the parent cut. -/
def processReferralAnswer (pkt : KnotPkt) (s : IterState) : KrLayerState × IterState :=
  match unrollCname pkt true s with
  | .error e => (.fail, e.2)
  | .ok (_, s) =>
    let pkt := if s.qry.flags.cached then pkt else { pkt with aa := false }
    let r := pickAuthority pkt false s
    (if r.1 = krOk then .done else .fail, r.2)

/-- The iterator's `resolve` for a response that passed its checks: `process_authority`, then the
answer (`.consume`) or the referral (`.done`). -/
def resolveResponse (pkt : KnotPkt) (s : IterState) : KrLayerState × IterState :=
  let r := processAuthority pkt s
  match r.1 with
  | .consume => processAnswer pkt r.2
  | .done => processReferralAnswer pkt r.2
  | state => (state, r.2)

/-! ## The answer leaves the cut alone

Only `process_authority` moves the zone cut; selecting records, flagging the query and feeding
the parent's cut do not. -/

@[simp] theorem IterState.setFlags_cut (s : IterState) (f : KrQflags → KrQflags) :
    (s.setFlags f).cut = s.cut := rfl

theorem pickAuthorityLoop_cut (zonecutName : Dname) (toWire : Bool) :
    ∀ (rrs : List Rrset) (s : IterState), (pickAuthorityLoop zonecutName toWire rrs s).2.cut = s.cut
  | [], _ => rfl
  | rr :: rest, s => by
    unfold pickAuthorityLoop
    split
    · exact pickAuthorityLoop_cut zonecutName toWire rest s
    · dsimp only
      split
      · simp
      · rw [pickAuthorityLoop_cut zonecutName toWire rest]; simp

@[simp] theorem pickAuthority_cut (pkt : KnotPkt) (toWire : Bool) (s : IterState) :
    (pickAuthority pkt toWire s).2.cut = s.cut :=
  pickAuthorityLoop_cut _ _ _ _

/-- The request a step that may fail leaves behind, whether it fails or not. -/
def outcomeState {α : Type} (f : α → IterState) : Except (KrLayerState × IterState) α → IterState
  | .error e => e.2
  | .ok a => f a

theorem unrollToWire_cut (referral : Bool) (rr : Rrset) (s : IterState) :
    (outcomeState Prod.snd (unrollToWire referral rr s)).cut = s.cut := by
  unfold unrollToWire
  split
  · rfl
  · dsimp only
    split <;> rfl

theorem unrollCnameRr_cut (referral : Bool) (cname : Dname) (anCount : Nat) (u : UnrollState)
    (rr : Rrset) : (outcomeState UnrollState.s (unrollCnameRr referral cname anCount u rr)).cut = u.s.cut := by
  unfold unrollCnameRr
  dsimp only
  split
  · rfl
  split
  · rfl
  -- the wildcard-expansion flag leaves the cut as it was
  generalize hs : (if rr.type = knotRrtypeRrsig ∧ rr.rdata.knotRrsigLabels.toNat < cname.length then
    { u.s with qry := { u.s.qry with flags := { u.s.qry.flags with dnssecWexpand := true } } }
    else u.s) = s
  have hcut : s.cut = u.s.cut := by rw [← hs]; split <;> rfl
  have hw := unrollToWire_cut referral rr s
  split
  · next e he =>
    rw [he] at hw
    exact hw.trans hcut
  · next toWire s' hws =>
    rw [hws] at hw
    have hcut' : s'.cut = u.s.cut := hw.trans hcut
    split
    · simp [outcomeState, hcut']
    split
    · simp [outcomeState, hcut']
    split
    · simp [outcomeState, hcut']
    · simp [outcomeState, hcut']

theorem unrollCnameRrs_cut (referral : Bool) (cname : Dname) (anCount : Nat) :
    ∀ (rrs : List Rrset) (u : UnrollState),
      (outcomeState UnrollState.s (unrollCnameRrs referral cname anCount rrs u)).cut = u.s.cut
  | [], _ => rfl
  | rr :: rest, u => by
    have hrr := unrollCnameRr_cut referral cname anCount u rr
    unfold unrollCnameRrs
    split
    · next e he =>
      rw [he] at hrr
      exact hrr
    · next u' hu =>
      rw [hu] at hrr
      exact (unrollCnameRrs_cut referral cname anCount rest u').trans hrr

theorem unrollCnameLoop_cut (pkt : KnotPkt) (referral : Bool) :
    ∀ (fuel : Nat) (cname : Dname) (chainLen : Nat) (s : IterState),
      (outcomeState Prod.snd (unrollCnameLoop pkt referral fuel cname chainLen s)).cut = s.cut
  | 0, _, _, _ => rfl
  | fuel + 1, cname, chainLen, s => by
    have hrrs := unrollCnameRrs_cut referral cname pkt.answer.length pkt.answer ⟨s, none, chainLen⟩
    unfold unrollCnameLoop
    split
    · next e he =>
      rw [he] at hrrs
      exact hrrs
    · next u hu =>
      rw [hu] at hrrs
      -- every way out keeps the cut of the round, which is the cut it started with
      split
      · exact hrrs
      · split_ifs
        all_goals first
          | exact hrrs
          | exact (unrollCnameLoop_cut pkt referral fuel _ _ _).trans hrrs

theorem processFinal_cut (pkt : KnotPkt) (cname : Dname) (s : IterState) :
    (processFinal pkt cname s).2.cut = s.cut := by
  unfold processFinal
  split
  · rfl
  · dsimp only
    split
    · simp
    · split <;> (try split) <;> simp

theorem followCname_cut (pkt : KnotPkt) (cname : Dname) (s : IterState) :
    (followCname pkt cname s).2.cut = s.cut := by
  unfold followCname
  split
  · rfl
  split
  · rfl
  · dsimp only
    split <;> simp

theorem processAnswerTail_cut (pkt : KnotPkt) (cname : Dname) (s : IterState) :
    (processAnswerTail pkt cname s).2.cut = s.cut := by
  unfold processAnswerTail
  dsimp only
  split
  · split
    · have hf := processFinal_cut pkt cname (s.setFlags ({ · with cname := true }))
      revert hf
      cases processFinal pkt cname (s.setFlags ({ · with cname := true })) with
      | mk state t =>
        cases state with
        | none => intro hf; simpa [followCname_cut] using hf
        | some st => intro hf; simpa using hf
    · simp [followCname_cut]
  · split_ifs <;> simp

theorem processAnswer_cut (pkt : KnotPkt) (s : IterState) :
    (processAnswer pkt s).2.cut = s.cut := by
  have hloop := unrollCnameLoop_cut pkt false krCnameChainLimit s.qry.sname 0 s
  unfold processAnswer
  dsimp only
  split_ifs
  · rfl
  · rfl
  · rfl
  · unfold unrollCname
    split
    · next e he =>
      rw [he] at hloop
      exact hloop
    · next cname t ht =>
      rw [ht] at hloop
      rw [processAnswerTail_cut]
      exact hloop

theorem processReferralAnswer_cut (pkt : KnotPkt) (s : IterState) :
    (processReferralAnswer pkt s).2.cut = s.cut := by
  have hloop := unrollCnameLoop_cut pkt true krCnameChainLimit s.qry.sname 0 s
  unfold processReferralAnswer unrollCname
  split
  · next e he =>
    rw [he] at hloop
    exact hloop
  · next c t ht =>
    rw [ht] at hloop
    dsimp only
    rw [pickAuthority_cut]
    exact hloop

/-- The cut after a response is the cut `process_authority` left. -/
theorem resolveResponse_cut (pkt : KnotPkt) (s : IterState) :
    (resolveResponse pkt s).2.cut = (processAuthority pkt s).2.cut := by
  unfold resolveResponse
  dsimp only
  split
  · exact processAnswer_cut _ _
  · exact processReferralAnswer_cut _ _
  · rfl

/-- The cut never moves up or sideways of the cut in force before the response. -/
theorem resolveResponse_cut_descends (pkt : KnotPkt) (s : IterState) :
    s.cut.name <:+ (resolveResponse pkt s).2.cut.name := by
  rw [resolveResponse_cut]
  exact (processAuthority_cut pkt s).2

/-! ## Where the cut and the selected records can go -/

/-- The request's query for `a.ex.` A, with the zone cut at `ex.`. -/
def exState (sname : Dname) : IterState where
  qry := { uid := 1, sname, stype := knotRrtypeA, sclass := knotClassIn, flags := {} }
  cut := { name := [[0x65, 0x78]] }
  parentCut := none
  parentAllowLocal := false
  answSelected := []
  authSelected := []
  addSelected := []
  answerRcode := knotRcodeNoerror
  pushed := []
  noIpv4 := false
  noIpv6 := false
  cachedRank := fun _ => none

/-- An authoritative NXDOMAIN for `a.ex.` whose authority section holds the SOA of `b.ex.`. -/
def siblingSoaPkt : KnotPkt where
  ad := false
  aa := true
  cd := false
  rcode := knotRcodeNxdomain
  qname := [[0x61], [0x65, 0x78]]
  qtype := knotRrtypeA
  optRr := none
  current := .additional
  answer := []
  authority :=
    [{ owner := [[0x62], [0x65, 0x78]], type := knotRrtypeSoa, rclass := knotClassIn, ttl := 300,
       rrs := [.soa 300] }]
  additional := []

/-- The SOA of the sibling zone `b.ex.` moves the cut of the query for `a.ex.` there, off the
query name's path. -/
theorem sibling_soa_moves_cut :
    (exState [[0x61], [0x65, 0x78]]).cut.name <:+ (exState [[0x61], [0x65, 0x78]]).qry.sname ∧
      (resolveResponse siblingSoaPkt (exState [[0x61], [0x65, 0x78]])).2.cut.name =
        [[0x62], [0x65, 0x78]] ∧
      ¬(resolveResponse siblingSoaPkt (exState [[0x61], [0x65, 0x78]])).2.cut.name <:+
        (exState [[0x61], [0x65, 0x78]]).qry.sname := by
  decide

/-- A referral from `ex.` to `b.ex.` for `a.b.ex.`, whose glue for `ns.b.ex.` sits in the answer
section with class CH. -/
def chGluePkt : KnotPkt where
  ad := false
  aa := false
  cd := false
  rcode := knotRcodeNoerror
  qname := [[0x61], [0x62], [0x65, 0x78]]
  qtype := knotRrtypeA
  optRr := none
  current := .additional
  answer :=
    [{ owner := [[0x6e, 0x73], [0x62], [0x65, 0x78]], type := knotRrtypeA, rclass := knotClassCh,
       ttl := 300, rrs := [.addr [192, 0, 2, 1]] }]
  authority :=
    [{ owner := [[0x62], [0x65, 0x78]], type := knotRrtypeNs, rclass := knotClassIn, ttl := 300,
       rrs := [.name [[0x6e, 0x73], [0x62], [0x65, 0x78]]] }]
  additional := []

/-- `fetch_glue` selects the CH-class glue of the answer section with rank `INITIAL|AUTH`. -/
theorem ch_glue_selected :
    ∃ e ∈ (resolveResponse chGluePkt (exState [[0x61], [0x62], [0x65, 0x78]])).2.answSelected,
      e.rank ≠ krRankOmit ∧ e.rr.rclass ≠ knotClassIn := by
  decide

end KnotResolver
