import KnotResolver.Layer.IterateAnswer

/-! The iterator's `resolve` (`lib/layer/iterate.c`) up to `process_authority`, and the question
it checks responses against. `kr_make_query` asks the name that `minimized_qname` cuts down to
one label below the zone cut (QNAME minimisation), and `is_paired_to_query` pairs a response with
the query when it repeats that question under the query's message ID. A response that fails the
checks goes to `resolve_badmsg`, which turns minimisation off, then asks in safe mode, then
fails; SERVFAIL and REFUSED are retried up to `KR_QUERY_NSRETRY_LIMIT` times; a stub query's
response goes to `process_stub`.

The code is modelled as built without `STRICT_MODE`, with a packet large enough for the
question (`knot_pkt_put_question` succeeds) and with the DS query of `resolve_notimpl` planned
without running out of memory. -/

namespace KnotResolver

/-- `KNOT_RCODE_FORMERR`. -/
def knotRcodeFormerr : UInt16 := 1

/-- `KNOT_WIRE_HEADER_SIZE`. -/
def knotWireHeaderSize : Nat := 12

/-- `KR_QUERY_NSRETRY_LIMIT`. -/
def krQueryNsretryLimit : UInt16 := 4

/-- A DS query that `resolve_notimpl` plans for the parent: the query's name and class, and the
parent's zone cut (`kr_zonecut_set` to its name, then `kr_zonecut_copy` of its name servers). -/
structure DsSubquery where
  sname : Dname
  sclass : UInt16
  cut : ZoneCut

/-- What `resolve` and `prepare_query` read and change of a request beyond `IterState`: the
current query's message ID and count of failed answers, its flags `TCP`, `SAFEMODE` and
`BADCOOKIE_AGAIN`, the plan's `next_uid`, and the DS queries `resolve_notimpl` planned. -/
structure ResolveState extends IterState where
  id : UInt16
  fails : UInt16
  tcp : Bool
  safemode : Bool
  badcookieAgain : Bool
  nextUid : UInt32
  dsPushed : List DsSubquery

/-! ## The question -/

/-- The loop of `minimized_qname`: the leftmost label goes while more than `cutLabels + 1` are
left, counted down in `qnameLabels`. -/
def minimizeLoop (cutLabels : Nat) : Dname → Nat → Dname
  | [], _ => []
  | label :: rest, qnameLabels =>
    if qnameLabels > cutLabels + 1 then minimizeLoop cutLabels rest (qnameLabels - 1)
    else label :: rest

/-- `minimized_qname`: the name to ask, the zone cut and one label more, and the type to ask,
NS when the name was cut short. -/
def minimizedQname (query : KrQuery) (zoneCutName : Dname) (qtype : UInt16) : Dname × UInt16 :=
  if query.sname = [] ∨ query.flags.noMinimize ∨ query.flags.stub then (query.sname, qtype)
  else
    let qname :=
      minimizeLoop (knotDnameLabels zoneCutName) query.sname (knotDnameLabels query.sname)
    -- the C code compares the pointers: a label was dropped
    (qname, if qname ≠ query.sname then knotRrtypeNs else qtype)

/-- The message ID and the question of a packet. -/
structure Question where
  id : UInt16
  qname : Dname
  qclass : UInt16
  qtype : UInt16
  deriving DecidableEq, Repr

/-- `kr_make_query`, with `rnd` the two bytes of `kr_rand_bytes`: the question it writes, and the
query, which now expects the answer under that ID. -/
def krMakeQuery (query : ResolveState) (rnd : UInt16) : Question × ResolveState :=
  let q := minimizedQname query.qry query.cut.name query.qry.stype
  (⟨rnd, q.1, query.qry.sclass, q.2⟩, { query with id := rnd })

/-- `prepare_query`: unless the layer is done or has failed, the question is made and the query
takes the plan's next number. -/
def prepareQuery (state : KrLayerState) (rnd : UInt16) (query : ResolveState) :
    KrLayerState × Option Question × ResolveState :=
  if state = .done ∨ state = .fail then (state, none, query)
  else
    let r := krMakeQuery query rnd
    (.consume, some r.1,
      { r.2 with qry := { r.2.qry with uid := query.nextUid }, nextUid := query.nextUid + 1 })

/-! ## The response -/

/-- A response as `resolve` reads it: the parsed packet, the ID, QDCOUNT and TC bit of its header,
the class of its question, and how many bytes were parsed. -/
structure Response where
  pkt : KnotPkt
  id : UInt16
  qdcount : UInt16
  qclass : UInt16
  tc : Bool
  parsed : Nat

/-- The message ID and the question a response carries. -/
def Response.question (rsp : Response) : Question :=
  ⟨rsp.id, rsp.pkt.qname, rsp.qclass, rsp.pkt.qtype⟩

/-- `is_paired_to_query`: the response repeats the query's ID and its question, as minimised. -/
def isPairedToQuery (answer : Response) (query : ResolveState) : Bool :=
  let q := minimizedQname query.qry query.cut.name query.qry.stype
  query.id == answer.id && decide (answer.qdcount > 0) && query.qry.sclass == answer.qclass &&
    q.2 == answer.pkt.qtype && q.1 == answer.pkt.qname

/-- `resolve_error`. -/
def resolveError : KrLayerState := .fail

/-- `resolve_badmsg`: a broken answer first turns minimisation off, then safe mode on, and then
fails the query. -/
def resolveBadmsg (query : ResolveState) : KrLayerState × ResolveState :=
  if query.safemode then (resolveError, query)
  else if query.qry.flags.noMinimize then (.done, { query with safemode := true })
  else (.done, { query with toIterState := query.setFlags ({ · with noMinimize := true }) })

/-- `resolve_notimpl`: an RRSIG sub-query answered NOTIMPL is resolved, and a DS query for its name
in the parent's zone cut finds out the security status; any other NOTIMPL is a broken answer. -/
def resolveNotimpl (query : ResolveState) : KrLayerState × ResolveState :=
  match query.parentCut with
  | some parentCut =>
    if query.qry.stype = knotRrtypeRrsig then
      let next : DsSubquery :=
        ⟨query.qry.sname, query.qry.sclass, { name := parentCut.name, nsset := parentCut.nsset }⟩
      (.done, { query with toIterState := query.setFlags ({ · with resolved := true }),
                           dsPushed := query.dsPushed ++ [next] })
    else resolveBadmsg query
  | none => resolveBadmsg query

/-- The loop of `process_stub`: every answer record is selected for the wire, as authoritative
but from no authoritative source. -/
def processStubLoop : List Rrset → IterState → Int × IterState
  | [], s => (krOk, s)
  | rr :: rest, s =>
    let r := s.rrarrayAdd .answer rr (krRankOmit ||| krRankAuth) true
    if r.1 ≠ krOk then r else processStubLoop rest r.2

/-- `process_stub`: the answer records, then the authority records of a negative answer for the
wire, and the answer's rcode. -/
def processStub (pkt : KnotPkt) (s : IterState) : KrLayerState × IterState :=
  let r := processStubLoop pkt.answer s
  if r.1 ≠ krOk then (.fail, r.2)
  else
    let pkt := { pkt with aa := true }
    let s := r.2.setFlags ({ · with resolved := true })
    let pktClass := krResponseClassify pkt
    let r := pickAuthority pkt (pktClass = .nxdomain ∨ pktClass = .nodata) s
    if r.1 ≠ krOk then (.fail, r.2) else (.done, { r.2 with answerRcode := pkt.rcode })

/-- What the checks of `resolve` make of a response, in the order it makes them. -/
inductive ResolveCheck where
  /-- The query is resolved or waits for a new cookie: the response is not looked at. -/
  | skip
  /-- No more than a header was parsed. -/
  | malformed
  /-- Not paired with the query. -/
  | mismatch
  | truncated
  /-- SERVFAIL or REFUSED to a query not in stub mode. -/
  | retry
  | formerr
  | notimpl
  /-- Any other rcode. -/
  | error
  /-- The records are read: NOERROR, NXDOMAIN, or any of the retried rcodes in stub mode. -/
  | accept
  deriving DecidableEq, Repr

/-- The checks of `resolve`, before `process_stub` or `process_authority`. -/
def resolveCheck (pkt : Response) (query : ResolveState) : ResolveCheck :=
  if query.qry.flags.resolved ∨ query.badcookieAgain then .skip
  else if pkt.parsed ≤ knotWireHeaderSize then .malformed
  else if !isPairedToQuery pkt query then .mismatch
  else if pkt.tc then .truncated
  else
    let rcode := pkt.pkt.rcode
    if rcode = knotRcodeNoerror ∨ rcode = knotRcodeNxdomain then .accept
    else if rcode = knotRcodeRefused ∨ rcode = knotRcodeServfail then
      -- passed through in stub mode
      if query.qry.flags.stub then .accept else .retry
    else if rcode = knotRcodeFormerr then .formerr
    else if rcode = knotRcodeNotimpl then .notimpl
    else .error

/-- A response that passed the checks: `process_stub` in stub mode, else `process_authority` and
the answer or the referral. -/
def resolveAccepted (pkt : KnotPkt) (query : ResolveState) : KrLayerState × ResolveState :=
  let r := if query.qry.flags.stub then processStub pkt query.toIterState
    else resolveResponse pkt query.toIterState
  (r.1, { query with toIterState := r.2 })

/-- `resolve` of the iterator, called in the layer state `state`. -/
def resolve (pkt : Response) (state : KrLayerState) (query : ResolveState) :
    KrLayerState × ResolveState :=
  match resolveCheck pkt query with
  | .skip => (state, query)
  | .malformed => resolveBadmsg query
  -- TCP works around servers that mess up the question, without yielding to spoofed responses
  | .mismatch => resolveBadmsg { query with tcp := true }
  | .truncated => if query.tcp then (resolveError, query) else (.consume, { query with tcp := true })
  | .retry =>
    let query := { query with fails := query.fails + 1 }
    if query.fails ≥ krQueryNsretryLimit then (resolveError, { query with fails := 0 })
    -- minimisation is dropped as a safeguard
    else if !query.qry.flags.forward then
      (.consume, { query with toIterState := query.setFlags ({ · with noMinimize := true }) })
    else (.consume, query)
  | .formerr => resolveBadmsg query
  | .notimpl => resolveNotimpl query
  | .error => (resolveError, query)
  | .accept => resolveAccepted pkt.pkt query

/-! ## The minimised question -/

/-- The loop of `minimized_qname`, started with the right count, keeps the last `cutLabels + 1`
labels. -/
theorem minimizeLoop_eq_drop (cutLabels : Nat) :
    ∀ qname : Dname,
      minimizeLoop cutLabels qname qname.length = qname.drop (qname.length - (cutLabels + 1))
  | [] => by simp [minimizeLoop]
  | label :: rest => by
    rw [minimizeLoop, List.length_cons, Nat.add_sub_cancel]
    split_ifs with h
    · rw [minimizeLoop_eq_drop cutLabels rest,
        show rest.length + 1 - (cutLabels + 1) = rest.length - (cutLabels + 1) + 1 by omega,
        List.drop_succ_cons]
    · rw [Nat.sub_eq_zero_of_le (by omega), List.drop_zero]

private theorem drop_eq_self_iff {l : Dname} (hl : l ≠ []) {k : Nat} : l.drop k = l ↔ k = 0 := by
  constructor
  · intro h
    have hlen := congrArg List.length h
    have hpos : 0 < l.length := List.length_pos_iff.mpr hl
    rw [List.length_drop] at hlen
    omega
  · rintro rfl
    exact List.drop_zero

/-- `minimized_qname` keeps the last labels of the name, the zone cut's and one more, and asks NS
when that hides a label; with minimisation off it asks the whole name. -/
theorem minimizedQname_eq (query : KrQuery) (zoneCutName : Dname) (qtype : UInt16) :
    minimizedQname query zoneCutName qtype =
      if query.flags.noMinimize ∨ query.flags.stub then (query.sname, qtype)
      else (query.sname.drop (query.sname.length - (zoneCutName.length + 1)),
        if zoneCutName.length + 1 < query.sname.length then knotRrtypeNs else qtype) := by
  unfold minimizedQname
  by_cases hroot : query.sname = []
  · simp [hroot]
  · have hne : query.sname.drop (query.sname.length - (zoneCutName.length + 1)) ≠ query.sname ↔
        zoneCutName.length + 1 < query.sname.length := by
      rw [Ne, drop_eq_self_iff hroot]
      omega
    simp only [hroot, false_or, knotDnameLabels, minimizeLoop_eq_drop, hne]

example : minimizedQname ⟨0, [[0x61], [0x62], [0x65, 0x78]], knotRrtypeA, knotClassIn, {}, 0, none⟩
    [[0x65, 0x78]] knotRrtypeA = ([[0x62], [0x65, 0x78]], knotRrtypeNs) := by
  decide

/-- The question a query asks under QNAME minimisation: the last labels of its name, the zone
cut's and one more, as NS when that hides a label; with minimisation off, the whole name for the
query's own type. -/
def minimalQuestion (query : ResolveState) (rnd : UInt16) : Question :=
  let keep := if query.qry.flags.noMinimize ∨ query.qry.flags.stub then query.qry.sname.length
    else query.cut.name.length + 1
  ⟨rnd, query.qry.sname.drop (query.qry.sname.length - keep), query.qry.sclass,
    if keep < query.qry.sname.length then knotRrtypeNs else query.qry.stype⟩

theorem krMakeQuery_question (query : ResolveState) (rnd : UInt16) :
    (krMakeQuery query rnd).1 = minimalQuestion query rnd := by
  unfold krMakeQuery minimalQuestion
  rw [minimizedQname_eq]
  split_ifs <;> simp_all

/-- A response is paired with a query exactly when it has a question and repeats the one
`kr_make_query` writes under the query's ID. -/
theorem isPairedToQuery_iff (rsp : Response) (query : ResolveState) :
    isPairedToQuery rsp query = true ↔
      0 < rsp.qdcount ∧ rsp.question = (krMakeQuery query query.id).1 := by
  unfold isPairedToQuery krMakeQuery Response.question
  simp only [Bool.and_eq_true, beq_iff_eq, decide_eq_true_eq, Question.mk.injEq]
  constructor
  · rintro ⟨⟨⟨⟨hid, hqd⟩, hcls⟩, htype⟩, hname⟩
    exact ⟨hqd, hid.symm, hname.symm, hcls.symm, htype.symm⟩
  · rintro ⟨hqd, hid, hname, hcls, htype⟩
    exact ⟨⟨⟨⟨hid.symm, hqd⟩, hcls.symm⟩, htype.symm⟩, hname.symm⟩

/-- The question `prepare_query` sends is the minimised one under the new ID: the zone cut's
labels and one more of the name, as NS when that hides a label. From then on `resolve` pairs a
response with the query exactly when the response has a question and repeats this one. -/
theorem prepareQuery_question {state : KrLayerState} (hstate : state ≠ .done ∧ state ≠ .fail)
    (rnd : UInt16) (query : ResolveState) :
    (prepareQuery state rnd query).2.1 = some (minimalQuestion query rnd) ∧
      ∀ rsp : Response, isPairedToQuery rsp (prepareQuery state rnd query).2.2 = true ↔
        0 < rsp.qdcount ∧ rsp.question = minimalQuestion query rnd := by
  obtain ⟨hdone, hfail⟩ := hstate
  simp only [prepareQuery, hdone, hfail, or_self, if_false]
  refine ⟨by rw [krMakeQuery_question], fun rsp => ?_⟩
  rw [isPairedToQuery_iff, ← krMakeQuery_question]
  rfl

/-- A fresh query for `a.b.ex.` A in the zone cut `ex.`. -/
def abExQuery : ResolveState where
  qry := ⟨0, [[0x61], [0x62], [0x65, 0x78]], knotRrtypeA, knotClassIn, {}, 0, none⟩
  cut := { name := [[0x65, 0x78]] }
  parentCut := none
  parentAllowLocal := false
  answSelected := []
  authSelected := []
  addSelected := []
  answerRcode := knotRcodeNoerror
  pushed := []
  noIpv4 := false
  noIpv6 := false
  cachedRank := fun _ => none
  id := 0
  fails := 0
  tcp := false
  safemode := false
  badcookieAgain := false
  nextUid := 1
  dsPushed := []

theorem prepareQuery_question_abEx :
    (KrLayerState.produce ≠ .done ∧ KrLayerState.produce ≠ .fail) ∧
      (prepareQuery .produce 7 abExQuery).2.1 = some (minimalQuestion abExQuery 7) ∧
      ∀ rsp : Response, isPairedToQuery rsp (prepareQuery .produce 7 abExQuery).2.2 = true ↔
        0 < rsp.qdcount ∧ rsp.question = minimalQuestion abExQuery 7 :=
  ⟨⟨by decide, by decide⟩, prepareQuery_question ⟨by decide, by decide⟩ 7 abExQuery⟩

/-- The query asks `b.ex.` NS, one label below the cut. -/
example : minimalQuestion abExQuery 7 = ⟨7, [[0x62], [0x65, 0x78]], knotClassIn, knotRrtypeNs⟩ := by
  decide

/-! ## What a response that fails the checks changes -/

/-- `KrQuery` is recursive through `cnameParent`, so a record update that rewrites the flags with
their own value is equal to the query only propositionally. -/
@[simp] theorem IterState.setFlags_id (s : IterState) : s.setFlags id = s := by
  obtain ⟨⟨⟩⟩ := s
  rfl

/-- The flags `resolve` may set without reading a response: `NO_MINIMIZE` and `RESOLVED`. -/
def KrQflags.raise (noMinimize resolved : Bool) (fl : KrQflags) : KrQflags :=
  { fl with noMinimize := fl.noMinimize || noMinimize, resolved := fl.resolved || resolved }

@[simp] theorem KrQflags.raise_false_false : KrQflags.raise false false = id := by
  funext fl
  cases fl
  simp [KrQflags.raise]

/-- What `resolve` may change of a request when it does not read the response's records: it raises
`NO_MINIMIZE` or `RESOLVED` of the current query and switches to TCP or to safe mode, neither of
which it turns off. Only a response paired with the query moves the count of failed answers, for a
SERVFAIL or REFUSED (up by one, or back to 0 at the limit), or plans the DS query of
`resolve_notimpl`, for a NOTIMPL to an RRSIG query with a parent, which it then marks resolved.
The ID, the plan's next number and the wait for a cookie stay. -/
structure ResolveState.Unread (rsp : Response) (query query' : ResolveState) : Prop where
  flags : ∃ noMinimize resolved : Bool,
    query'.toIterState = query.setFlags (KrQflags.raise noMinimize resolved)
  id : query'.id = query.id
  nextUid : query'.nextUid = query.nextUid
  badcookieAgain : query'.badcookieAgain = query.badcookieAgain
  tcp : query.tcp → query'.tcp
  safemode : query.safemode → query'.safemode
  fails : query'.fails = query.fails ∨
    isPairedToQuery rsp query = true ∧
      (rsp.pkt.rcode = knotRcodeRefused ∨ rsp.pkt.rcode = knotRcodeServfail) ∧
      (query'.fails = query.fails + 1 ∨ query'.fails = 0)
  dsPushed : query'.dsPushed = query.dsPushed ∨
    isPairedToQuery rsp query = true ∧ rsp.pkt.rcode = knotRcodeNotimpl ∧
      query.qry.stype = knotRrtypeRrsig ∧ query'.qry.flags.resolved = true ∧
      ∃ parentCut, query.parentCut = some parentCut ∧
        query'.dsPushed = query.dsPushed ++
          [⟨query.qry.sname, query.qry.sclass, { name := parentCut.name, nsset := parentCut.nsset }⟩]

theorem ResolveState.Unread.rfl (rsp : Response) (query : ResolveState) :
    query.Unread rsp query :=
  ⟨⟨false, false, by simp⟩, Eq.refl _, Eq.refl _, Eq.refl _, fun h => h, fun h => h,
    .inl (Eq.refl _), .inl (Eq.refl _)⟩

/-- The current query keeps its question, and `NO_MINIMIZE` once set. -/
structure IterState.KeepsQuestion (s s' : IterState) : Prop where
  sname : s'.qry.sname = s.qry.sname
  stype : s'.qry.stype = s.qry.stype
  sclass : s'.qry.sclass = s.qry.sclass
  noMinimize : s.qry.flags.noMinimize = true → s'.qry.flags.noMinimize = true

namespace IterState.KeepsQuestion

theorem refl (s : IterState) : s.KeepsQuestion s := ⟨rfl, rfl, rfl, id⟩

theorem trans {s t u : IterState} (h : s.KeepsQuestion t) (h' : t.KeepsQuestion u) :
    s.KeepsQuestion u :=
  ⟨h'.sname.trans h.sname, h'.stype.trans h.stype, h'.sclass.trans h.sclass,
    h'.noMinimize ∘ h.noMinimize⟩

theorem of_qry_eq {s s' : IterState} (h : s'.qry = s.qry) : s.KeepsQuestion s' :=
  ⟨by rw [h], by rw [h], by rw [h], fun hm => by rwa [h]⟩

/-- Setting flags keeps the question, and keeps `NO_MINIMIZE` when the update does. -/
theorem setFlags (s : IterState) {f : KrQflags → KrQflags}
    (hf : ∀ fl : KrQflags, fl.noMinimize = true → (f fl).noMinimize = true) :
    s.KeepsQuestion (s.setFlags f) :=
  ⟨rfl, rfl, rfl, hf _⟩

end IterState.KeepsQuestion

open IterState (KeepsQuestion)

theorem pickAuthorityLoop_qry (zonecutName : Dname) (toWire : Bool) :
    ∀ (rrs : List Rrset) (s : IterState), (pickAuthorityLoop zonecutName toWire rrs s).2.qry = s.qry
  | [], _ => rfl
  | rr :: rest, s => by
    unfold pickAuthorityLoop
    split
    · exact pickAuthorityLoop_qry zonecutName toWire rest s
    · dsimp only
      split
      · simp
      · rw [pickAuthorityLoop_qry zonecutName toWire rest]; simp

@[simp] theorem pickAuthority_qry (pkt : KnotPkt) (toWire : Bool) (s : IterState) :
    (pickAuthority pkt toWire s).2.qry = s.qry :=
  pickAuthorityLoop_qry _ _ _ _

theorem unrollToWire_qry (referral : Bool) (rr : Rrset) (s : IterState) :
    (outcomeState Prod.snd (unrollToWire referral rr s)).qry = s.qry := by
  unfold unrollToWire
  split
  · rfl
  · dsimp only
    split <;> rfl

theorem unrollCnameRr_keeps (referral : Bool) (cname : Dname) (anCount : Nat) (u : UnrollState)
    (rr : Rrset) :
    u.s.KeepsQuestion (outcomeState UnrollState.s (unrollCnameRr referral cname anCount u rr)) := by
  unfold unrollCnameRr
  dsimp only
  split
  · exact .refl _
  split
  · exact .refl _
  -- the wildcard-expansion flag is the only change before the record is added
  generalize hs : (if rr.type = knotRrtypeRrsig ∧ rr.rdata.knotRrsigLabels.toNat < cname.length then
    { u.s with qry := { u.s.qry with flags := { u.s.qry.flags with dnssecWexpand := true } } }
    else u.s) = s
  have hkeep : u.s.KeepsQuestion s := by
    rw [← hs]
    split
    · exact ⟨rfl, rfl, rfl, id⟩
    · exact .refl _
  have hw := unrollToWire_qry referral rr s
  split
  · next e he =>
    rw [he] at hw
    exact hkeep.trans (.of_qry_eq hw)
  · next toWire s' hws =>
    rw [hws] at hw
    have hkeep' : u.s.KeepsQuestion s' := hkeep.trans (.of_qry_eq hw)
    split
    · exact hkeep'.trans (.of_qry_eq (by simp [outcomeState]))
    split
    · exact hkeep'.trans (.of_qry_eq (by simp [outcomeState]))
    split
    · exact hkeep'.trans (.of_qry_eq (by simp [outcomeState]))
    · exact hkeep'.trans (.of_qry_eq (by simp [outcomeState]))

theorem unrollCnameRrs_keeps (referral : Bool) (cname : Dname) (anCount : Nat) :
    ∀ (rrs : List Rrset) (u : UnrollState),
      u.s.KeepsQuestion (outcomeState UnrollState.s (unrollCnameRrs referral cname anCount rrs u))
  | [], u => .refl u.s
  | rr :: rest, u => by
    have hrr := unrollCnameRr_keeps referral cname anCount u rr
    unfold unrollCnameRrs
    split
    · next e he =>
      rw [he] at hrr
      exact hrr
    · next u' hu =>
      rw [hu] at hrr
      exact hrr.trans (unrollCnameRrs_keeps referral cname anCount rest u')

theorem unrollCnameLoop_keeps (pkt : KnotPkt) (referral : Bool) :
    ∀ (fuel : Nat) (cname : Dname) (chainLen : Nat) (s : IterState),
      s.KeepsQuestion (outcomeState Prod.snd (unrollCnameLoop pkt referral fuel cname chainLen s))
  | 0, _, _, s => .refl s
  | fuel + 1, cname, chainLen, s => by
    have hrrs := unrollCnameRrs_keeps referral cname pkt.answer.length pkt.answer ⟨s, none, chainLen⟩
    unfold unrollCnameLoop
    split
    · next e he =>
      rw [he] at hrrs
      exact hrrs
    · next u hu =>
      rw [hu] at hrrs
      split
      · exact hrrs
      · split_ifs
        all_goals first
          | exact hrrs
          | exact hrrs.trans (unrollCnameLoop_keeps pkt referral fuel _ _ _)

theorem processFinal_qry (pkt : KnotPkt) (cname : Dname) (s : IterState) :
    (processFinal pkt cname s).2.qry = s.qry := by
  unfold processFinal
  split
  · rfl
  · dsimp only
    split
    · simp
    · split <;> (try split) <;> simp

theorem followCname_qry (pkt : KnotPkt) (cname : Dname) (s : IterState) :
    (followCname pkt cname s).2.qry = s.qry := by
  unfold followCname
  split
  · rfl
  split
  · rfl
  · dsimp only
    split <;> simp

theorem processAnswerTail_keeps (pkt : KnotPkt) (cname : Dname) (s : IterState) :
    s.KeepsQuestion (processAnswerTail pkt cname s).2 := by
  have hflag := KeepsQuestion.setFlags s (f := ({ · with cname := true })) fun _ h => h
  unfold processAnswerTail
  dsimp only
  split
  · split
    · have hf := processFinal_qry pkt cname (s.setFlags ({ · with cname := true }))
      revert hf
      cases processFinal pkt cname (s.setFlags ({ · with cname := true })) with
      | mk state t =>
        cases state with
        | none => intro hf; exact hflag.trans (.of_qry_eq (by rw [followCname_qry]; exact hf))
        | some st => intro hf; exact hflag.trans (.of_qry_eq hf)
    · exact hflag.trans (.of_qry_eq (followCname_qry _ _ _))
  · split_ifs <;> exact .of_qry_eq (by simp)

theorem processAnswer_keeps (pkt : KnotPkt) (s : IterState) :
    s.KeepsQuestion (processAnswer pkt s).2 := by
  have hloop := unrollCnameLoop_keeps pkt false krCnameChainLimit s.qry.sname 0 s
  unfold processAnswer
  dsimp only
  split_ifs
  · exact .refl s
  · exact KeepsQuestion.setFlags s (f := ({ · with noMinimize := true })) fun _ _ => rfl
  · exact .refl s
  · unfold unrollCname
    split
    · next e he =>
      rw [he] at hloop
      exact hloop
    · next cname t ht =>
      rw [ht] at hloop
      exact hloop.trans ((KeepsQuestion.setFlags t (f := ({ · with resolved := true }))
        fun _ h => h).trans (processAnswerTail_keeps _ _ _))

theorem processReferralAnswer_keeps (pkt : KnotPkt) (s : IterState) :
    s.KeepsQuestion (processReferralAnswer pkt s).2 := by
  have hloop := unrollCnameLoop_keeps pkt true krCnameChainLimit s.qry.sname 0 s
  unfold processReferralAnswer unrollCname
  split
  · next e he =>
    rw [he] at hloop
    exact hloop
  · next c t ht =>
    rw [ht] at hloop
    exact hloop.trans (.of_qry_eq (by simp [outcomeState]))

theorem resolveResponse_keeps (pkt : KnotPkt) (s : IterState) :
    s.KeepsQuestion (resolveResponse pkt s).2 := by
  have hauth := KeepsQuestion.of_qry_eq (processAuthority_cut pkt s).1
  unfold resolveResponse
  dsimp only
  split
  · exact hauth.trans (processAnswer_keeps _ _)
  · exact hauth.trans (processReferralAnswer_keeps _ _)
  · exact hauth

theorem processStubLoop_qry :
    ∀ (rrs : List Rrset) (s : IterState), (processStubLoop rrs s).2.qry = s.qry
  | [], _ => rfl
  | rr :: rest, s => by
    unfold processStubLoop
    dsimp only
    split
    · simp
    · rw [processStubLoop_qry rest]; simp

theorem processStub_keeps (pkt : KnotPkt) (s : IterState) :
    s.KeepsQuestion (processStub pkt s).2 := by
  have hloop := KeepsQuestion.of_qry_eq (processStubLoop_qry pkt.answer s)
  unfold processStub
  dsimp only
  split
  · exact hloop
  · have hflag := KeepsQuestion.setFlags (processStubLoop pkt.answer s).2
      (f := ({ · with resolved := true })) fun _ h => h
    split <;> exact hloop.trans (hflag.trans (.of_qry_eq (by simp)))

/-! ## The count of failed answers over a run -/

/-- What one query meets over time: the questions `prepare_query` sends and the responses
`resolve` takes, each called in a layer state. -/
inductive ExchangeOp where
  | prepare (state : KrLayerState) (rnd : UInt16)
  | answer (state : KrLayerState) (rsp : Response)

/-- A run: for each response the check it met and the layer state `resolve` returned, and the
query at the end. -/
def exchangeRun : List ExchangeOp → ResolveState → List (ResolveCheck × KrLayerState) × ResolveState
  | [], query => ([], query)
  | .prepare state rnd :: ops, query => exchangeRun ops (prepareQuery state rnd query).2.2
  | .answer state rsp :: ops, query =>
    let r := resolve rsp state query
    let t := exchangeRun ops r.2
    ((resolveCheck rsp query, r.1) :: t.1, t.2)

@[simp] theorem prepareQuery_fails (state : KrLayerState) (rnd : UInt16) (query : ResolveState) :
    (prepareQuery state rnd query).2.2.fails = query.fails := by
  unfold prepareQuery
  split <;> rfl

@[simp] theorem resolveBadmsg_fails (query : ResolveState) :
    (resolveBadmsg query).2.fails = query.fails := by
  unfold resolveBadmsg
  split_ifs <;> rfl

@[simp] theorem resolveNotimpl_fails (query : ResolveState) :
    (resolveNotimpl query).2.fails = query.fails := by
  unfold resolveNotimpl
  split
  · split_ifs
    · rfl
    · exact resolveBadmsg_fails query
  · exact resolveBadmsg_fails query

/-- Only a retried response moves the count of failed answers. -/
theorem resolve_fails_of_ne_retry {rsp : Response} {query : ResolveState} (state : KrLayerState)
    (hc : resolveCheck rsp query ≠ .retry) : (resolve rsp state query).2.fails = query.fails := by
  unfold resolve
  cases hcheck : resolveCheck rsp query with
  | retry => exact absurd hcheck hc
  | malformed | formerr => exact resolveBadmsg_fails query
  | mismatch => exact resolveBadmsg_fails { query with tcp := true }
  | notimpl => exact resolveNotimpl_fails query
  | truncated =>
    dsimp only
    split <;> rfl
  | skip | error | accept => rfl

theorem lt_krQueryNsretryLimit_iff {n : UInt16} : n < krQueryNsretryLimit ↔ n.toNat < 4 := by
  simp [krQueryNsretryLimit, UInt16.lt_iff_toNat_lt]

/-- A retried response adds one to the count, which goes back to 0 at the limit, and fails the
query exactly then. -/
theorem resolve_retry {rsp : Response} {query : ResolveState} (state : KrLayerState)
    (hc : resolveCheck rsp query = .retry) (h : query.fails < krQueryNsretryLimit) :
    (resolve rsp state query).2.fails.toNat = (query.fails.toNat + 1) % 4 ∧
      ((resolve rsp state query).1 = .fail ↔ (query.fails.toNat + 1) % 4 = 0) := by
  have hlt := lt_krQueryNsretryLimit_iff.mp h
  have hsucc : (query.fails + 1).toNat = query.fails.toNat + 1 := by
    rw [UInt16.toNat_add, UInt16.toNat_one]
    omega
  have hlim : query.fails + 1 ≥ krQueryNsretryLimit ↔ query.fails.toNat + 1 = 4 := by
    rw [GE.ge, UInt16.le_iff_toNat_le, hsucc]
    simp only [krQueryNsretryLimit, UInt16.reduceToNat]
    omega
  unfold resolve
  rw [hc]
  dsimp only
  by_cases hfull : query.fails.toNat + 1 = 4
  · rw [if_pos (hlim.mpr hfull)]
    simp [resolveError, hfull]
  · rw [if_neg (mt hlim.mp hfull)]
    have hmod : (query.fails.toNat + 1) % 4 = query.fails.toNat + 1 := Nat.mod_eq_of_lt (by omega)
    split <;> simp [hsucc, hmod]

/-- Over every run from a count of failed answers below the limit (`query_create` starts it at
0), the count stays below `KR_QUERY_NSRETRY_LIMIT`, so the 16-bit counter never wraps: at the end
it is the start plus the number of SERVFAIL and REFUSED answers, modulo the limit. The `k`-th of
those answers makes `resolve` fail exactly when the start plus `k + 1` is a multiple of the
limit; from a fresh query, every fourth one. -/
theorem exchangeRun_retries (ops : List ExchangeOp) (query : ResolveState)
    (h : query.fails < krQueryNsretryLimit) :
    (exchangeRun ops query).2.fails.toNat =
        (query.fails.toNat + ((exchangeRun ops query).1.filter (·.1 == .retry)).length) % 4 ∧
      ∀ (k : Nat) (hk : k < ((exchangeRun ops query).1.filter (·.1 == .retry)).length),
        (((exchangeRun ops query).1.filter (·.1 == .retry))[k].2 = .fail ↔
          (query.fails.toNat + k + 1) % 4 = 0) := by
  induction ops generalizing query with
  | nil =>
    refine ⟨?_, fun k hk => absurd hk (by simp [exchangeRun])⟩
    simp [exchangeRun, Nat.mod_eq_of_lt (lt_krQueryNsretryLimit_iff.mp h)]
  | cons op ops ih =>
    cases op with
    | prepare state rnd =>
      have hq := prepareQuery_fails state rnd query
      obtain ⟨ihf, ihk⟩ := ih _ (hq ▸ h)
      rw [hq] at ihf ihk
      exact ⟨ihf, ihk⟩
    | answer state rsp =>
      simp only [exchangeRun]
      by_cases hc : resolveCheck rsp query = .retry
      · -- the answer is counted: one more, modulo the limit
        obtain ⟨hf, hfail⟩ := resolve_retry state hc h
        obtain ⟨ihf, ihk⟩ := ih (resolve rsp state query).2 (lt_krQueryNsretryLimit_iff.mpr (by omega))
        simp only [hc, List.filter_cons, beq_self_eq_true, ↓reduceIte, List.length_cons]
        refine ⟨by omega, fun k hk => ?_⟩
        cases k with
        | zero => simpa using hfail
        | succ k =>
          rw [List.getElem_cons_succ, ihk k (by simpa using hk)]
          omega
      · -- any other response leaves the count alone
        have hq := resolve_fails_of_ne_retry state hc
        have hne : (resolveCheck rsp query == .retry) = false := by simpa using hc
        obtain ⟨ihf, ihk⟩ := ih _ (hq ▸ h)
        rw [hq] at ihf ihk
        simp only [List.filter_cons, hne, Bool.false_eq_true, ↓reduceIte]
        exact ⟨ihf, ihk⟩

/-- A SERVFAIL answer to `b.ex.` NS under the ID 7. -/
def servfailPkt : KnotPkt where
  ad := false
  aa := false
  cd := false
  rcode := knotRcodeServfail
  qname := [[0x62], [0x65, 0x78]]
  qtype := knotRrtypeNs
  optRr := none
  current := .answer
  answer := []
  authority := []
  additional := []

/-- The question `b.ex.` NS sent under the ID 7, answered SERVFAIL. -/
def servfailOps : List ExchangeOp :=
  [.prepare .produce 7, .answer .consume ⟨servfailPkt, 7, 1, knotClassIn, false, 40⟩]

theorem exchangeRun_retries_servfail :
    abExQuery.fails < krQueryNsretryLimit ∧
      (exchangeRun servfailOps abExQuery).2.fails.toNat =
        (abExQuery.fails.toNat +
          ((exchangeRun servfailOps abExQuery).1.filter (·.1 == .retry)).length) % 4 ∧
      ∀ (k : Nat) (hk : k < ((exchangeRun servfailOps abExQuery).1.filter (·.1 == .retry)).length),
        (((exchangeRun servfailOps abExQuery).1.filter (·.1 == .retry))[k].2 = .fail ↔
          (abExQuery.fails.toNat + k + 1) % 4 = 0) :=
  ⟨by decide, exchangeRun_retries servfailOps abExQuery (by decide)⟩

/-! ## Broken answers over a run -/

/-- How far `resolve_badmsg` has fallen back: 0 while minimising, 1 with `NO_MINIMIZE`, 2 in safe
mode. -/
def ResolveState.fallback (query : ResolveState) : Nat :=
  if query.safemode then 2 else if query.qry.flags.noMinimize then 1 else 0

theorem ResolveState.fallback_le_two (query : ResolveState) : query.fallback ≤ 2 := by
  unfold ResolveState.fallback
  split_ifs <;> omega

/-- A step that keeps the question and stays in safe mode does not move back. -/
theorem ResolveState.fallback_mono {query query' : ResolveState}
    (h : query.toIterState.KeepsQuestion query'.toIterState) (hs : query.safemode → query'.safemode) :
    query.fallback ≤ query'.fallback := by
  unfold ResolveState.fallback
  have hm := h.noMinimize
  split_ifs <;> simp_all

@[simp] theorem prepareQuery_fallback (state : KrLayerState) (rnd : UInt16) (query : ResolveState) :
    (prepareQuery state rnd query).2.2.fallback = query.fallback := by
  unfold prepareQuery
  split <;> rfl

/-- `resolve_badmsg` fails the query, leaving it as it was, or moves one step further back. -/
theorem resolveBadmsg_fallback (query : ResolveState) :
    ((resolveBadmsg query).1 = .fail ∧ (resolveBadmsg query).2 = query) ∨
      (resolveBadmsg query).2.fallback = query.fallback + 1 := by
  unfold resolveBadmsg
  split_ifs with hs hm
  · exact .inl ⟨rfl, rfl⟩
  · exact .inr (by simp [ResolveState.fallback, hs, hm])
  · exact .inr (by simp [ResolveState.fallback, hs, hm, IterState.setFlags])

theorem resolveBadmsg_fallback_mono (query : ResolveState) :
    query.fallback ≤ (resolveBadmsg query).2.fallback := by
  rcases resolveBadmsg_fallback query with ⟨-, h⟩ | h
  · rw [h]
  · omega

/-- No response moves the query back: `NO_MINIMIZE` and safe mode, once set, stay. -/
theorem resolve_fallback_mono (rsp : Response) (state : KrLayerState) (query : ResolveState) :
    query.fallback ≤ (resolve rsp state query).2.fallback := by
  unfold resolve
  cases resolveCheck rsp query with
  | skip | error => exact le_refl _
  | malformed | formerr => exact resolveBadmsg_fallback_mono query
  | mismatch => exact resolveBadmsg_fallback_mono { query with tcp := true }
  | truncated =>
    dsimp only
    split <;> exact le_refl _
  | retry =>
    dsimp only
    split_ifs
    · exact le_refl _
    · exact ResolveState.fallback_mono
        (KeepsQuestion.setFlags _ (f := ({ · with noMinimize := true })) fun _ _ => rfl) id
    · exact le_refl _
  | notimpl =>
    dsimp only
    unfold resolveNotimpl
    split
    · split_ifs
      · exact ResolveState.fallback_mono
          (KeepsQuestion.setFlags _ (f := ({ · with resolved := true })) fun _ h => h) id
      · exact resolveBadmsg_fallback_mono query
    · exact resolveBadmsg_fallback_mono query
  | accept =>
    unfold resolveAccepted
    dsimp only
    split
    · exact ResolveState.fallback_mono (processStub_keeps _ _) id
    · exact ResolveState.fallback_mono (resolveResponse_keeps _ _) id

/-- A response turned away as broken fails the query or moves it one step further back. -/
theorem resolve_broken {rsp : Response} {query : ResolveState} (state : KrLayerState)
    (hc : resolveCheck rsp query = .malformed ∨ resolveCheck rsp query = .mismatch ∨
      resolveCheck rsp query = .formerr) :
    (resolve rsp state query).1 = .fail ∨
      (resolve rsp state query).2.fallback = query.fallback + 1 := by
  unfold resolve
  rcases hc with hc | hc | hc <;> rw [hc] <;> dsimp only
  · rcases resolveBadmsg_fallback query with ⟨h, -⟩ | h
    · exact .inl h
    · exact .inr h
  · rcases resolveBadmsg_fallback { query with tcp := true } with ⟨h, -⟩ | h
    · exact .inl h
    · exact .inr h
  · rcases resolveBadmsg_fallback query with ⟨h, -⟩ | h
    · exact .inl h
    · exact .inr h

/-- Over every run, the responses `resolve` turns away as broken (malformed, not paired with the
query, or FORMERR) without failing the query move it back one step each, from minimising to
`NO_MINIMIZE` to safe mode, and nothing moves it forward again: a query survives at most two
broken responses in its life, and fewer once it has fallen back. -/
theorem exchangeRun_broken (ops : List ExchangeOp) (query : ResolveState) :
    query.fallback + ((exchangeRun ops query).1.filter fun e =>
        (e.1 == .malformed || e.1 == .mismatch || e.1 == .formerr) && e.2 != .fail).length ≤
      (exchangeRun ops query).2.fallback ∧ (exchangeRun ops query).2.fallback ≤ 2 := by
  induction ops generalizing query with
  | nil => simp [exchangeRun, ResolveState.fallback_le_two]
  | cons op ops ih =>
    cases op with
    | prepare state rnd =>
      simpa only [exchangeRun, prepareQuery_fallback] using ih (prepareQuery state rnd query).2.2
    | answer state rsp =>
      obtain ⟨ihc, ihle⟩ := ih (resolve rsp state query).2
      refine ⟨?_, ihle⟩
      have hmono := resolve_fallback_mono rsp state query
      simp only [exchangeRun, List.filter_cons]
      split
      · -- a broken response the query survived: one step back
        next hcount =>
        simp only [Bool.and_eq_true, Bool.or_eq_true, beq_iff_eq, bne_iff_ne, ne_eq] at hcount
        obtain ⟨hbroken, hlive⟩ := hcount
        have hstep := (resolve_broken state (by tauto)).resolve_left hlive
        simp only [List.length_cons]
        omega
      · omega

/-- Three responses of no more than a header: minimisation goes off, then safe mode on, and the
third fails the query. -/
example : (exchangeRun (List.replicate 3 (.answer .consume ⟨servfailPkt, 7, 1, knotClassIn, false, 5⟩))
    abExQuery).1 = [(.malformed, .done), (.malformed, .done), (.malformed, .fail)] := by
  decide

end KnotResolver
