import KnotResolver.Request

/-! Finishing a request (`lib/resolve.c`). `answer_finalize` writes the selected RRsets into the
answer and decides whether the answer keeps the AD bit, `answer_fail` turns the answer into a
SERVFAIL, and `kr_resolve_finish` runs the modules' `answer_finalize` callbacks, then
`answer_finalize` itself unless the request has already failed, the SERVFAIL fallback for a
request that is not done, and the modules' `finish` callbacks.

The AD bit is set when the request starts (`resolve_query`) if the query wants DNSSEC, and every
path that cannot vouch for the answer has to clear it. -/

namespace KnotResolver

namespace Libknot

variable (k : Libknot)

/-- `write_extra_records`: a full packet ends the loop without an error. -/
def writeExtraRecords (reorder : UInt16) : List Rrset → KnotPkt → Int × KnotPkt
  | [], answer => (krOk, answer)
  | rr :: rest, answer =>
    let r := k.knotPktPutRotate answer rr reorder
    if r.1 = knotEok then writeExtraRecords reorder rest r.2
    else if r.1 = k.knotEspace then (krOk, r.2)
    else (krError r.1, r.2)

/-- The state of the loop of `write_extra_ranked_records`. `written` lists the entries the loop has
put into the packet; the C code keeps no such list. -/
structure RankedWrite where
  err : Int
  answer : KnotPkt
  allSec : Bool
  allCn : Bool
  written : List RankedEntry

/-- The loop of `write_extra_ranked_records`; a failed write ends it (`break`). -/
def writeRankedLoop (hasDnssec : Bool) (reorder : UInt16) :
    List RankedEntry → RankedWrite → RankedWrite
  | [], w => w
  | entry :: rest, w =>
    if !entry.toWire then writeRankedLoop hasDnssec reorder rest w
    -- without DO, DNSSEC records are only written when they were asked for
    else if !hasDnssec && entry.rr.type != w.answer.qtype && k.knotRrtypeIsDnssec entry.rr.type
      then writeRankedLoop hasDnssec reorder rest w
    else
      let r := k.knotPktPutRotate w.answer entry.rr reorder
      if r.1 ≠ knotEok then
        { w with err := if r.1 = k.knotEspace then krOk else r.1, answer := r.2 }
      else
        writeRankedLoop hasDnssec reorder rest
          { w with
            answer := r.2
            allSec := if entry.rr.type ≠ knotRrtypeRrsig then w.allSec && krRankTest entry.rank krRankSecure
              else w.allSec
            allCn := w.allCn && krRrsetTypeMaysig entry.rr == knotRrtypeCname
            written := w.written ++ [entry] }

/-- `write_extra_ranked_records`: `allSecure` is and-combined with the security of the written
RRsets; `wantCname` says whether `all_cname` is asked for. -/
def writeExtraRankedRecords (arr : List RankedEntry) (reorder : UInt16) (answer : KnotPkt)
    (allSecure wantCname : Bool) : RankedWrite :=
  let w := k.writeRankedLoop answer.knotPktHasDnssec reorder arr ⟨krOk, answer, true, wantCname, []⟩
  { w with allSec := allSecure && w.allSec }

/-- `answer_padding`; the size of the padding is libknot's business. -/
def answerPadding (answer : KnotPkt) : Int :=
  if k.knotEdnsAddOption answer = knotEok then krOk else krError (k.knotEdnsAddOption answer)

/-- `kr_pkt_clear_payload`: the header and the question stay. -/
def krPktClearPayload (answer : KnotPkt) : Int × KnotPkt :=
  let cleared := { answer with current := .answer, answer := [], authority := [], additional := [] }
  (k.knotPktParseQuestion cleared, cleared)

/-- `edns_put` without reclaiming space. -/
def ednsPut (pkt : KnotPkt) : Int × KnotPkt :=
  match pkt.optRr with
  | none => (krOk, pkt)
  | some opt => k.knotPktPutRr pkt opt

/-- `answer_fail`: an empty SERVFAIL answer without AD and AA, with the OPT RR if possible. -/
def answerFail (request : KrRequest) : Int × KrRequest :=
  let c := k.krPktClearPayload request.answer
  let answer : KnotPkt := { c.2 with ad := false, aa := false, rcode := knotRcodeServfail }
  -- the result of `answer_padding` is ignored here
  if c.1 = 0 ∧ answer.optRr.isSome then
    let r := k.ednsPut (answer.knotPktBegin .additional)
    (r.1, { request with answer := r.2 })
  else (c.1, { request with answer })

/-- What the writing part of `answer_finalize` hands on: the packet, `secure` combined with the
security of the written RRsets, `answ_all_cnames`, and the ranked entries written (which the C
code does not keep). -/
structure AnswerWrite where
  answer : KnotPkt
  secure : Bool
  answAllCnames : Bool
  written : List RankedEntry

/-- The answer records of `answer_finalize`, written when any are selected. -/
def writeAnswerRecords (request : KrRequest) (reorder : UInt16) (secure : Bool) : RankedWrite :=
  if request.answSelected.length > 0 then
    k.writeExtraRankedRecords request.answSelected reorder
      (if request.answer.current.toNat < KnotSection.answer.toNat then
        request.answer.knotPktBegin .answer else request.answer) secure true
  else ⟨krOk, request.answer, secure, false, []⟩

/-- The answer and authority records of `answer_finalize`; a failure gives the packet as
`answer_fail` finds it. -/
def writeSelected (request : KrRequest) (reorder : UInt16) (secure : Bool) :
    Except KnotPkt AnswerWrite :=
  let answ := k.writeAnswerRecords request reorder secure
  if answ.err ≠ 0 then .error answ.answer else
  let auth := k.writeExtraRankedRecords request.authSelected reorder
    (if answ.answer.current.toNat < KnotSection.authority.toNat then
      answ.answer.knotPktBegin .authority else answ.answer) answ.allSec false
  if auth.err ≠ 0 then .error auth.answer
  else .ok ⟨auth.answer, auth.allSec, answ.allCn, answ.written ++ auth.written⟩

/-- The additional records and the OPT RR of `answer_finalize`. -/
def writeAdditional (request : KrRequest) (reorder : UInt16) (answer : KnotPkt) :
    Except KnotPkt KnotPkt :=
  let addl := k.writeExtraRecords reorder request.additional (answer.knotPktBegin .additional)
  if addl.1 ≠ 0 then .error addl.2 else
  match addl.2.optRr with
  | none => .ok addl.2
  | some opt =>
    if request.qsourceTls ∧ k.answerPadding addl.2 ≠ krOk then .error addl.2 else
    let r := k.knotPktPutRr (addl.2.knotPktBegin .additional) opt
    if r.1 ≠ knotEok then .error r.2 else .ok r.2

/-- The writing part of `answer_finalize`. -/
def writeAnswer (request : KrRequest) (reorder : UInt16) (secure : Bool) :
    Except KnotPkt AnswerWrite :=
  match k.writeSelected request reorder secure with
  | .error answer => .error answer
  | .ok res =>
    match k.writeAdditional request reorder res.answer with
    | .error answer => .error answer
    | .ok answer => .ok { res with answer }

end Libknot

/-- The `cname_parent` loop of `answer_finalize`: some query up the chain has `DNSSEC_OPTOUT`. -/
def cnameParentOptout : Option KrQuery → Bool
  | none => false
  | some q => q.flags.dnssecOptout || cnameParentOptout q.cnameParent
decreasing_by
  cases q
  simp only [Option.some.sizeOf_spec, KrQuery.mk.sizeOf_spec]
  omega

/-- The AD decision of `answer_finalize` once the records are written: negative answers and
CNAME chains ending in NODATA also need the last query's DNSSEC flags, and no query on the CNAME
chain may have been answered with opt-out. -/
def secureAfterWrite (last : Option KrQuery) (answer : KnotPkt) (secure answAllCnames : Bool) :
    Bool :=
  match last with
  | none => false
  | some last =>
    let secure :=
      if krResponseClassify answer ≠ .noerror ∨ (answAllCnames ∧ answer.qtype ≠ knotRrtypeCname)
        then secure && last.flags.dnssecWant && !last.flags.dnssecBogus
          && !last.flags.dnssecInsecure
      else secure
    secure && !cnameParentOptout last.cnameParent

namespace Libknot

variable (k : Libknot)

/-- `answer_finalize`. -/
def answerFinalize (request : KrRequest) (state : KrLayerState) : Int × KrRequest :=
  -- always SERVFAIL for bogus answers
  if state = .fail ∧ request.pending.getLast?.any (fun q => q.flags.dnssecWant && q.flags.dnssecBogus)
    then k.answerFail request
  else
    let last := request.resolved.getLast?
    let secure := last.isSome && state == .done && request.answer.qtype != knotRrtypeRrsig
    let secure := secure && !last.any (·.flags.stub) && !last.any (·.flags.dnssecOptout)
    let reorder := (last.map (·.reorder)).getD 0
    match k.writeAnswer request reorder secure with
    | .error answer => k.answerFail { request with answer }
    | .ok res =>
      let secure := secureAfterWrite last res.answer res.secure res.answAllCnames
      (krOk, { request with
        answer := if secure then res.answer else { res.answer with ad := false }
        rank := if secure then krRankSecure else krRankInitial })

/-- `kr_resolve_finish` up to the modules' `finish` callbacks: the request as they receive it.
`answer_finalize` does not run when a module's `answer_finalize` callback failed the request. -/
def resolveFinishRequest (finalizeLayers : List KrLayer) (request : KrRequest)
    (state : KrLayerState) : KrRequest :=
  let request := iterateLayers finalizeLayers request
  let r : KrLayerState × KrRequest :=
    if request.state = .fail then (.fail, request)
    else
      let f := k.answerFinalize request state
      (if f.1 ≠ 0 then .fail else state, f.2)
  -- an internal failure turns a NOERROR answer into SERVFAIL
  let answer := if r.1 ≠ .done ∧ r.2.answer.rcode = knotRcodeNoerror then
      { r.2.answer with ad := false, aa := false, rcode := knotRcodeServfail }
    else r.2.answer
  { r.2 with answer, state := r.1 }

/-- `kr_resolve_finish`; it always returns `KR_STATE_DONE`. -/
def krResolveFinish (finalizeLayers finishLayers : List KrLayer) (request : KrRequest)
    (state : KrLayerState) : KrRequest :=
  iterateLayers finishLayers (k.resolveFinishRequest finalizeLayers request state)

end Libknot

/-! ## The AD bit -/

namespace Libknot

variable {k : Libknot}

@[simp] theorem ednsPut_ad (pkt : KnotPkt) : (k.ednsPut pkt).2.ad = pkt.ad := by
  unfold ednsPut; split <;> simp [knotPktPutRr]

/-- `answer_fail` always clears AD. -/
theorem answerFail_ad (request : KrRequest) : (k.answerFail request).2.answer.ad = false := by
  unfold answerFail
  dsimp only
  split <;> simp [KnotPkt.knotPktBegin]

/-- The packet after writing the RRsets of `entries`, rotated by `reorder`. -/
def pushWritten (reorder : UInt16) (p : KnotPkt) (entries : List RankedEntry) : KnotPkt :=
  entries.foldl (fun p e => p.push (e.rr.rotateRecords reorder.toNat)) p

@[simp] theorem pushWritten_ad (reorder : UInt16) (p : KnotPkt) (entries : List RankedEntry) :
    (pushWritten reorder p entries).ad = p.ad := by
  induction entries generalizing p with
  | nil => rfl
  | cons e entries ih => rw [pushWritten, List.foldl_cons, ← pushWritten, ih, KnotPkt.push_ad]

/-- What a run of the loop of `write_extra_ranked_records` from `w` to `w'` over `arr` did: it
wrote the RRsets of some entries `new` of `arr` into the packet, appended them to `written`, and
kept `allSec` only if every non-RRSIG one of them is secure. -/
def RankedRun (reorder : UInt16) (arr : List RankedEntry) (w w' : RankedWrite) : Prop :=
  ∃ new, w'.written = w.written ++ new ∧ w'.answer = pushWritten reorder w.answer new ∧
    (∀ e ∈ new, e ∈ arr ∧ e.toWire = true) ∧
    (w'.allSec = true → w.allSec = true ∧
      ∀ e ∈ new, e.rr.type ≠ knotRrtypeRrsig → krRankTest e.rank krRankSecure = true)

namespace RankedRun

variable {reorder : UInt16}

theorem refl (arr : List RankedEntry) (w : RankedWrite) : RankedRun reorder arr w w :=
  ⟨[], by simp, rfl, by simp, fun h => ⟨h, by simp⟩⟩

theorem cons {entry : RankedEntry} {rest : List RankedEntry} {w w' : RankedWrite}
    (h : RankedRun reorder rest w w') : RankedRun reorder (entry :: rest) w w' := by
  obtain ⟨new, hw, hans, hmem, hsec⟩ := h
  exact ⟨new, hw, hans, fun e he => ⟨List.mem_cons_of_mem _ (hmem e he).1, (hmem e he).2⟩, hsec⟩

/-- Writing `entry` and then running over `rest`. -/
theorem write {entry : RankedEntry} {rest : List RankedEntry} {w w' : RankedWrite}
    (hwire : entry.toWire = true)
    (h : RankedRun reorder rest
      { w with
        answer := w.answer.push (entry.rr.rotateRecords reorder.toNat)
        allSec := if entry.rr.type ≠ knotRrtypeRrsig then w.allSec && krRankTest entry.rank krRankSecure
          else w.allSec
        allCn := w.allCn && krRrsetTypeMaysig entry.rr == knotRrtypeCname
        written := w.written ++ [entry] } w') :
    RankedRun reorder (entry :: rest) w w' := by
  obtain ⟨new, hw, hans, hmem, hsec⟩ := h
  refine ⟨entry :: new, by simp [hw], by simp [hans, pushWritten], ?_, ?_⟩
  · intro e he
    rcases List.mem_cons.mp he with rfl | he
    · exact ⟨List.mem_cons_self, hwire⟩
    · exact ⟨List.mem_cons_of_mem _ (hmem e he).1, (hmem e he).2⟩
  · intro hall'
    obtain ⟨hall, hnew⟩ := hsec hall'
    -- `allSec` before the write was true, and so was the entry's part of it
    by_cases hrrsig : entry.rr.type = knotRrtypeRrsig
    · simp only [hrrsig, ne_eq, not_true_eq_false, if_false] at hall
      refine ⟨hall, fun e he hne => ?_⟩
      rcases List.mem_cons.mp he with rfl | he
      · exact absurd hrrsig hne
      · exact hnew e he hne
    · simp only [hrrsig, ne_eq, not_false_eq_true, if_true, Bool.and_eq_true] at hall
      refine ⟨hall.1, fun e he hne => ?_⟩
      rcases List.mem_cons.mp he with rfl | he
      · exact hall.2
      · exact hnew e he hne

end RankedRun

/-- The run lemma of the loop of `write_extra_ranked_records`. -/
theorem writeRankedLoop_run (hasDnssec : Bool) (reorder : UInt16) (arr : List RankedEntry)
    (w : RankedWrite) : RankedRun reorder arr w (k.writeRankedLoop hasDnssec reorder arr w) := by
  induction arr generalizing w with
  | nil => exact RankedRun.refl [] w
  | cons entry rest ih =>
    unfold writeRankedLoop
    dsimp only
    split
    · exact (ih w).cons
    split
    · exact (ih w).cons
    · next hwire _ =>
      replace hwire : entry.toWire = true := by simpa using hwire
      split
      · -- a failed write stops the loop
        next hput =>
        rw [knotPktPutRotate_fst] at hput
        refine ⟨[], by simp, ?_, by simp, fun h => ⟨h, by simp⟩⟩
        simp [k.knotPktPutRotate_snd_of_error hput, pushWritten]
      · next hput =>
        rw [knotPktPutRotate_fst, not_not] at hput
        rw [k.knotPktPutRotate_snd_of_ok hput]
        exact RankedRun.write hwire (ih _)

/-- Every entry of `written` is an entry of `arr` marked for the wire, and secure unless it is an
RRSIG set. -/
def SecureWritten (arr written : List RankedEntry) : Prop :=
  ∀ e ∈ written, e ∈ arr ∧ e.toWire = true ∧
    (e.rr.type ≠ knotRrtypeRrsig → krRankTest e.rank krRankSecure = true)

theorem writeExtraRankedRecords_spec (arr : List RankedEntry) (reorder : UInt16)
    (answer : KnotPkt) (allSecure wantCname : Bool) :
    (k.writeExtraRankedRecords arr reorder answer allSecure wantCname).answer =
        pushWritten reorder answer (k.writeExtraRankedRecords arr reorder answer allSecure wantCname).written ∧
      ((k.writeExtraRankedRecords arr reorder answer allSecure wantCname).allSec = true →
        allSecure = true ∧
          SecureWritten arr (k.writeExtraRankedRecords arr reorder answer allSecure wantCname).written) := by
  obtain ⟨new, hw, hans, hmem, hsec⟩ := k.writeRankedLoop_run answer.knotPktHasDnssec reorder arr
    ⟨krOk, answer, true, wantCname, []⟩
  rw [List.nil_append] at hw
  refine ⟨by simp only [writeExtraRankedRecords, hans, hw], fun h => ?_⟩
  simp only [writeExtraRankedRecords, Bool.and_eq_true] at h
  obtain ⟨-, hnew⟩ := hsec h.2
  refine ⟨h.1, fun e he => ?_⟩
  simp only [writeExtraRankedRecords, hw] at he
  exact ⟨(hmem e he).1, (hmem e he).2, hnew e he⟩

theorem writeAnswerRecords_spec (request : KrRequest) (reorder : UInt16) (secure : Bool) :
    (k.writeAnswerRecords request reorder secure).answer.ad = request.answer.ad ∧
      ((k.writeAnswerRecords request reorder secure).allSec = true → secure = true ∧
        SecureWritten request.answSelected (k.writeAnswerRecords request reorder secure).written) := by
  unfold writeAnswerRecords
  split
  · obtain ⟨hans, hsec⟩ := k.writeExtraRankedRecords_spec request.answSelected reorder
      (if request.answer.current.toNat < KnotSection.answer.toNat then
        request.answer.knotPktBegin .answer else request.answer) secure true
    refine ⟨?_, hsec⟩
    rw [hans, pushWritten_ad]
    split <;> rfl
  · exact ⟨rfl, fun h => ⟨h, by simp [SecureWritten]⟩⟩

theorem writeSelected_ok {request : KrRequest} {reorder : UInt16} {secure : Bool}
    {res : AnswerWrite} (h : k.writeSelected request reorder secure = .ok res) :
    res.answer.ad = request.answer.ad ∧
      (res.secure = true → secure = true ∧
        SecureWritten (request.answSelected ++ request.authSelected) res.written) := by
  obtain ⟨hansw, hsecw⟩ := k.writeAnswerRecords_spec request reorder secure
  unfold writeSelected at h
  dsimp only at h
  generalize k.writeAnswerRecords request reorder secure = answ at h hansw hsecw
  -- the authority records are written from where the answer records left the packet
  generalize hstart : (if answ.answer.current.toNat < KnotSection.authority.toNat then
    answ.answer.knotPktBegin .authority else answ.answer) = start at h
  have hstartad : start.ad = answ.answer.ad := by
    rw [← hstart]; split <;> rfl
  obtain ⟨hans, hsec⟩ := k.writeExtraRankedRecords_spec request.authSelected reorder start
    answ.allSec false
  split at h
  · cases h
  split at h
  · cases h
  cases h
  refine ⟨by rw [hans, pushWritten_ad, hstartad, hansw], fun hres => ?_⟩
  obtain ⟨hall, hauth⟩ := hsec hres
  obtain ⟨hsecure, hanswsec⟩ := hsecw hall
  refine ⟨hsecure, fun e he => ?_⟩
  rcases List.mem_append.mp he with he | he
  · obtain ⟨hmem, hwire, hrank⟩ := hanswsec e he
    exact ⟨List.mem_append_left _ hmem, hwire, hrank⟩
  · obtain ⟨hmem, hwire, hrank⟩ := hauth e he
    exact ⟨List.mem_append_right _ hmem, hwire, hrank⟩

theorem writeExtraRecords_ad (reorder : UInt16) (rrs : List Rrset) (answer : KnotPkt) :
    (k.writeExtraRecords reorder rrs answer).2.ad = answer.ad := by
  induction rrs generalizing answer with
  | nil => rfl
  | cons rr rest ih =>
    unfold writeExtraRecords
    dsimp only
    split
    · rw [ih, knotPktPutRotate_ad]
    · split <;> simp

theorem writeAdditional_ad {request : KrRequest} {reorder : UInt16} {answer answer' : KnotPkt}
    (h : k.writeAdditional request reorder answer = .ok answer') : answer'.ad = answer.ad := by
  unfold writeAdditional at h
  dsimp only at h
  have hextra := k.writeExtraRecords_ad reorder request.additional (answer.knotPktBegin .additional)
  split at h
  · cases h
  split at h
  · cases h
    simpa using hextra
  · split at h
    · cases h
    split at h
    · cases h
    · cases h
      simp [knotPktPutRr, hextra]

/-- The writing part of `answer_finalize` keeps AD, and keeps `secure` only if every ranked RRset it
wrote is secure (RRSIG sets apart). -/
theorem writeAnswer_ok {request : KrRequest} {reorder : UInt16} {secure : Bool}
    {res : AnswerWrite} (h : k.writeAnswer request reorder secure = .ok res) :
    res.answer.ad = request.answer.ad ∧
      (res.secure = true → secure = true ∧
        SecureWritten (request.answSelected ++ request.authSelected) res.written) := by
  unfold writeAnswer at h
  split at h
  · cases h
  · next sel hsel =>
    split at h
    · cases h
    · next answer hadd =>
      cases h
      obtain ⟨had, hsec⟩ := k.writeSelected_ok hsel
      exact ⟨(k.writeAdditional_ad hadd).trans had, hsec⟩

end Libknot

theorem secureAfterWrite_eq_true {last : Option KrQuery} {answer : KnotPkt} {secure cn : Bool} :
    secureAfterWrite last answer secure cn = true ↔
      ∃ l, last = some l ∧ secure = true ∧ cnameParentOptout l.cnameParent = false ∧
        (krResponseClassify answer ≠ .noerror ∨ (cn = true ∧ answer.qtype ≠ knotRrtypeCname) →
          l.flags.dnssecWant = true ∧ l.flags.dnssecBogus = false ∧
            l.flags.dnssecInsecure = false) := by
  cases last with
  | none => simp [secureAfterWrite]
  | some l =>
    simp only [secureAfterWrite, Option.some.injEq, exists_eq_left']
    -- negative answers and CNAME-only ones also need the query's DNSSEC flags
    by_cases hneg : krResponseClassify answer ≠ .noerror ∨ (cn = true ∧ answer.qtype ≠ knotRrtypeCname)
    · simp only [hneg, if_true, Bool.and_eq_true, Bool.not_eq_true', forall_const]
      tauto
    · simp only [hneg, if_false, Bool.and_eq_true, Bool.not_eq_true', false_implies, and_true]

namespace Libknot

variable {k : Libknot}

/-- `answer_finalize` leaves AD set only on a done request whose last resolved query was neither
forwarded nor answered with opt-out, with no opt-out up its CNAME chain, whose written ranked
RRsets are secure (RRSIG sets apart), and whose negative or CNAME-only answer carries the query's
DNSSEC flags. -/
theorem answerFinalize_ad {request : KrRequest} {state : KrLayerState}
    (h : (k.answerFinalize request state).2.answer.ad = true) :
    (k.answerFinalize request state).1 = krOk ∧ state = .done ∧ request.answer.ad = true ∧
      request.answer.qtype ≠ knotRrtypeRrsig ∧
      ∃ last res, request.resolved.getLast? = some last ∧
        last.flags.stub = false ∧ last.flags.dnssecOptout = false ∧
        cnameParentOptout last.cnameParent = false ∧
        k.writeAnswer request last.reorder true = .ok res ∧
        (k.answerFinalize request state).2.answer = res.answer ∧
        SecureWritten (request.answSelected ++ request.authSelected) res.written ∧
        (krResponseClassify res.answer ≠ .noerror ∨
            (res.answAllCnames = true ∧ res.answer.qtype ≠ knotRrtypeCname) →
          last.flags.dnssecWant = true ∧ last.flags.dnssecBogus = false ∧
            last.flags.dnssecInsecure = false) := by
  unfold answerFinalize at h ⊢
  split at h
  · simp [answerFail_ad] at h
  rename_i hbogus
  simp only [hbogus, if_false]
  dsimp only at h ⊢
  split at h
  · simp [answerFail_ad] at h
  rename_i res hres
  -- AD survives only when `secure` is still true at the end
  by_cases hs : secureAfterWrite request.resolved.getLast? res.answer res.secure res.answAllCnames
  · obtain ⟨l, hl, hsec, hchain, hneg⟩ := secureAfterWrite_eq_true.mp hs
    obtain ⟨had, hsecure⟩ := k.writeAnswer_ok hres
    obtain ⟨hsec0, hwritten⟩ := hsecure hsec
    simp only [hl, Option.isSome_some, Option.any_some, Bool.true_and, Bool.and_eq_true,
      beq_iff_eq, bne_iff_ne, ne_eq, Bool.not_eq_true'] at hsec0
    obtain ⟨⟨⟨hdone, hqtype⟩, hstub⟩, hoptout⟩ := hsec0
    simp only [hs, if_true] at h ⊢
    refine ⟨trivial, hdone, had ▸ h, hqtype, l, res, hl, hstub, hoptout, hchain, ?_, rfl, hwritten, hneg⟩
    rw [← hres, hl]
    simp [hdone, bne_iff_ne.mpr hqtype, hstub, hoptout]
  · simp [hs] at h

/-- The AD bit of the answer `kr_resolve_finish` hands on. When the modules' `answer_finalize`
callbacks leave the request unfailed, AD is kept only if `answer_finalize` kept it, and the request
is then done. Otherwise the request has failed and AD is the one the callbacks left, on an answer
that is not NOERROR. -/
theorem resolveFinishRequest_ad {fl : List KrLayer} {request : KrRequest} {state : KrLayerState}
    (h : (k.resolveFinishRequest fl request state).answer.ad = true) :
    ((iterateLayers fl request).state ≠ .fail ∧
        (k.resolveFinishRequest fl request state).state = .done ∧
        (k.answerFinalize (iterateLayers fl request) state).2.answer.ad = true) ∨
      ((iterateLayers fl request).state = .fail ∧
        (k.resolveFinishRequest fl request state).state = .fail ∧
        (iterateLayers fl request).answer.ad = true ∧
        (iterateLayers fl request).answer.rcode ≠ knotRcodeNoerror) := by
  -- the SERVFAIL fallback clears AD, so AD comes from the request the fallback receives
  have hfallback : ∀ (c : Prop) [Decidable c] (a : KnotPkt),
      (if c then { a with ad := false, aa := false, rcode := knotRcodeServfail } else a).ad = true →
        ¬c ∧ a.ad = true := by
    intro c _ a hc
    split at hc
    · simp at hc
    · exact ⟨‹_›, hc⟩
  unfold resolveFinishRequest at h ⊢
  by_cases hrun : (iterateLayers fl request).state = .fail
  · -- a callback failed the request: `answer_finalize` is skipped
    simp only [hrun, if_true] at h ⊢
    obtain ⟨hnot, had⟩ := hfallback _ _ h
    -- `hrun` has closed the two state conjuncts
    exact .inr ⟨trivial, trivial, had, fun hno => hnot ⟨nofun, hno⟩⟩
  · simp only [hrun, if_false] at h ⊢
    obtain ⟨-, had⟩ := hfallback _ _ h
    obtain ⟨hret, hdone, -⟩ := answerFinalize_ad had
    refine .inl ⟨hrun, ?_, had⟩
    rw [hret]
    simp [krOk, hdone]

end Libknot

/-- The request of an ANY query with the DO bit for a name under a trust anchor, after the
iterator's `begin` refused the query type: the answer is NOTIMPL and still has the AD bit that
`resolve_query` set, and the request has failed. -/
def notimplRequest : KrRequest where
  state := .fail
  answer :=
    { ad := true, aa := false, cd := false, rcode := knotRcodeNotimpl, qname := [[0x65, 0x78]]
      qtype := 255
      optRr := some { owner := [], type := 41, rclass := 1232, ttl := 0x8000, rrs := [] }
      current := .answer, answer := [], authority := [], additional := [] }
  answSelected := []
  authSelected := []
  additional := []
  pending :=
    [{ uid := 1, sname := [[0x65, 0x78]], stype := 255, sclass := knotClassIn,
       flags := { dnssecWant := true } }]
  resolved := []
  qsourceTls := false
  rank := krRankInitial

/-- A request that failed before `kr_resolve_finish` keeps the AD bit of a NOTIMPL answer:
`answer_finalize` is skipped and the fallback only clears AD of a NOERROR answer. -/
theorem failed_request_keeps_ad (k : Libknot) (state : KrLayerState) :
    (k.krResolveFinish [] [] notimplRequest state).answer.ad = true ∧
      (k.krResolveFinish [] [] notimplRequest state).state = .fail := by
  constructor <;> rfl

/-- A `libknot` for which every write fits. -/
def writesFit : Libknot := ⟨fun _ _ => knotEok, -995, fun _ => false, fun _ => knotEok, fun _ => knotEok⟩

theorem resolveFinishRequest_ad_notimpl :
    (writesFit.resolveFinishRequest [] notimplRequest .fail).answer.ad = true ∧
      (((iterateLayers [] notimplRequest).state ≠ .fail ∧
          (writesFit.resolveFinishRequest [] notimplRequest .fail).state = .done ∧
          (writesFit.answerFinalize (iterateLayers [] notimplRequest) .fail).2.answer.ad = true) ∨
        ((iterateLayers [] notimplRequest).state = .fail ∧
          (writesFit.resolveFinishRequest [] notimplRequest .fail).state = .fail ∧
          (iterateLayers [] notimplRequest).answer.ad = true ∧
          (iterateLayers [] notimplRequest).answer.rcode ≠ knotRcodeNoerror)) :=
  have had : (writesFit.resolveFinishRequest [] notimplRequest .fail).answer.ad = true := rfl
  ⟨had, Libknot.resolveFinishRequest_ad had⟩

end KnotResolver
