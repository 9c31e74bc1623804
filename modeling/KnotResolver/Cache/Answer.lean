import KnotResolver.Cache.Cdb

/-!
# Answers assembled from the cache

`struct answer` collects the RRsets of an answer the cache synthesizes: the positive records, the
SOA, and the NSEC* records of a proof, each materialized from an entry by `entry2answer` with the
TTL left to it and the entry's rank. `pkt_append` then writes them, with their RRSIGs, into the
packet, the rank of each RRset stored beside it.
-/

namespace KnotResolver.Cache

/-- The slots of `struct answer`: `AR_ANSWER`, `AR_SOA`, `AR_NSEC`, `AR_WILD` and `AR_CPE`. -/
inductive ArId where
  | answer
  | soa
  | nsec
  | wild
  | cpe
  deriving DecidableEq, Repr

/-- `struct answer_rrset`: an RRset materialized from an entry, its rank, whether it expires soon,
and its RRSIG records. -/
structure AnswerRrset where
  rr : Rrset
  rank : UInt8
  expiring : Bool
  sigRds : List Rdata
  deriving DecidableEq, Repr

/-- `struct answer`: the classification of the answer (`PKT_NODATA` and so on, `none` while
unset), the NSEC3 parameters of the proof (`nsec_p.raw`, none for NSEC), and the slots. -/
structure Answer where
  rcode : Option PktClass := none
  nsecPRaw : Option Nsec3.Nsec3Params := none
  answer : Option AnswerRrset := none
  soa : Option AnswerRrset := none
  nsec : Option AnswerRrset := none
  wild : Option AnswerRrset := none
  cpe : Option AnswerRrset := none
  deriving DecidableEq, Repr

namespace Answer

def get (ans : Answer) : ArId → Option AnswerRrset
  | .answer => ans.answer
  | .soa => ans.soa
  | .nsec => ans.nsec
  | .wild => ans.wild
  | .cpe => ans.cpe

def set (ans : Answer) (v : Option AnswerRrset) : ArId → Answer
  | .answer => { ans with answer := v }
  | .soa => { ans with soa := v }
  | .nsec => { ans with nsec := v }
  | .wild => { ans with wild := v }
  | .cpe => { ans with cpe := v }

/-- The slots in the order of `ans.rrsets`. -/
def slots (ans : Answer) : List (Option AnswerRrset) :=
  [ans.answer, ans.soa, ans.nsec, ans.wild, ans.cpe]

@[simp] theorem get_set_self (ans : Answer) (v : Option AnswerRrset) (id : ArId) :
    (ans.set v id).get id = v := by
  cases id <;> rfl

@[simp] theorem get_set_of_ne (ans : Answer) (v : Option AnswerRrset) {id id' : ArId}
    (h : id ≠ id') : (ans.set v id).get id' = ans.get id' := by
  cases id <;> cases id' <;> first | rfl | exact absurd rfl h

@[simp] theorem rcode_set (ans : Answer) (v : Option AnswerRrset) (id : ArId) :
    (ans.set v id).rcode = ans.rcode := by
  cases id <;> rfl

@[simp] theorem nsecPRaw_set (ans : Answer) (v : Option AnswerRrset) (id : ArId) :
    (ans.set v id).nsecPRaw = ans.nsecPRaw := by
  cases id <;> rfl

end Answer

/-- `entry2answer`: materialize the entry's records as the RRset `owner`, `type` with the TTL
`newTtl`, and its RRSIG records, into the empty slot `id`. -/
def entry2answer (ans : Answer) (id : ArId) (eh : EntryH) (owner : Dname) (type : UInt16)
    (newTtl : UInt32) : Except Int (Answer × AnswerRrset) :=
  if (ans.get id).isSome ∨ (type = knotRrtypeNsec ∧ ans.nsecPRaw.isSome) ∨
      (type = knotRrtypeNsec3 ∧ ans.nsecPRaw.isNone) then .error (krError EINVAL)
  else
    let rrset : AnswerRrset :=
      ⟨⟨owner, type, knotClassIn, newTtl, eh.rrs⟩, eh.rank, isExpiring eh.ttl newTtl, eh.sigs⟩
    .ok (ans.set (some rrset) id, rrset)

theorem entry2answer_eq_ok {ans ans' : Answer} {id : ArId} {eh : EntryH} {owner : Dname}
    {type : UInt16} {newTtl : UInt32} {a : AnswerRrset}
    (h : entry2answer ans id eh owner type newTtl = .ok (ans', a)) :
    a = ⟨⟨owner, type, knotClassIn, newTtl, eh.rrs⟩, eh.rank, isExpiring eh.ttl newTtl, eh.sigs⟩ ∧
      ans' = ans.set (some a) id := by
  unfold entry2answer at h
  split at h
  · cases h
  · cases h
    exact ⟨rfl, rfl⟩

/-! ## Where the slots come from -/

/-- The roles an entry of the cache plays in an answer: the exact hit, a cached packet, a CNAME
found by `closest_NS`, the source of a wildcard expansion, the zone's SOA, and an NSEC* record of
a proof over the chain of the parameters `p`. -/
inductive Role where
  | exact
  | packet
  | cname
  | wildcard
  | soa
  | proof (p : NsecP)

/-- The rank and kind of entry each role requires. -/
def Role.Admits (cache : Cdb) (now : UInt32) (lowest : UInt8) : Role → EntryH → Prop
  | .exact, e | .wildcard, e | .soa, e => lowest ≤ e.rank ∧ e.isPacket = false
  | .packet, e => lowest ≤ e.rank ∧ e.isPacket = true
  | .cname, e => krRankInsecure ||| krRankAuth ≤ e.rank ∧ e.isPacket = false
  | .proof p, e => krRankTest e.rank krRankSecure = true ∧ entryHConsistentNsec e = true ∧
      cache.NsecPLive now p

/-- `a` holds the records of `e` with the TTL `e` has left at `now`. -/
def AnswerRrset.From (a : AnswerRrset) (e : EntryH) (now : UInt32) : Prop :=
  a.rr.ttl = UInt32.ofInt (getNewTtl e now) ∧ a.rr.rrs = e.rrs ∧ a.rank = e.rank ∧ a.sigRds = e.sigs

theorem from_of_entry2answer {ans ans' : Answer} {id : ArId} {e : EntryH} {owner : Dname}
    {type : UInt16} {now : UInt32} {a : AnswerRrset}
    (h : entry2answer ans id e owner type (UInt32.ofInt (getNewTtl e now)) = .ok (ans', a)) :
    a.From e now := by
  obtain ⟨rfl, -⟩ := entry2answer_eq_ok h
  exact ⟨rfl, rfl, rfl, rfl⟩

/-- The role of the entry in each slot of an answer proved from the chain of `p`. -/
def ArId.role (p : NsecP) : ArId → Role
  | .answer => .wildcard
  | .soa => .soa
  | .nsec | .wild | .cpe => .proof p

/-- The type of the RRset each slot of the authority section holds: the SOA in its slot, an NSEC
or NSEC3 record in the slots of a proof. The answer slot holds the type asked or a CNAME. -/
def ArId.Typed : ArId → UInt16 → Prop
  | .answer, _ => True
  | .soa, type => type = knotRrtypeSoa
  | .nsec, type | .wild, type | .cpe, type => type = knotRrtypeNsec ∨ type = knotRrtypeNsec3

/-- A slot of a proof holds an NSEC or NSEC3 record. -/
theorem ArId.typed_of_role {id : ArId} {p : NsecP} (hid : id.role p = .proof p) {type : UInt16}
    (ht : type = knotRrtypeNsec ∨ type = knotRrtypeNsec3) : id.Typed type := by
  cases id with
  | answer | soa => cases hid
  | nsec | wild | cpe => exact ht

/-- Every filled slot holds an RRset of the slot's type, materialized from an entry usable at
`now` and admitted in the slot's role. -/
def Answer.Sourced (cache : Cdb) (now : UInt32) (lowest : UInt8) (p : NsecP) (ans : Answer) :
    Prop :=
  ∀ id a, ans.get id = some a →
    ∃ e, cache.Usable now e ∧ (id.role p).Admits cache now lowest e ∧ a.From e now ∧
      id.Typed a.rr.type

namespace Answer.Sourced

variable {cache : Cdb} {now : UInt32} {lowest : UInt8} {p : NsecP} {ans : Answer}

theorem empty : (({} : Answer)).Sourced cache now lowest p := by
  intro id a h
  cases id <;> cases h

theorem rcode (h : ans.Sourced cache now lowest p) (r : Option PktClass) :
    ({ ans with rcode := r }).Sourced cache now lowest p := by
  intro id a ha
  exact h id a (by cases id <;> exact ha)

theorem nsecPRaw (h : ans.Sourced cache now lowest p) (r : Option Nsec3.Nsec3Params) :
    ({ ans with nsecPRaw := r }).Sourced cache now lowest p := by
  intro id a ha
  exact h id a (by cases id <;> exact ha)

/-- Filling a slot, with a record of its type, from an entry admitted in its role keeps the
answer sourced. -/
theorem entry2answer {id : ArId} {e : EntryH} {owner : Dname} {type : UInt16}
    {ans' : Answer} {a : AnswerRrset} (h : ans.Sourced cache now lowest p)
    (he : cache.Usable now e) (hr : (id.role p).Admits cache now lowest e) (ht : id.Typed type)
    (h2 : KnotResolver.Cache.entry2answer ans id e owner type (UInt32.ofInt (getNewTtl e now)) =
      .ok (ans', a)) :
    ans'.Sourced cache now lowest p := by
  have hfrom := from_of_entry2answer h2
  obtain ⟨rfl, rfl⟩ := entry2answer_eq_ok h2
  intro id' a' ha
  by_cases hid : id = id'
  · subst hid
    rw [get_set_self] at ha
    cases ha
    exact ⟨e, he, hr, hfrom, ht⟩
  · rw [get_set_of_ne _ _ hid] at ha
    exact h id' a' ha

end Answer.Sourced

/-- The packet the cache answers in: the question, the rcode, and the RRsets of each section with
the rank stored beside each (`rr->additional`). -/
structure PeekPkt where
  qname : Dname
  qtype : UInt16
  rcode : UInt16
  answer : List (Rrset × UInt8) := []
  authority : List (Rrset × UInt8) := []
  additional : List (Rrset × UInt8) := []
  deriving DecidableEq, Repr

end KnotResolver.Cache
