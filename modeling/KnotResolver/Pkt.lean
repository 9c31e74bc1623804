import KnotResolver.Rrset

/-! The parts of a DNS message (`knot_pkt_t`) the resolver reads and writes: header bits, rcode,
question, the EDNS OPT record with its DO bit, the section being written and the RRsets of the
three record sections.

libknot is not part of the repository. The results of its calls enter the model as `Libknot`:
whether a write fits (`knot_pkt_put` answers `KNOT_EOK`, `KNOT_ESPACE` or another error) is a
parameter, and a successful write appends the RRset, its records rotated, to the current
section. -/

namespace KnotResolver

/-- `knot_section_t`, in the order the sections are written. -/
inductive KnotSection where
  | answer
  | authority
  | additional
  deriving DecidableEq, Repr

/-- The numeric value of a section, `KNOT_ANSWER` being `0`. -/
def KnotSection.toNat : KnotSection → Nat
  | .answer => 0
  | .authority => 1
  | .additional => 2

def knotRcodeNoerror : UInt16 := 0
def knotRcodeServfail : UInt16 := 2
def knotRcodeNxdomain : UInt16 := 3
def knotRcodeNotimpl : UInt16 := 4
def knotRcodeRefused : UInt16 := 5

structure KnotPkt where
  ad : Bool
  aa : Bool
  cd : Bool
  rcode : UInt16
  qname : Dname
  qtype : UInt16
  optRr : Option Rrset
  current : KnotSection
  answer : List Rrset
  authority : List Rrset
  additional : List Rrset
  deriving DecidableEq, Repr

/-- The RRset with its records rotated by `n`, as `knot_pkt_put_rotate` writes them. -/
def Rrset.rotateRecords (rr : Rrset) (n : Nat) : Rrset := { rr with rrs := rr.rrs.rotate n }

namespace KnotPkt

/-- `knot_edns_do`: the DO bit, the top bit of the EDNS flags kept in the OPT RR's TTL. -/
def knotEdnsDo (opt : Rrset) : Bool := opt.ttl &&& 0x8000 != 0

/-- `knot_pkt_has_dnssec`: an OPT RR with the DO bit. -/
def knotPktHasDnssec (p : KnotPkt) : Bool :=
  match p.optRr with
  | some opt => knotEdnsDo opt
  | none => false

/-- The records of all sections. -/
def records (p : KnotPkt) : List Rrset := p.answer ++ p.authority ++ p.additional

/-- `knot_pkt_begin`. -/
def knotPktBegin (p : KnotPkt) (s : KnotSection) : KnotPkt := { p with current := s }

@[simp] theorem knotPktBegin_ad (p : KnotPkt) (s : KnotSection) : (p.knotPktBegin s).ad = p.ad :=
  rfl

/-- Append an RRset to the current section. -/
def push (p : KnotPkt) (rr : Rrset) : KnotPkt :=
  match p.current with
  | .answer => { p with answer := p.answer ++ [rr] }
  | .authority => { p with authority := p.authority ++ [rr] }
  | .additional => { p with additional := p.additional ++ [rr] }

@[simp] theorem push_ad (p : KnotPkt) (rr : Rrset) : (p.push rr).ad = p.ad := by
  unfold push; split <;> rfl

@[simp] theorem push_rcode (p : KnotPkt) (rr : Rrset) : (p.push rr).rcode = p.rcode := by
  unfold push; split <;> rfl

@[simp] theorem push_qtype (p : KnotPkt) (rr : Rrset) : (p.push rr).qtype = p.qtype := by
  unfold push; split <;> rfl

@[simp] theorem push_optRr (p : KnotPkt) (rr : Rrset) : (p.push rr).optRr = p.optRr := by
  unfold push; split <;> rfl

@[simp] theorem push_current (p : KnotPkt) (rr : Rrset) : (p.push rr).current = p.current := by
  unfold push; split <;> rfl

end KnotPkt

/-- The classes of `kr_response_classify` (`PKT_NOERROR`, ...). -/
inductive PktClass where
  | noerror
  | nodata
  | nxdomain
  | refused
  | error
  deriving DecidableEq, Repr

/-- `kr_response_classify` (`lib/layer/iterate.c`). -/
def krResponseClassify (p : KnotPkt) : PktClass :=
  if p.rcode = knotRcodeNoerror then if p.answer = [] then .nodata else .noerror
  else if p.rcode = knotRcodeNxdomain then .nxdomain
  else if p.rcode = knotRcodeRefused then .refused
  else .error

/-- `KNOT_EOK`. -/
def knotEok : Int := 0

/-- The libknot functions the modelled code calls, given by their results. -/
structure Libknot where
  /-- The result of `knot_pkt_put` of an RRset into a packet. -/
  knotPktPut : KnotPkt → Rrset → Int
  /-- `KNOT_ESPACE`, the error of a write into a full packet. -/
  knotEspace : Int
  /-- `knot_rrtype_is_dnssec`. -/
  knotRrtypeIsDnssec : UInt16 → Bool
  /-- The result of `knot_pkt_parse_question` on a packet cleared to its question. -/
  knotPktParseQuestion : KnotPkt → Int
  /-- The result of adding the EDNS padding option to the OPT RR (`KNOT_EOK` when none is
  needed). -/
  knotEdnsAddOption : KnotPkt → Int

namespace Libknot

variable (k : Libknot)

/-- `knot_pkt_put_rotate`: the records of the set are written starting at `reorder`. -/
def knotPktPutRotate (p : KnotPkt) (rr : Rrset) (reorder : UInt16) : Int × KnotPkt :=
  if k.knotPktPut p rr = knotEok then (knotEok, p.push (rr.rotateRecords reorder.toNat))
  else (k.knotPktPut p rr, p)

@[simp] theorem knotPktPutRotate_fst (p : KnotPkt) (rr : Rrset) (reorder : UInt16) :
    (k.knotPktPutRotate p rr reorder).1 = k.knotPktPut p rr := by
  unfold knotPktPutRotate; split <;> simp [*]

theorem knotPktPutRotate_snd_of_ok {p : KnotPkt} {rr : Rrset} (h : k.knotPktPut p rr = knotEok)
    (reorder : UInt16) :
    (k.knotPktPutRotate p rr reorder).2 = p.push (rr.rotateRecords reorder.toNat) := by
  simp [knotPktPutRotate, h]

theorem knotPktPutRotate_snd_of_error {p : KnotPkt} {rr : Rrset}
    (h : k.knotPktPut p rr ≠ knotEok) (reorder : UInt16) : (k.knotPktPutRotate p rr reorder).2 = p := by
  simp [knotPktPutRotate, h]

@[simp] theorem knotPktPutRotate_ad (p : KnotPkt) (rr : Rrset) (reorder : UInt16) :
    (k.knotPktPutRotate p rr reorder).2.ad = p.ad := by
  unfold knotPktPutRotate; split <;> simp

@[simp] theorem knotPktPutRotate_qtype (p : KnotPkt) (rr : Rrset) (reorder : UInt16) :
    (k.knotPktPutRotate p rr reorder).2.qtype = p.qtype := by
  unfold knotPktPutRotate; split <;> simp

/-- `knot_pkt_put`, which writes the records in their order. -/
def knotPktPutRr (p : KnotPkt) (rr : Rrset) : Int × KnotPkt := k.knotPktPutRotate p rr 0

end Libknot

end KnotResolver
