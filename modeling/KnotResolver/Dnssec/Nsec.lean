import KnotResolver.Rrset

/-!
# NSEC denial of existence (`lib/dnssec/nsec.c`)

The checks the validator runs over the NSEC RRsets of a packet section. Each loop of the C code
walks the section in order and accumulates the flags `FLG_NOEXIST_*` (here the fields of
`Nsec.Flags`); a check succeeds when the right combination of flags has been set by some NSEC of
the section, not necessarily all by the same one.

`nsec_covers` is the core test: the NSEC's owner sorts before the name, the name sorts before the
(lower-cased) next name unless the NSEC is the last of its chain (owner not before next), and the
name is not below a delegation point owned by the NSEC.
-/

namespace KnotResolver.Nsec

/-- `kr_nsec_children_in_zone_check`: `abs(ENOENT)` for a parent-side bitmap (DNAME, or NS
without SOA), whose owner's children lie in another zone. -/
def krNsecChildrenInZoneCheck (bm : List UInt16) : Int :=
  let parentSide := dnssecNsecBitmapContains bm knotRrtypeDname
    || (dnssecNsecBitmapContains bm knotRrtypeNs && !dnssecNsecBitmapContains bm knotRrtypeSoa)
  if parentSide then ENOENT else krOk

/-- `nsec_covers`: `0` when the NSEC proves that there is no closer match for `sname`. -/
def nsecCovers (nsec : Rrset) (sname : Dname) : Int :=
  if knotDnameCmp sname nsec.owner ≠ .gt then ENOENT
  else
    let next := knotDnameToLower nsec.rdata.knotNsecNext
    let isLastNsec := knotDnameCmp nsec.owner next ≠ .lt
    let inRange := isLastNsec || knotDnameCmp sname next == .lt
    if !inRange then ENOENT
    -- sname might be under a delegation from the owner, outside this NSEC's zone
    else if knotDnameInBailiwick sname nsec.owner ≤ 0 then krOk
    else krNsecChildrenInZoneCheck nsec.rdata.bitmap

/-- The flags `FLG_NOEXIST_RRTYPE`, `FLG_NOEXIST_RRSET` and `FLG_NOEXIST_WILDCARD`
(`FLG_NOEXIST_CLOSER` is never set). -/
structure Flags where
  noexistRrtype : Bool := false
  noexistRrset : Bool := false
  noexistWildcard : Bool := false
  deriving DecidableEq, Repr

/-- `kr_nsec_rrset_noexist`. -/
def krNsecRrsetNoexist (f : Flags) : Bool := f.noexistRrtype || f.noexistRrset

/-- `kr_nsec_existence_denied`. -/
def krNsecExistenceDenied (f : Flags) : Bool := krNsecRrsetNoexist f && f.noexistWildcard

/-- The wildcard loop of `name_error_response_check_rr`: replace the leftmost label by `*`,
strip one more label each round, and stop at the first wildcard the NSEC covers. -/
def parentWildcardCovered (nsec : Rrset) : Dname → Bool
  | [] => false
  | _ :: parent => nsecCovers nsec (asteriskLabel :: parent) == krOk
      || parentWildcardCovered nsec parent

/-- `name_error_response_check_rr` (RFC 4035 3.1.3.2 and 5.4, bullet 2). -/
def nameErrorResponseCheckRr (flags : Flags) (nsec : Rrset) (name : Dname) : Flags :=
  let flags := if nsecCovers nsec name = krOk then { flags with noexistRrset := true } else flags
  if parentWildcardCovered nsec name then { flags with noexistWildcard := true } else flags

/-- One round of the loop of `kr_nsec_name_error_response_check`. -/
def nameErrorStep (sname : Dname) (flags : Flags) (rr : Rrset) : Flags :=
  if rr.type = knotRrtypeNsec then nameErrorResponseCheckRr flags rr sname else flags

/-- `kr_nsec_name_error_response_check` on the RRsets of a section. -/
def krNsecNameErrorResponseCheck (sec : List Rrset) (sname : Dname) : Int :=
  if krNsecExistenceDenied (sec.foldl (nameErrorStep sname) {}) then krOk else krError ENOENT

/-- The inner loop of `coverign_rrsig_labels` over the RRSIG records at the NSEC's owner: the
first label count of an RRSIG covering NSEC, or `EINVAL` when two of them disagree. -/
def rrsigLabelsLoop : Int → List Rdata → Int
  | ret, [] => ret
  | ret, rd :: rest =>
    if rd.knotRrsigTypeCovered ≠ knotRrtypeNsec then rrsigLabelsLoop ret rest
    else if ret < 0 then rrsigLabelsLoop rd.knotRrsigLabels.toNat rest
    else if ret ≠ rd.knotRrsigLabels.toNat then krError EINVAL
    else rrsigLabelsLoop ret rest

/-- `coverign_rrsig_labels`: the label count of the RRSIGs covering the NSEC, `ENOENT` if none. -/
def coverignRrsigLabels (nsec : Rrset) (sec : List Rrset) : Int :=
  rrsigLabelsLoop (krError ENOENT)
    ((sec.filter fun rr => rr.type = knotRrtypeRrsig ∧ rr.owner = nsec.owner).flatMap (·.rrs))

/-- `kr_nsec_bitmap_nodata_check`: `0` when the bitmap proves that `type` does not exist at the
owner (nor a CNAME), with the special rules around zone cuts. -/
def krNsecBitmapNodataCheck (bm : List UInt16) (type : UInt16) (owner : Dname) : Int :=
  if dnssecNsecBitmapContains bm type then ENOENT
  else if type ≠ knotRrtypeCname ∧ dnssecNsecBitmapContains bm knotRrtypeCname then ENOENT
  -- for DS the SOA bit marks a child-side NSEC; this does not apply to the root
  else if type = knotRrtypeDs then
    if owner ≠ [] ∧ dnssecNsecBitmapContains bm knotRrtypeSoa then ENOENT else krOk
  else if type = knotRrtypeCname then krOk
  -- a parent-side delegation record is not authoritative for other types
  else if dnssecNsecBitmapContains bm knotRrtypeNs ∧ ¬dnssecNsecBitmapContains bm knotRrtypeSoa
    then ENOENT
  else krOk

/-- `no_data_response_check_rrtype`; its return value is `0` on every bitmap. -/
def noDataResponseCheckRrtype (flags : Flags) (nsec : Rrset) (type : UInt16) : Flags :=
  if krNsecBitmapNodataCheck nsec.rdata.bitmap type nsec.owner = krOk then
    { flags with noexistRrtype := true }
  else flags

/-- `no_data_wildcard_existence_check` (RFC 4035 5.4, bullet 1): the NSEC's RRSIG label count
equals its owner's, so the NSEC was not produced by wildcard expansion. -/
def noDataWildcardExistenceCheck (flags : Flags) (nsec : Rrset) (sec : List Rrset) : Flags :=
  let rrsigLabels := coverignRrsigLabels nsec sec
  if rrsigLabels < 0 then flags
  else if rrsigLabels = (knotDnameLabels nsec.owner : Int) then
    { flags with noexistWildcard := true }
  else flags

/-- The test of `wildcard_match_check` selecting the wildcard NSECs that may match `sname`. -/
def wildcardMatches (sec : List Rrset) (sname : Dname) (rr : Rrset) : Bool :=
  rr.type = knotRrtypeNsec && knotDnameIsWildcard rr.owner &&
    (rr.owner == sname ||
      let wcardLabels : Int := knotDnameLabels rr.owner
      let commonLabels : Int := knotDnameMatchedLabels rr.owner sname
      let rrsigLabels := coverignRrsigLabels rr sec
      !(wcardLabels < 1 || commonLabels ≠ wcardLabels - 1 || commonLabels ≠ rrsigLabels))

/-- `wildcard_match_check`: a matching wildcard NSEC proves that `stype` does not exist. -/
def wildcardMatchCheck (sec : List Rrset) (sname : Dname) (stype : UInt16) : Int :=
  let flags := sec.foldl (fun flags rr =>
    if wildcardMatches sec sname rr then noDataResponseCheckRrtype flags rr stype else flags) {}
  if flags.noexistRrtype then krOk else krError ENOENT

/-- `kr_nsec_no_data_response_check`. -/
def krNsecNoDataResponseCheck (sec : List Rrset) (sname : Dname) (stype : UInt16) : Int :=
  let flags := sec.foldl (fun flags rr =>
    if rr.type = knotRrtypeNsec ∧ rr.owner = sname then noDataResponseCheckRrtype flags rr stype
    else flags) {}
  if flags.noexistRrtype then krOk else krError ENOENT

/-- `kr_nsec_wildcard_answer_response_check`: some NSEC covers `sname`. -/
def krNsecWildcardAnswerResponseCheck (sec : List Rrset) (sname : Dname) : Int :=
  if sec.any fun rr => rr.type = knotRrtypeNsec ∧ nsecCovers rr sname = krOk then krOk
  else krError ENOENT

/-- One round of the loop of `kr_nsec_existence_denial`. -/
def existenceDenialStep (sec : List Rrset) (sname : Dname) (stype : UInt16) (flags : Flags)
    (rr : Rrset) : Flags :=
  if rr.type ≠ knotRrtypeNsec then flags
  else
    -- RFC 4035 4.9: an NSEC at sname proves NODATA, another one proves the name does not exist
    let flags := if rr.owner = sname then noDataResponseCheckRrtype flags rr stype
      else nameErrorResponseCheckRr flags rr sname
    noDataWildcardExistenceCheck flags rr sec

/-- `kr_nsec_existence_denial`. -/
def krNsecExistenceDenial (sec : List Rrset) (sname : Dname) (stype : UInt16) : Int :=
  if krNsecExistenceDenied (sec.foldl (existenceDenialStep sec sname stype) {}) then krOk
  else if krNsecRrsetNoexist (sec.foldl (existenceDenialStep sec sname stype) {}) then
    wildcardMatchCheck sec sname stype
  else krError ENOENT

end KnotResolver.Nsec
