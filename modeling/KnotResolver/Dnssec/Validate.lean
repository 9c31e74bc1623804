import KnotResolver.Fold
import KnotResolver.Pkt
import KnotResolver.Ranked
import KnotResolver.Dnssec.Nsec
import KnotResolver.Dnssec.Nsec3

/-!
# Signature validation of a ranked RRset array

`validate_section` of `lib/layer/validate.c` and the functions of `lib/dnssec.c` below it:
`kr_rrset_validate` tries every DNSKEY record, `kr_rrset_validate_with_key` every RRSIG record of
the array that matches the RRset, and `validate_rrsig_rr` checks the bullets of RFC 4035 5.3.1.
The cryptography (key construction, key tags, `kr_check_signature`, and the NSEC3 hash under
`kr_nsec3_wildcard_answer_response_check`) is a parameter, `DnssecCrypto`.

An entry the loop of `validate_section` ranks `KR_RANK_SECURE` carries an RRSIG record of the
array that is acceptable in the sense of `RrsigAccepted` (`validateSection_secure`).
-/

namespace KnotResolver

namespace Rdata

/-- `knot_rrsig_sig_expiration`. -/
def knotRrsigSigExpiration : Rdata → UInt32
  | .rrsig _ _ _ _ expiration _ _ _ => expiration
  | _ => 0

/-- `knot_rrsig_sig_inception`. -/
def knotRrsigSigInception : Rdata → UInt32
  | .rrsig _ _ _ _ _ inception _ _ => inception
  | _ => 0

/-- `knot_rrsig_alg`. -/
def knotRrsigAlg : Rdata → UInt8
  | .rrsig _ alg .. => alg
  | _ => 0

/-- `knot_rrsig_key_tag`. -/
def knotRrsigKeyTag : Rdata → UInt16
  | .rrsig _ _ _ _ _ _ keyTag _ => keyTag
  | _ => 0

/-- `knot_dnskey_alg`. -/
def knotDnskeyAlg : Rdata → UInt8
  | .dnskey _ _ alg _ => alg
  | _ => 0

end Rdata

namespace Validate

def krDnssecVflgWexpand : UInt32 := 0x01
def krDnssecVflgOptout : UInt32 := 0x02

/-- The primitives validation rests on, over a type of parsed keys. -/
structure DnssecCrypto (Key : Type) where
  /-- `kr_dnssec_key_from_rdata`: its return code and the key it creates from the owner and the
  DNSKEY record. -/
  krDnssecKeyFromRdata : Dname → Rdata → Int × Key
  /-- `dnssec_key_get_keytag`. -/
  dnssecKeyGetKeytag : Key → UInt16
  /-- `kr_check_signature`: 0 when the RRSIG record is a signature of the RRset by the key, with
  the given number of labels trimmed off the owner. -/
  krCheckSignature : Rdata → Key → Rrset → Int → Int
  /-- The NSEC3 hash and base32hex decoding `kr_nsec3_wildcard_answer_response_check` uses. -/
  nsec3 : Nsec3.Nsec3Crypto

/-- `kr_rrset_validation_ctx_t`, without the counters that only feed the log. -/
structure ValidationCtx where
  pkt : KnotPkt
  rrs : List RankedEntry
  keys : Rrset
  zoneName : Dname
  timestamp : UInt32
  hasNsec3 : Bool
  qryUid : UInt32
  flags : UInt32
  errCnt : UInt32
  result : Int

/-- The label count of an RRset owner that its RRSIG must not exceed: the asterisk of a
wildcard owner does not count (RFC 4034 3.1.3). -/
def coveredLabels (owner : Dname) : Nat :=
  knotDnameLabels owner - if knotDnameIsWildcard owner then 1 else 0

/-- `validate_rrsig_rr`: the return code and whether the signature may come from a wildcard
expansion (`FLG_WILDCARD_EXPANSION`). -/
def validateRrsigRr (covLabels : Nat) (rrsig : Rdata) (keyOwner : Dname) (keyRdata : Rdata)
    (keytag : UInt16) (zoneName : Dname) (timestamp : UInt32) : Int × Bool :=
  if rrsig.knotRrsigSigExpiration < timestamp then (krError EINVAL, false)
  else if rrsig.knotRrsigSigInception > timestamp then (krError EINVAL, false)
  -- bullet 2: a foreign signer is reported apart, it aborts the key
  else if rrsig.knotRrsigSignerName ≠ zoneName then (krError EAGAIN, false)
  else if rrsig.knotRrsigLabels.toNat > covLabels then (krError EINVAL, false)
  else
    let wildcard := decide (rrsig.knotRrsigLabels.toNat < covLabels)
    if keyOwner ≠ rrsig.knotRrsigSignerName ∨ keyRdata.knotDnskeyAlg ≠ rrsig.knotRrsigAlg ∨
        keytag ≠ rrsig.knotRrsigKeyTag then (krError EINVAL, wildcard)
    else (krOk, wildcard)

/-- `wildcard_radix_len_diff`: the number of labels the wildcard expansion added. -/
def wildcardRadixLenDiff (expanded : Dname) (rrsig : Rdata) : Int :=
  (knotDnameLabels expanded : Int) - rrsig.knotRrsigLabels.toNat

/-- `kr_rank_set` on the entry at index `i` of the array. -/
def ValidationCtx.setRank (vctx : ValidationCtx) (i : Nat) (flag : UInt8) : ValidationCtx :=
  { vctx with rrs := vctx.rrs.modify i fun e => { e with rank := krRankSet e.rank flag } }

theorem validateRrsigRr_ok {covLabels : Nat} {rrsig : Rdata} {keyOwner : Dname}
    {keyRdata : Rdata} {keytag : UInt16} {zoneName : Dname} {timestamp : UInt32}
    (h : (validateRrsigRr covLabels rrsig keyOwner keyRdata keytag zoneName timestamp).1 = krOk) :
    timestamp ≤ rrsig.knotRrsigSigExpiration ∧ rrsig.knotRrsigSigInception ≤ timestamp ∧
      rrsig.knotRrsigSignerName = zoneName ∧ rrsig.knotRrsigLabels.toNat ≤ covLabels ∧
      keyOwner = rrsig.knotRrsigSignerName ∧ keyRdata.knotDnskeyAlg = rrsig.knotRrsigAlg ∧
      keytag = rrsig.knotRrsigKeyTag ∧
      (validateRrsigRr covLabels rrsig keyOwner keyRdata keytag zoneName timestamp).2 =
        decide (rrsig.knotRrsigLabels.toNat < covLabels) := by
  unfold validateRrsigRr at h ⊢
  split_ifs at h ⊢ with hexp hinc hsigner hlabels hkey
  -- every branch but the last returns an error
  iterate 5 exact absurd h (krError_ne_krOk (by decide))
  simp only [not_or, not_not, gt_iff_lt, UInt32.not_lt, Nat.not_lt] at hexp hinc hsigner hlabels hkey
  exact ⟨hexp, hinc, hsigner, hlabels, hkey.1, hkey.2.1, hkey.2.2, rfl⟩

/-! ## What validation changes -/

/-- Every bit of `bits` is set in `flags`. -/
def FlagsSet (bits flags : UInt32) : Prop := bits ||| flags = flags

theorem FlagsSet.refl (a : UInt32) : FlagsSet a a := UInt32.or_self

theorem FlagsSet.trans {a b d : UInt32} (hab : FlagsSet a b) (hbd : FlagsSet b d) :
    FlagsSet a d := by
  unfold FlagsSet at *
  rw [← hbd, ← UInt32.or_assoc, hab]

theorem FlagsSet.or_right {a b : UInt32} (h : FlagsSet a b) (m : UInt32) : FlagsSet a (b ||| m) := by
  unfold FlagsSet at *
  rw [← UInt32.or_assoc, h]

theorem FlagsSet.of_or (a m : UInt32) : FlagsSet m (a ||| m) := by
  unfold FlagsSet
  rw [UInt32.or_comm a m, ← UInt32.or_assoc, UInt32.or_self]

/-- What the validation functions read of their context and never change. -/
structure ValidationInput where
  pkt : KnotPkt
  rrsets : List Rrset
  keys : Rrset
  timestamp : UInt32
  hasNsec3 : Bool

def ValidationCtx.input (v : ValidationCtx) : ValidationInput :=
  ⟨v.pkt, v.rrs.map RankedEntry.rr, v.keys, v.timestamp, v.hasNsec3⟩

/-- A context `w` that a validation function may leave from `v`: same input and zone, and
flags only added. -/
structure ValidationCtx.Frame (v w : ValidationCtx) : Prop where
  input : w.input = v.input
  zoneName : w.zoneName = v.zoneName
  flags : FlagsSet v.flags w.flags

theorem ValidationCtx.Frame.refl (v : ValidationCtx) : v.Frame v :=
  ⟨rfl, rfl, FlagsSet.refl _⟩

theorem ValidationCtx.Frame.trans {u v w : ValidationCtx} (h₁ : u.Frame v) (h₂ : v.Frame w) :
    u.Frame w :=
  ⟨h₂.input.trans h₁.input, h₂.zoneName.trans h₁.zoneName, h₁.flags.trans h₂.flags⟩

/-- A context that differs from `v` in its result and in flags added to those of `v`: all a
call of `kr_rrset_validate` changes. -/
def ValidationCtx.Updates (v w : ValidationCtx) : Prop :=
  w = { v with flags := w.flags, result := w.result } ∧ FlagsSet v.flags w.flags

theorem ValidationCtx.Updates.refl (v : ValidationCtx) : v.Updates v :=
  ⟨rfl, FlagsSet.refl _⟩

theorem ValidationCtx.Updates.trans {u v w : ValidationCtx} (h₁ : u.Updates v)
    (h₂ : v.Updates w) : u.Updates w := by
  obtain ⟨hv, hfv⟩ := h₁
  obtain ⟨hw, hfw⟩ := h₂
  refine ⟨?_, hfv.trans hfw⟩
  rw [hw, hv]

theorem ValidationCtx.Updates.result (v : ValidationCtx) (r : Int) :
    v.Updates { v with result := r } :=
  ⟨rfl, FlagsSet.refl _⟩

theorem ValidationCtx.Updates.frame {v w : ValidationCtx} (h : v.Updates w) : v.Frame w := by
  obtain ⟨hw, hf⟩ := h
  rw [hw]
  exact ⟨rfl, rfl, hf⟩

theorem ValidationCtx.Updates.rrs {v w : ValidationCtx} (h : v.Updates w) : w.rrs = v.rrs := by
  rw [h.1]

theorem ValidationCtx.setRank_frame (v : ValidationCtx) (i : Nat) (flag : UInt8) :
    v.Frame (v.setRank i flag) := by
  refine ⟨?_, rfl, FlagsSet.refl _⟩
  simp only [ValidationCtx.input, ValidationCtx.setRank]
  congr 1
  apply List.map_modify_of_comp
  intro e
  rfl

theorem ValidationCtx.getElem?_setRank (v : ValidationCtx) (i j : Nat) (flag : UInt8) :
    (v.setRank i flag).rrs[j]? =
      if i = j then (fun e => { e with rank := krRankSet e.rank flag }) <$> v.rrs[j]?
      else v.rrs[j]? := by
  simp only [ValidationCtx.setRank, List.getElem?_modify]
  split <;> simp

section Crypto

variable {Key : Type} (c : DnssecCrypto Key)

/-- The proof, from the authority section, that the name a wildcard was expanded to does not
exist: its return code and the context flags after it. -/
def wildcardAnswerCheck (vctx : ValidationCtx) (owner : Dname) (trimLabels : Int) :
    Int × UInt32 :=
  if !vctx.hasNsec3 then
    (Nsec.krNsecWildcardAnswerResponseCheck vctx.pkt.authority owner, vctx.flags)
  else
    -- an opt-out NSEC3 span is accepted, and recorded in the flags
    let ret :=
      Nsec3.krNsec3WildcardAnswerResponseCheck c.nsec3 vctx.pkt.authority owner (trimLabels - 1)
    if ret = krError knotErange then (0, vctx.flags ||| krDnssecVflgOptout) else (ret, vctx.flags)

/-- The end of a round of the inner loop of `kr_rrset_validate_with_key`, for a record that
passed `validate_rrsig_rr`: the signature, and for a wildcard expansion the proof that the name
it was expanded to does not exist. -/
def signatureStep (vctx : ValidationCtx) (covered : Rrset) (key : Key) (rd : Rdata)
    (wildcard : Bool) : LoopStep ValidationCtx :=
  if wildcard ∧ wildcardRadixLenDiff covered.owner rd < 0 then .brk
  else
    let trimLabels := if wildcard then wildcardRadixLenDiff covered.owner rd else 0
    if c.krCheckSignature rd key covered trimLabels ≠ 0 then .next
    else if wildcard then
      let proof := wildcardAnswerCheck c vctx covered.owner trimLabels
      if proof.1 ≠ 0 then .next
      else .ret { vctx with flags := proof.2 ||| krDnssecVflgWexpand, result := krOk }
    else .ret { vctx with result := krOk }

/-- One RRSIG record in the inner loop of `kr_rrset_validate_with_key`. -/
def rrsigStep (vctx : ValidationCtx) (covered : Rrset) (keyRdata : Rdata) (key : Key)
    (keytag : UInt16) (rd : Rdata) : LoopStep ValidationCtx :=
  if rd.knotRrsigTypeCovered ≠ covered.type then .next
  else
    let retv := validateRrsigRr (coveredLabels covered.owner) rd vctx.keys.owner keyRdata keytag
      vctx.zoneName vctx.timestamp
    if retv.1 = krError EAGAIN then .ret { vctx with result := retv.1 }
    else if retv.1 ≠ 0 then .next
    else signatureStep c vctx covered key rd retv.2

/-- One entry in the outer loop of `kr_rrset_validate_with_key`: an RRSIG set with the owner and
the class of the RRset. -/
def rrsigSetStep (vctx : ValidationCtx) (covered : Rrset) (keyRdata : Rdata) (key : Key)
    (keytag : UInt16) (entry : RankedEntry) : LoopStep ValidationCtx :=
  if entry.rr.type ≠ knotRrtypeRrsig then .next
  else if covered.rclass ≠ entry.rr.rclass ∨ covered.owner ≠ entry.rr.owner then .next
  else
    match entry.rr.rrs.searchLoop (rrsigStep c vctx covered keyRdata key keytag) with
    | some v => .ret v
    | none => .next

/-- `kr_rrset_validate_with_key` with the key at `keyPos` of the DNSKEY set; it returns the
context, whose `result` is also its return value. -/
def krRrsetValidateWithKey (vctx : ValidationCtx) (covered : Rrset) (keyPos : Nat) :
    ValidationCtx :=
  -- zones must not sign records out of their bailiwick
  if knotDnameInBailiwick covered.owner vctx.zoneName < 0 then
    { vctx with result := krError ENOENT }
  else
    let keyRdata := vctx.keys.rrs.getD keyPos default
    let created := c.krDnssecKeyFromRdata vctx.keys.owner keyRdata
    if created.1 ≠ 0 then { vctx with result := created.1 }
    else
      match vctx.rrs.searchLoop
          (rrsigSetStep c vctx covered keyRdata created.2 (c.dnssecKeyGetKeytag created.2)) with
      | some v => v
      | none => { vctx with result := krError ENOENT }

/-- The loop of `kr_rrset_validate` over the positions of the keys. -/
def validateKeysLoop (covered : Rrset) : List Nat → ValidationCtx → Int × ValidationCtx
  | [], vctx => (krError ENOENT, vctx)
  | keyPos :: rest, vctx =>
    let vctx := krRrsetValidateWithKey c vctx covered keyPos
    if vctx.result = 0 then (vctx.result, vctx) else validateKeysLoop covered rest vctx

/-- `kr_rrset_validate`. -/
def krRrsetValidate (vctx : ValidationCtx) (covered : Rrset) : Int × ValidationCtx :=
  validateKeysLoop c covered (List.range vctx.keys.rrs.length) vctx

/-- One round of the loop of `validate_section`, on an entry and its index: the context after it
and whether the loop goes on. -/
def validateEntry (vctx : ValidationCtx) (ei : RankedEntry × Nat) : ValidationCtx × Bool :=
  let entry := ei.1
  if entry.yielded ∨ vctx.qryUid ≠ entry.qryUid then (vctx, true)
  else if krRankTest entry.rank krRankOmit ∨ krRankTest entry.rank krRankSecure then (vctx, true)
  else if entry.rr.type = knotRrtypeRrsig then
    if vctx.zoneName ≠ entry.rr.rdata.knotRrsigSignerName then
      ({ vctx.setRank ei.2 krRankMismatch with errCnt := vctx.errCnt + 1 }, false)
    else (vctx.setRank ei.2 krRankOmit, true)
  else
    let validated := krRrsetValidate c vctx entry.rr
    let vctx := validated.2
    if validated.1 = krOk then (vctx.setRank ei.2 krRankSecure, true)
    -- non-authoritative data keeps its rank
    else if krRankTest entry.rank krRankTry then
      ({ vctx.setRank ei.2 krRankTry with result := krOk }, true)
    else if validated.1 = krError ENOENT then
      ({ vctx.setRank ei.2 krRankMissing with errCnt := vctx.errCnt + 1 }, true)
    else ({ vctx.setRank ei.2 krRankBogus with errCnt := vctx.errCnt + 1 }, true)

/-- `validate_section`: the zone is the owner of the keys. -/
def validateSection (vctx : ValidationCtx) : Int × ValidationCtx :=
  let vctx := { vctx with zoneName := vctx.keys.owner }
  (krOk, vctx.rrs.zipIdx.foldlBreak (validateEntry c) vctx)

/-! ## Acceptable signatures -/

/-- The labels trimmed off the owner to check a signature made over a wildcard: those the
expansion added. -/
def trimmedLabels (owner : Dname) (s : Rdata) : Int :=
  if s.knotRrsigLabels.toNat < coveredLabels owner then
    (knotDnameLabels owner : Int) - s.knotRrsigLabels.toNat
  else 0

/-- The authority section proves that the name a wildcard was expanded to does not exist: an
NSEC covers it, or the NSEC3 check passed or found an opt-out span, which `flags` records. -/
def WildcardAnswerProved (inp : ValidationInput) (flags : UInt32) (owner : Dname)
    (trimLabels : Int) : Prop :=
  if inp.hasNsec3 then
    Nsec3.krNsec3WildcardAnswerResponseCheck c.nsec3 inp.pkt.authority owner (trimLabels - 1) =
        krOk ∨
      Nsec3.krNsec3WildcardAnswerResponseCheck c.nsec3 inp.pkt.authority owner (trimLabels - 1) =
          knotErange ∧ FlagsSet krDnssecVflgOptout flags
  else Nsec.krNsecWildcardAnswerResponseCheck inp.pkt.authority owner = krOk

/-- RFC 4035 5.3.1 and 5.3.3: the RRSIG record `s` is an acceptable signature of `r` by the
DNSKEY record `k` of the keys, at the validation time. -/
structure RrsigAccepted (inp : ValidationInput) (flags : UInt32) (r : Rrset) (s k : Rdata) :
    Prop where
  typeCovered : s.knotRrsigTypeCovered = r.type
  signer : s.knotRrsigSignerName = inp.keys.owner
  inception : s.knotRrsigSigInception ≤ inp.timestamp
  expiration : inp.timestamp ≤ s.knotRrsigSigExpiration
  labels : s.knotRrsigLabels.toNat ≤ coveredLabels r.owner
  alg : s.knotRrsigAlg = k.knotDnskeyAlg
  keyCreated : (c.krDnssecKeyFromRdata inp.keys.owner k).1 = 0
  keyTag : s.knotRrsigKeyTag = c.dnssecKeyGetKeytag (c.krDnssecKeyFromRdata inp.keys.owner k).2
  signature :
    c.krCheckSignature s (c.krDnssecKeyFromRdata inp.keys.owner k).2 r (trimmedLabels r.owner s) = 0
  wildcard : s.knotRrsigLabels.toNat < coveredLabels r.owner →
    WildcardAnswerProved c inp flags r.owner (trimmedLabels r.owner s)

/-- `r` lies in the zone of the keys and an RRSIG set of the array with its owner and class holds
an acceptable signature of it. -/
def Signed (inp : ValidationInput) (flags : UInt32) (r : Rrset) : Prop :=
  inp.keys.owner <:+ r.owner ∧
    ∃ sig ∈ inp.rrsets, sig.type = knotRrtypeRrsig ∧ sig.owner = r.owner ∧ sig.rclass = r.rclass ∧
      ∃ s ∈ sig.rrs, ∃ k ∈ inp.keys.rrs, RrsigAccepted c inp flags r s k

variable {c}

theorem WildcardAnswerProved.mono {inp : ValidationInput} {f f' : UInt32} {owner : Dname}
    {t : Int} (hf : FlagsSet f f') (h : WildcardAnswerProved c inp f owner t) :
    WildcardAnswerProved c inp f' owner t := by
  unfold WildcardAnswerProved at *
  split at h
  · next hn =>
    rw [if_pos hn]
    exact h.imp_right fun ⟨herange, hopt⟩ => ⟨herange, hopt.trans hf⟩
  · next hn =>
    rwa [if_neg hn]

theorem Signed.mono {inp : ValidationInput} {f f' : UInt32} {r : Rrset} (hf : FlagsSet f f')
    (h : Signed c inp f r) : Signed c inp f' r := by
  obtain ⟨hzone, sig, hsig, htype, howner, hclass, s, hs, k, hk, hacc⟩ := h
  exact ⟨hzone, sig, hsig, htype, howner, hclass, s, hs, k, hk,
    { hacc with wildcard := fun hl => (hacc.wildcard hl).mono hf }⟩

/-! ## One RRSIG record -/

theorem wildcardAnswerCheck_flags (vctx : ValidationCtx) (owner : Dname) (t : Int) :
    FlagsSet vctx.flags (wildcardAnswerCheck c vctx owner t).2 := by
  unfold wildcardAnswerCheck
  split
  · exact FlagsSet.refl _
  · dsimp only
    split
    · exact (FlagsSet.refl _).or_right _
    · exact FlagsSet.refl _

theorem wildcardAnswerCheck_ok {vctx : ValidationCtx} {owner : Dname} {t : Int}
    (h : (wildcardAnswerCheck c vctx owner t).1 = 0) :
    WildcardAnswerProved c vctx.input (wildcardAnswerCheck c vctx owner t).2 owner t := by
  unfold wildcardAnswerCheck at h ⊢
  unfold WildcardAnswerProved
  simp only [ValidationCtx.input]
  cases hn : vctx.hasNsec3 with
  | false =>
    simp only [hn, Bool.not_false, Bool.false_eq_true, ite_true, ite_false] at h ⊢
    exact h
  | true =>
    simp only [hn, Bool.not_true, Bool.false_eq_true, ite_true, ite_false] at h ⊢
    by_cases herange :
        Nsec3.krNsec3WildcardAnswerResponseCheck c.nsec3 vctx.pkt.authority owner (t - 1) =
          krError knotErange
    · -- an opt-out span: the check passes and the flag is recorded
      rw [if_pos herange]
      refine .inr ⟨?_, FlagsSet.of_or _ _⟩
      rw [herange]
      decide
    · rw [if_neg herange] at h ⊢
      exact .inl h

theorem trimmedLabels_eq (owner : Dname) (s : Rdata) :
    trimmedLabels owner s =
      if decide (s.knotRrsigLabels.toNat < coveredLabels owner) then wildcardRadixLenDiff owner s
      else 0 := by
  simp only [trimmedLabels, wildcardRadixLenDiff, decide_eq_true_eq]

/-- A record that passed `validate_rrsig_rr` against the keys' owner and whose signature
checks out is acceptable. -/
theorem rrsigAccepted_of_checks {inp : ValidationInput} {flags : UInt32} {r : Rrset}
    {s k : Rdata}
    (hok : (validateRrsigRr (coveredLabels r.owner) s inp.keys.owner k
      (c.dnssecKeyGetKeytag (c.krDnssecKeyFromRdata inp.keys.owner k).2) inp.keys.owner
      inp.timestamp).1 = krOk)
    (htype : s.knotRrsigTypeCovered = r.type)
    (hcreated : (c.krDnssecKeyFromRdata inp.keys.owner k).1 = 0)
    (hsig : c.krCheckSignature s (c.krDnssecKeyFromRdata inp.keys.owner k).2 r
      (trimmedLabels r.owner s) = 0)
    (hwild : s.knotRrsigLabels.toNat < coveredLabels r.owner →
      WildcardAnswerProved c inp flags r.owner (trimmedLabels r.owner s)) :
    RrsigAccepted c inp flags r s k := by
  obtain ⟨hexp, hinc, hsigner, hlabels, -, halg, htag, -⟩ := validateRrsigRr_ok hok
  exact ⟨htype, hsigner, hinc, hexp, hlabels, halg.symm, hcreated, htag.symm, hsig, hwild⟩

theorem signatureStep_plain {vctx w : ValidationCtx} {covered : Rrset} {key : Key} {rd : Rdata}
    (h : signatureStep c vctx covered key rd false = .ret w) :
    c.krCheckSignature rd key covered 0 = 0 ∧ w = { vctx with result := krOk } := by
  simp only [signatureStep, Bool.false_eq_true, false_and, if_false] at h
  split at h
  · cases h
  · next hsig =>
    cases h
    exact ⟨not_not.mp hsig, rfl⟩

theorem signatureStep_wildcard {vctx w : ValidationCtx} {covered : Rrset} {key : Key}
    {rd : Rdata} (h : signatureStep c vctx covered key rd true = .ret w) :
    c.krCheckSignature rd key covered (wildcardRadixLenDiff covered.owner rd) = 0 ∧
      (wildcardAnswerCheck c vctx covered.owner (wildcardRadixLenDiff covered.owner rd)).1 = 0 ∧
      w = { vctx with
        flags := (wildcardAnswerCheck c vctx covered.owner
          (wildcardRadixLenDiff covered.owner rd)).2 ||| krDnssecVflgWexpand,
        result := krOk } := by
  simp only [signatureStep, true_and, if_true] at h
  split at h
  · cases h
  · split at h
    · cases h
    · next hsig =>
      split at h
      · cases h
      · next hproof =>
        cases h
        exact ⟨not_not.mp hsig, not_not.mp hproof, rfl⟩

/-- A round of the inner loop returns on a foreign signer, or after `validate_rrsig_rr` accepted
the record. -/
theorem rrsigStep_eq_ret {vctx w : ValidationCtx} {covered : Rrset} {keyRdata : Rdata}
    {key : Key} {keytag : UInt16} {rd : Rdata}
    (h : rrsigStep c vctx covered keyRdata key keytag rd = .ret w) :
    w = { vctx with result := krError EAGAIN } ∨
      rd.knotRrsigTypeCovered = covered.type ∧
      (validateRrsigRr (coveredLabels covered.owner) rd vctx.keys.owner keyRdata keytag
        vctx.zoneName vctx.timestamp).1 = krOk ∧
      signatureStep c vctx covered key rd (validateRrsigRr (coveredLabels covered.owner) rd
        vctx.keys.owner keyRdata keytag vctx.zoneName vctx.timestamp).2 = .ret w := by
  unfold rrsigStep at h
  split at h
  · cases h
  · next htype =>
    dsimp only at h
    split at h
    · next heagain =>
      cases h
      exact .inl (by rw [heagain])
    · split at h
      · cases h
      · next hok =>
        exact .inr ⟨not_not.mp htype, not_not.mp hok, h⟩

theorem rrsigStep_updates {vctx w : ValidationCtx} {covered : Rrset} {keyRdata : Rdata}
    {key : Key} {keytag : UInt16} {rd : Rdata}
    (h : rrsigStep c vctx covered keyRdata key keytag rd = .ret w) : vctx.Updates w := by
  rcases rrsigStep_eq_ret h with rfl | ⟨-, -, hsig⟩
  · exact ValidationCtx.Updates.result _ _
  · cases hw : (validateRrsigRr _ _ _ _ _ _ _).2 <;> rw [hw] at hsig
    · obtain ⟨-, rfl⟩ := signatureStep_plain hsig
      exact ValidationCtx.Updates.result _ _
    · obtain ⟨-, -, rfl⟩ := signatureStep_wildcard hsig
      exact ⟨rfl, (wildcardAnswerCheck_flags vctx _ _).or_right _⟩

theorem rrsigStep_accepted {vctx w : ValidationCtx} {covered : Rrset} {k rd : Rdata}
    (hzone : vctx.zoneName = vctx.keys.owner)
    (hcreated : (c.krDnssecKeyFromRdata vctx.keys.owner k).1 = 0)
    (h : rrsigStep c vctx covered k (c.krDnssecKeyFromRdata vctx.keys.owner k).2
      (c.dnssecKeyGetKeytag (c.krDnssecKeyFromRdata vctx.keys.owner k).2) rd = .ret w)
    (hw : w.result = 0) : RrsigAccepted c vctx.input w.flags covered rd k := by
  rcases rrsigStep_eq_ret h with rfl | ⟨htype, hok, hsig⟩
  · exact absurd hw (krError_ne_krOk (by decide))
  rw [hzone] at hok hsig
  have hwild := (validateRrsigRr_ok hok).2.2.2.2.2.2.2
  rw [hwild] at hsig
  by_cases hlt : rd.knotRrsigLabels.toNat < coveredLabels covered.owner
  · -- a wildcard expansion, proved by the authority section
    rw [decide_eq_true hlt] at hsig
    obtain ⟨hcheck, hproof, rfl⟩ := signatureStep_wildcard hsig
    have htrim : trimmedLabels covered.owner rd = wildcardRadixLenDiff covered.owner rd := by
      rw [trimmedLabels_eq, decide_eq_true hlt, if_pos rfl]
    refine rrsigAccepted_of_checks hok htype hcreated (htrim ▸ hcheck) fun _ => ?_
    rw [htrim]
    exact (wildcardAnswerCheck_ok hproof).mono ((FlagsSet.refl _).or_right _)
  · -- no wildcard: the signature is checked over the whole owner
    rw [decide_eq_false hlt] at hsig
    obtain ⟨hcheck, rfl⟩ := signatureStep_plain hsig
    have htrim : trimmedLabels covered.owner rd = 0 := by
      rw [trimmedLabels, if_neg hlt]
    exact rrsigAccepted_of_checks hok htype hcreated (htrim ▸ hcheck) fun hl => absurd hl hlt

/-! ## One key -/

theorem rrsigSetStep_updates {vctx w : ValidationCtx} {covered : Rrset} {keyRdata : Rdata}
    {key : Key} {keytag : UInt16} {entry : RankedEntry}
    (h : rrsigSetStep c vctx covered keyRdata key keytag entry = .ret w) : vctx.Updates w := by
  unfold rrsigSetStep at h
  split_ifs at h
  split at h
  · next v hloop =>
    cases h
    obtain ⟨rd, -, hrd⟩ := List.exists_of_searchLoop hloop
    exact rrsigStep_updates hrd
  · cases h

theorem rrsigSetStep_accepted {vctx w : ValidationCtx} {covered : Rrset} {k : Rdata}
    {entry : RankedEntry} (hzone : vctx.zoneName = vctx.keys.owner)
    (hcreated : (c.krDnssecKeyFromRdata vctx.keys.owner k).1 = 0)
    (h : rrsigSetStep c vctx covered k (c.krDnssecKeyFromRdata vctx.keys.owner k).2
      (c.dnssecKeyGetKeytag (c.krDnssecKeyFromRdata vctx.keys.owner k).2) entry = .ret w)
    (hw : w.result = 0) :
    entry.rr.type = knotRrtypeRrsig ∧ entry.rr.owner = covered.owner ∧
      entry.rr.rclass = covered.rclass ∧ ∃ s ∈ entry.rr.rrs, RrsigAccepted c vctx.input w.flags covered s k := by
  unfold rrsigSetStep at h
  split_ifs at h with htype hmatch
  split at h
  · next v hloop =>
    cases h
    obtain ⟨rd, hrd, hstep⟩ := List.exists_of_searchLoop hloop
    simp only [not_or, not_not] at htype hmatch
    exact ⟨htype, hmatch.2.symm, hmatch.1.symm, rd, hrd, rrsigStep_accepted hzone hcreated hstep hw⟩
  · cases h

theorem krRrsetValidateWithKey_updates (vctx : ValidationCtx) (covered : Rrset) (keyPos : Nat) :
    vctx.Updates (krRrsetValidateWithKey c vctx covered keyPos) := by
  unfold krRrsetValidateWithKey
  dsimp only
  split
  · exact ValidationCtx.Updates.result _ _
  · split
    · exact ValidationCtx.Updates.result _ _
    · split
      · next v hloop =>
        obtain ⟨entry, -, hstep⟩ := List.exists_of_searchLoop hloop
        exact rrsigSetStep_updates hstep
      · exact ValidationCtx.Updates.result _ _

/-- A key that validates the RRset found an acceptable signature of it. -/
theorem krRrsetValidateWithKey_signed {vctx : ValidationCtx} {covered : Rrset} {keyPos : Nat}
    (hzone : vctx.zoneName = vctx.keys.owner) (hpos : keyPos < vctx.keys.rrs.length)
    (h : (krRrsetValidateWithKey c vctx covered keyPos).result = 0) :
    Signed c vctx.input (krRrsetValidateWithKey c vctx covered keyPos).flags covered := by
  generalize hw : krRrsetValidateWithKey c vctx covered keyPos = w at h ⊢
  unfold krRrsetValidateWithKey at hw
  dsimp only at hw
  split at hw
  · subst hw
    exact absurd h (krError_ne_krOk (by decide))
  · next hbw =>
    split at hw
    · next hcreated =>
      subst hw
      exact absurd h hcreated
    · next hcreated =>
      split at hw
      · next v hloop =>
        subst hw
        obtain ⟨entry, hentry, hstep⟩ := List.exists_of_searchLoop hloop
        obtain ⟨htype, howner, hclass, rd, hrd, hacc⟩ :=
          rrsigSetStep_accepted hzone (not_not.mp hcreated) hstep h
        have hkey : vctx.keys.rrs.getD keyPos default ∈ vctx.keys.rrs := by
          rw [List.getD_eq_getElem?_getD, List.getElem?_eq_getElem hpos, Option.getD_some]
          exact List.getElem_mem hpos
        refine ⟨?_, entry.rr, List.mem_map_of_mem hentry, htype, howner, hclass, rd, hrd, _, hkey,
          hacc⟩
        show vctx.keys.owner <:+ covered.owner
        rw [← hzone]
        exact knotDnameInBailiwick_nonneg_iff.mp (Int.not_lt.mp hbw)
      · subst hw
        exact absurd h (krError_ne_krOk (by decide))

theorem validateKeysLoop_updates (covered : Rrset) :
    ∀ (l : List Nat) (vctx : ValidationCtx), vctx.Updates (validateKeysLoop c covered l vctx).2
  | [], vctx => ValidationCtx.Updates.refl vctx
  | keyPos :: rest, vctx => by
    have hkey : vctx.Updates (krRrsetValidateWithKey c vctx covered keyPos) :=
      krRrsetValidateWithKey_updates vctx covered keyPos
    simp only [validateKeysLoop]
    split
    · exact hkey
    · exact hkey.trans (validateKeysLoop_updates covered rest _)

/-- `kr_rrset_validate` succeeds only through a key that found an acceptable signature. -/
theorem validateKeysLoop_signed {covered : Rrset} :
    ∀ {l : List Nat} {vctx : ValidationCtx}, vctx.zoneName = vctx.keys.owner →
      (∀ i ∈ l, i < vctx.keys.rrs.length) → (validateKeysLoop c covered l vctx).1 = krOk →
      Signed c vctx.input (validateKeysLoop c covered l vctx).2.flags covered
  | [], _, _, _, h => absurd h (krError_ne_krOk (by decide))
  | keyPos :: rest, vctx, hzone, hl, h => by
    have hu : vctx.Updates (krRrsetValidateWithKey c vctx covered keyPos) :=
      krRrsetValidateWithKey_updates vctx covered keyPos
    simp only [validateKeysLoop] at h ⊢
    split at h
    · next hres =>
      rw [if_pos hres]
      exact krRrsetValidateWithKey_signed hzone (hl keyPos List.mem_cons_self) hres
    · next hres =>
      rw [if_neg hres]
      -- the failed key changed only the result and the flags
      have hkeys : (krRrsetValidateWithKey c vctx covered keyPos).keys = vctx.keys := by
        rw [hu.1]
      have hzone' : (krRrsetValidateWithKey c vctx covered keyPos).zoneName =
          (krRrsetValidateWithKey c vctx covered keyPos).keys.owner := by
        rw [hu.1]
        exact hzone
      have hsigned := validateKeysLoop_signed hzone'
        (fun i hi => hkeys ▸ hl i (List.mem_cons_of_mem keyPos hi)) h
      rwa [hu.frame.input] at hsigned

theorem krRrsetValidate_updates (vctx : ValidationCtx) (covered : Rrset) :
    vctx.Updates (krRrsetValidate c vctx covered).2 :=
  validateKeysLoop_updates covered _ vctx

theorem krRrsetValidate_signed {vctx : ValidationCtx} {covered : Rrset}
    (hzone : vctx.zoneName = vctx.keys.owner) (h : (krRrsetValidate c vctx covered).1 = krOk) :
    Signed c vctx.input (krRrsetValidate c vctx covered).2.flags covered :=
  validateKeysLoop_signed hzone (fun _ hi => List.mem_range.mp hi) h

/-! ## The loop of `validate_section` -/

theorem ValidationCtx.Frame.errCnt {v w : ValidationCtx} (h : v.Frame w) (n : UInt32) :
    v.Frame { w with errCnt := n } :=
  ⟨h.input, h.zoneName, h.flags⟩

theorem ValidationCtx.Frame.result {v w : ValidationCtx} (h : v.Frame w) (r : Int) :
    v.Frame { w with result := r } :=
  ⟨h.input, h.zoneName, h.flags⟩

theorem validateEntry_frame (vctx : ValidationCtx) (ei : RankedEntry × Nat) :
    vctx.Frame (validateEntry c vctx ei).1 := by
  have hv : vctx.Frame (krRrsetValidate c vctx ei.1.rr).2 :=
    (krRrsetValidate_updates vctx ei.1.rr).frame
  unfold validateEntry
  dsimp only
  generalize krRrsetValidate c vctx ei.1.rr = validated at hv ⊢
  split
  · exact .refl _
  split
  · exact .refl _
  split
  · -- an RRSIG set
    split
    · exact (vctx.setRank_frame _ _).errCnt _
    · exact vctx.setRank_frame _ _
  have hset (flag : UInt8) := hv.trans (ValidationCtx.setRank_frame _ ei.2 flag)
  split
  · exact hset _
  split
  · exact (hset _).result _
  split
  · exact (hset _).errCnt _
  · exact (hset _).errCnt _

variable (c) in
/-- The invariant of the loop of `validate_section`, against the array `rrs` it started from: an
entry whose rank was changed to secure is no RRSIG set and is signed. -/
def SecureBacked (rrs : List RankedEntry) (v : ValidationCtx) : Prop :=
  ∀ (i : Nat) (e e' : RankedEntry), rrs[i]? = some e → v.rrs[i]? = some e' → e'.rank ≠ e.rank →
    krRankTest e'.rank krRankSecure = true →
      e.rr.type ≠ knotRrtypeRrsig ∧ Signed c v.input v.flags e.rr

theorem SecureBacked.of_updates {rrs : List RankedEntry} {v w : ValidationCtx}
    (hb : SecureBacked c rrs v) (hu : v.Updates w) : SecureBacked c rrs w := by
  intro i e e' he he' hne hsec
  rw [hu.rrs] at he'
  obtain ⟨htype, hsigned⟩ := hb i e e' he he' hne hsec
  rw [hu.frame.input]
  exact ⟨htype, hsigned.mono hu.2⟩

/-- Setting a rank other than secure keeps the invariant. -/
theorem SecureBacked.setRank {rrs : List RankedEntry} {v : ValidationCtx} {flag : UInt8}
    (hb : SecureBacked c rrs v) (i : Nat) (hflag : krRankTest flag krRankSecure = false) :
    SecureBacked c rrs (v.setRank i flag) := by
  intro j e e' he he' hne hsec
  rw [(v.setRank_frame i flag).input]
  rw [ValidationCtx.getElem?_setRank] at he'
  split at he'
  · -- the entry set here tests as the flag, not as secure
    obtain ⟨e₀, -, rfl⟩ := Option.map_eq_some_iff.mp he'
    rw [krRankTest_krRankSet _ _ _ (by decide), hflag] at hsec
    cases hsec
  · exact hb j e e' he he' hne hsec

/-- Setting secure an entry that was validated keeps the invariant. -/
theorem SecureBacked.setRank_secure {rrs : List RankedEntry} {v : ValidationCtx} {i : Nat}
    {e : RankedEntry} (hb : SecureBacked c rrs v) (he : rrs[i]? = some e)
    (htype : e.rr.type ≠ knotRrtypeRrsig) (hsigned : Signed c v.input v.flags e.rr) :
    SecureBacked c rrs (v.setRank i krRankSecure) := by
  intro j e₁ e' he₁ he' hne hsec
  rw [(v.setRank_frame i krRankSecure).input]
  rw [ValidationCtx.getElem?_setRank] at he'
  split at he'
  · next hij =>
    subst hij
    rw [he] at he₁
    cases he₁
    exact ⟨htype, hsigned⟩
  · exact hb j e₁ e' he₁ he' hne hsec

theorem validateEntry_backed {rrs : List RankedEntry} {vctx : ValidationCtx}
    {ei : RankedEntry × Nat} (hzone : vctx.zoneName = vctx.keys.owner) (hei : rrs[ei.2]? = some ei.1)
    (hb : SecureBacked c rrs vctx) : SecureBacked c rrs (validateEntry c vctx ei).1 := by
  have hu : vctx.Updates (krRrsetValidate c vctx ei.1.rr).2 := krRrsetValidate_updates vctx ei.1.rr
  have hsigned : (krRrsetValidate c vctx ei.1.rr).1 = krOk →
      Signed c vctx.input (krRrsetValidate c vctx ei.1.rr).2.flags ei.1.rr :=
    krRrsetValidate_signed hzone
  unfold validateEntry
  dsimp only
  generalize krRrsetValidate c vctx ei.1.rr = validated at hu hsigned ⊢
  split
  · exact hb
  split
  · exact hb
  split
  · -- an RRSIG set is ranked OMIT or MISMATCH
    split
    · exact hb.setRank _ (by decide)
    · exact hb.setRank _ (by decide)
  · next htype =>
    have hb' := hb.of_updates hu
    split
    · -- validated: the rank becomes secure
      next hres =>
      have hsigned := hsigned hres
      rw [← hu.frame.input] at hsigned
      exact hb'.setRank_secure hei htype hsigned
    split
    · exact hb'.setRank _ (by decide)
    split
    · exact hb'.setRank _ (by decide)
    · exact hb'.setRank _ (by decide)

variable (c) in
/-- An entry that `validate_section` ranks secure when it was not is no RRSIG set, lies in the
zone of the keys, and an RRSIG set of the array with its owner and class holds a signature of it
that is acceptable with one of the keys. -/
theorem validateSection_secure (vctx : ValidationCtx) {i : Nat} {e e' : RankedEntry}
    (he : vctx.rrs[i]? = some e) (he' : (validateSection c vctx).2.rrs[i]? = some e')
    (hchanged : e'.rank ≠ e.rank) (hsecure : krRankTest e'.rank krRankSecure = true) :
    e.rr.type ≠ knotRrtypeRrsig ∧ vctx.keys.owner <:+ e.rr.owner ∧
      ∃ sig ∈ vctx.rrs.map RankedEntry.rr, sig.type = knotRrtypeRrsig ∧
        sig.owner = e.rr.owner ∧ sig.rclass = e.rr.rclass ∧
        ∃ s ∈ sig.rrs, ∃ k ∈ vctx.keys.rrs,
          RrsigAccepted c vctx.input (validateSection c vctx).2.flags e.rr s k := by
  -- the loop runs from the context whose zone is the owner of the keys
  let v₀ : ValidationCtx := { vctx with zoneName := vctx.keys.owner }
  have hrun : v₀.Frame (validateSection c vctx).2 ∧ SecureBacked c vctx.rrs (validateSection c vctx).2 := by
    refine List.foldlBreak_invariant (fun v => v₀.Frame v ∧ SecureBacked c vctx.rrs v) ?_ ?_
    · rintro v ei hei ⟨hf, hb⟩
      have hkeys : v.keys = vctx.keys := congrArg ValidationInput.keys hf.input
      have hzone : v.zoneName = v.keys.owner := by
        rw [hf.zoneName, hkeys]
      exact ⟨hf.trans (validateEntry_frame v ei),
        validateEntry_backed hzone (List.mem_zipIdx_iff_getElem?.mp hei) hb⟩
    · refine ⟨.refl _, fun i e e' he he' hne _ => ?_⟩
      have hsame : e = e' := Option.some.inj (he.symm.trans he')
      exact absurd (congrArg RankedEntry.rank hsame).symm hne
  obtain ⟨hf, hb⟩ := hrun
  obtain ⟨htype, hzone, sig, hsig, hstype, howner, hclass, s, hs, k, hk, hacc⟩ :=
    hb i e e' he he' hchanged hsecure
  rw [hf.input] at hzone hsig hk hacc
  exact ⟨htype, hzone, sig, hsig, hstype, howner, hclass, s, hs, k, hk, hacc⟩

end Crypto

/-! ## A signed answer -/

/-- Cryptography under which every signature checks out, with key tag 42. -/
def acceptingCrypto : DnssecCrypto Unit where
  krDnssecKeyFromRdata _ _ := (0, ())
  dnssecKeyGetKeytag _ := 42
  krCheckSignature _ _ _ _ := 0
  nsec3 := ⟨fun _ _ _ _ => none, fun _ => none⟩

/-- `a.ex. A`, as the iterator selected it. -/
def signedAnswerEntry : RankedEntry :=
  { qryUid := 1, rank := krRankInitial, toWire := true,
    rr := ⟨[[0x61], [0x65, 0x78]], knotRrtypeA, knotClassIn, 300, [.addr [192, 0, 2, 1]]⟩ }

/-- The answer with its RRSIG by the key of `ex.`, at time 50. -/
def signedAnswerCtx : ValidationCtx where
  pkt := ⟨false, true, false, knotRcodeNoerror, [[0x61], [0x65, 0x78]], knotRrtypeA, none, .answer,
    [], [], []⟩
  rrs := [signedAnswerEntry,
    { qryUid := 1, rank := krRankInitial, toWire := true,
      rr := ⟨[[0x61], [0x65, 0x78]], knotRrtypeRrsig, knotClassIn, 300,
        [.rrsig knotRrtypeA 8 2 300 100 0 42 [[0x65, 0x78]]]⟩ }]
  keys := ⟨[[0x65, 0x78]], knotRrtypeDnskey, knotClassIn, 300, [.dnskey 257 3 8 []]⟩
  zoneName := []
  timestamp := 50
  hasNsec3 := false
  qryUid := 1
  flags := 0
  errCnt := 0
  result := 0

theorem signedAnswer_validated :
    signedAnswerCtx.rrs[0]? = some signedAnswerEntry ∧
      (validateSection acceptingCrypto signedAnswerCtx).2.rrs[0]? =
        some { signedAnswerEntry with rank := krRankSecure } ∧
      krRankSecure ≠ signedAnswerEntry.rank ∧ krRankTest krRankSecure krRankSecure = true ∧
      (signedAnswerEntry.rr.type ≠ knotRrtypeRrsig ∧
        signedAnswerCtx.keys.owner <:+ signedAnswerEntry.rr.owner ∧
        ∃ sig ∈ signedAnswerCtx.rrs.map RankedEntry.rr, sig.type = knotRrtypeRrsig ∧
          sig.owner = signedAnswerEntry.rr.owner ∧ sig.rclass = signedAnswerEntry.rr.rclass ∧
          ∃ s ∈ sig.rrs, ∃ k ∈ signedAnswerCtx.keys.rrs,
            RrsigAccepted acceptingCrypto signedAnswerCtx.input
              (validateSection acceptingCrypto signedAnswerCtx).2.flags signedAnswerEntry.rr s k) :=
  have he : signedAnswerCtx.rrs[0]? = some signedAnswerEntry := rfl
  have he' : (validateSection acceptingCrypto signedAnswerCtx).2.rrs[0]? =
      some { signedAnswerEntry with rank := krRankSecure } := by decide
  have hne : krRankSecure ≠ signedAnswerEntry.rank := by decide
  have hsec : krRankTest krRankSecure krRankSecure = true := by decide
  ⟨he, he', hne, hsec, validateSection_secure acceptingCrypto signedAnswerCtx he he' hne hsec⟩

end Validate

end KnotResolver
