import KnotResolver.Ring
import KnotResolver.Dnssec.Nsec

/-!
# NSEC3 denial of existence (`lib/dnssec/nsec3.c`)

The checks the validator runs over the NSEC3 RRsets of a section (RFC 5155 section 8). An NSEC3
record names the hash of an existing name in its owner's first label (base32hex) and the hash of
the next existing name in its rdata; it *covers* a name whose hash lies strictly inside that arc of
the cyclic hash order (`covers_name`), and *matches* one whose hash is its owner's.

`kr_nsec3_name_error_response_check` accepts a name error when the closest encloser proof holds
(an ancestor `ce` of the name is matched, and the next closer name, the child of `ce` towards the
name, is covered) and the wildcard `*.ce` is covered.

The hashing and the base32hex decoding are parameters (`Nsec3Crypto`).
-/

namespace KnotResolver

namespace Rdata

/-- `knot_nsec3_flags`. -/
def knotNsec3Flags : Rdata → UInt8
  | .nsec3 _ flags .. => flags
  | _ => 0

/-- `knot_nsec3_next`: the hash of the next owner. -/
def knotNsec3Next : Rdata → List UInt8
  | .nsec3 _ _ _ _ next _ => next
  | _ => []

end Rdata

namespace Nsec3

open Nsec

def optOutBit : UInt8 := 0x01

/-- `dnssec_nsec3_params_t`, as `dnssec_nsec3_params_from_rdata` reads it from a record. -/
structure Nsec3Params where
  algorithm : UInt8
  flags : UInt8
  iterations : UInt16
  salt : List UInt8
  deriving DecidableEq, Repr

/-- The functions of libdnssec and of the contrib code that the NSEC3 checks call. -/
structure Nsec3Crypto where
  /-- `dnssec_nsec3_hash` with the algorithm, the iterations and the salt. -/
  nsec3Hash : UInt8 → UInt16 → List UInt8 → Dname → Option (List UInt8)
  /-- `base32hex_decode` of an owner label into the hash buffer. -/
  base32hexDecode : Label → Option (List UInt8)

section Checks

variable (c : Nsec3Crypto)

/-- `nsec3_parameters`. -/
def nsec3Parameters (nsec3 : Rrset) : Except Int Nsec3Params :=
  match nsec3.rdata with
  | .nsec3 alg flags iterations salt _ _ => .ok ⟨alg, flags, iterations, salt⟩
  | _ => .error (krError EINVAL)

/-- `hash_name`. -/
def hashName (params : Nsec3Params) (name : Dname) : Except Int (List UInt8) :=
  match c.nsec3Hash params.algorithm params.iterations params.salt name with
  | some hash => .ok hash
  | none => .error (krError EINVAL)

/-- `read_owner_hash`: the decoded first label of the owner. -/
def readOwnerHash (nsec3 : Rrset) : Except Int (List UInt8) :=
  match c.base32hexDecode (nsec3.owner.headD []) with
  | some hash => .ok hash
  | none => .error (krError EILSEQ)

/-- The loop of `closest_encloser_match` over the ancestors of the name, with the number of labels
skipped so far: whether some ancestor's hash is the owner hash, and the labels skipped to it. -/
def encloserLoop (ownerHash : List UInt8) (params : Nsec3Params) :
    Dname → Nat → Except Int (Bool × Nat)
  | [], skipped =>
    match hashName c params [] with
    | .error e => .error e
    | .ok nameHash => .ok (ownerHash = nameHash, skipped)
  | l :: parent, skipped =>
    match hashName c params (l :: parent) with
    | .error e => .error e
    | .ok nameHash =>
      if ownerHash = nameHash then .ok (true, skipped)
      else encloserLoop ownerHash params parent (skipped + 1)

/-- `closest_encloser_match`: whether the NSEC3 matches an ancestor of `name`
(`FLG_CLOSEST_PROVABLE_ENCLOSER`), and how many labels up. -/
def closestEncloserMatch (nsec3 : Rrset) (name : Dname) : Except Int (Bool × Nat) :=
  match readOwnerHash c nsec3 with
  | .error e => .error e
  | .ok ownerHash =>
    match nsec3Parameters nsec3 with
    | .error e => .error e
    | .ok params =>
      match name with
      -- the root has no encloser
      | [] => .error (krError ENOENT)
      | _ :: parent => encloserLoop c ownerHash params parent 1

/-- The comparison block of `covers_name`: with all three hashes of the length of `next`, the
name's hash lies strictly between the owner hash and `next`, wrapping around after the last
owner. -/
def hashCovered (ownerHash next nameHash : List UInt8) : Bool :=
  let size := next.length
  if 0 < size ∧ ownerHash.length = size ∧ nameHash.length = size then
    let greaterThenOwner := memcmp ownerHash nameHash size = .lt
    let lessThenNext := memcmp nameHash next size = .lt
    if memcmp ownerHash next size = .lt then greaterThenOwner ∧ lessThenNext
    else greaterThenOwner ∨ lessThenNext
  else false

/-- `covers_name`: whether the NSEC3 covers `name` (`FLG_NAME_COVERED`); a covering record with
flags other than opt-out is an error (RFC 5155 3.1.2). -/
def coversName (nsec3 : Rrset) (name : Dname) : Except Int Bool :=
  match readOwnerHash c nsec3 with
  | .error e => .error e
  | .ok ownerHash =>
    match nsec3Parameters nsec3 with
    | .error e => .error e
    | .ok params =>
      match hashName c params name with
      | .error e => .error e
      | .ok nameHash =>
        if hashCovered ownerHash nsec3.rdata.knotNsec3Next nameHash then
          if nsec3.rdata.knotNsec3Flags &&& ~~~optOutBit ≠ 0 then .error (krError EINVAL)
          else .ok true
        else .ok false

/-- `has_optout`. -/
def hasOptout (nsec3 : Rrset) : Bool :=
  if nsec3.rdata.knotNsec3Flags &&& ~~~optOutBit ≠ 0 then false
  else nsec3.rdata.knotNsec3Flags &&& optOutBit ≠ 0

/-- The flags `FLG_CLOSEST_PROVABLE_ENCLOSER` and `FLG_NAME_COVERED`. -/
structure ProofFlags where
  cpe : Bool := false
  covered : Bool := false

/-- The inner loop of `closest_encloser_proof`: an NSEC3 of the section covering the next closer
name. -/
def coverLoop (nextCloser : Dname) (flags : ProofFlags) :
    List Rrset → Except Int (ProofFlags × Option Rrset)
  | [] => .ok (flags, none)
  | rr :: rest =>
    if rr.type ≠ knotRrtypeNsec3 then coverLoop nextCloser flags rest
    else
      match coversName c rr nextCloser with
      | .error e => .error e
      | .ok covered =>
        let flags := { flags with covered := flags.covered || covered }
        if flags.covered then .ok (flags, some rr) else coverLoop nextCloser flags rest

/-- The variables of `closest_encloser_proof` its outer loop updates. -/
structure ProofState where
  flags : ProofFlags := {}
  nextCloser : Option Dname := none
  matching : Option Rrset := none
  covering : Option Rrset := none

/-- The outer loop of `closest_encloser_proof` over the section `sec`. -/
def encloserProofLoop (sec : List Rrset) (sname : Dname) :
    List Rrset → ProofState → Except Int ProofState
  | [], st => .ok st
  | rr :: rest, st =>
    if rr.type ≠ knotRrtypeNsec3 then encloserProofLoop sec sname rest st
    -- a parent-side delegation does not prove that its owner exists in this zone
    else if krNsecChildrenInZoneCheck rr.rdata.bitmap ≠ 0 then
      encloserProofLoop sec sname rest st
    else
      match closestEncloserMatch c rr sname with
      | .error e => .error e
      | .ok (cpe, skipped) =>
        if !cpe then encloserProofLoop sec sname rest { st with flags := {} }
        else
          let nextCloser := sname.drop (skipped - 1)
          match coverLoop c nextCloser { cpe := cpe } sec with
          | .error e => .error e
          | .ok (flags, covering) =>
            let st : ProofState :=
              ⟨flags, some nextCloser, some rr, covering.or st.covering⟩
            if flags.covered then .ok st
            else encloserProofLoop sec sname rest { st with flags := {} }

/-- `closest_encloser_proof`: the closest encloser, the NSEC3 matching it and the NSEC3 covering
the next closer name. -/
def closestEncloserProof (sec : List Rrset) (sname : Dname) :
    Except Int (Option Dname × Option Rrset × Option Rrset) :=
  match encloserProofLoop c sec sname sec {} with
  | .error e => .error e
  | .ok st =>
    match st.nextCloser with
    | some nextCloser =>
      if st.flags.cpe ∧ st.flags.covered then
        .ok (if nextCloser ≠ [] then some nextCloser.tail else none, st.matching, st.covering)
      else .error (krError ENOENT)
    | none => .error (krError ENOENT)

/-- The search for an NSEC3 covering `name`, shared by `covers_closest_encloser_wildcard` and
`kr_nsec3_wildcard_answer_response_check`: `KNOT_ERANGE` when the covering record has opt-out. -/
def coverOptoutLoop (name : Dname) : List Rrset → Int
  | [] => krError ENOENT
  | rr :: rest =>
    if rr.type ≠ knotRrtypeNsec3 then coverOptoutLoop name rest
    else
      match coversName c rr name with
      | .error e => e
      | .ok covered =>
        if covered then (if hasOptout rr then krError knotErange else krOk)
        else coverOptoutLoop name rest

/-- `covers_closest_encloser_wildcard`. -/
def coversClosestEncloserWildcard (sec : List Rrset) (encloser : Option Dname) : Int :=
  match encloser with
  | none => krError EINVAL
  | some encloser => coverOptoutLoop c (asteriskLabel :: encloser) sec

/-- `kr_nsec3_name_error_response_check`. -/
def krNsec3NameErrorResponseCheck (sec : List Rrset) (sname : Dname) : Int :=
  match closestEncloserProof c sec sname with
  | .error e => e
  | .ok (encloser, _, coveringNext) =>
    let ret := coversClosestEncloserWildcard c sec encloser
    if ret ≠ 0 then ret
    else if (coveringNext.map hasOptout).getD false then krError knotErange
    else krOk

/-- `kr_nsec3_wildcard_answer_response_check`: the name `trimToNext` labels up is covered. -/
def krNsec3WildcardAnswerResponseCheck (sec : List Rrset) (sname : Dname) (trimToNext : Int) :
    Int :=
  coverOptoutLoop c (sname.drop trimToNext.toNat) sec

end Checks

/-! ## What the checks establish -/

/-- The errors the NSEC3 checks return, none of which is `0` or `KNOT_ERANGE`. -/
def ProofError (e : Int) : Prop := e = krError ENOENT ∨ e = krError EINVAL ∨ e = krError EILSEQ

theorem ProofError.not_ok_or_erange {e : Int} (h : ProofError e) : ¬(e = krOk ∨ e = knotErange) := by
  rcases h with rfl | rfl | rfl <;> decide

theorem arcContains_of_hashCovered {ownerHash next nameHash : List UInt8}
    (h : hashCovered ownerHash next nameHash = true) :
    List.ArcContains (List.compareLex compare) ownerHash next nameHash := by
  unfold hashCovered at h
  dsimp only at h
  split at h
  · next hsize =>
    obtain ⟨-, hown, hname⟩ := hsize
    rw [memcmp_of_length hown rfl, memcmp_of_length hname rfl,
      memcmp_of_length hown hname] at h
    unfold List.ArcContains
    split_ifs at h ⊢ <;> simpa using h
  · cases h

section Spec

variable (c : Nsec3Crypto)

/-- The NSEC3 matches `name`: its owner hash is the hash of `name` under its parameters. -/
def Matches (rr : Rrset) (name : Dname) : Prop :=
  ∃ ownerHash params, readOwnerHash c rr = .ok ownerHash ∧ nsec3Parameters rr = .ok params ∧
    hashName c params name = .ok ownerHash

/-- The NSEC3 covers `name`: the hash of `name` lies strictly inside the arc of the hash order
from the owner hash to the next hash. -/
def Covers (rr : Rrset) (name : Dname) : Prop :=
  ∃ ownerHash params nameHash, readOwnerHash c rr = .ok ownerHash ∧
    nsec3Parameters rr = .ok params ∧ hashName c params name = .ok nameHash ∧
    List.ArcContains (List.compareLex compare) ownerHash rr.rdata.knotNsec3Next nameHash

/-- A closest encloser proof for `sname` in the section: the next closer name `nc` is an
ancestor-or-self of `sname`, an NSEC3 of the section matches its parent `nc.tail`, and the NSEC3
`covering` of the section covers `nc`. -/
structure EncloserProof (sec : List Rrset) (sname nc : Dname) (covering : Rrset) : Prop where
  suffix : nc <:+ sname
  ne_nil : nc ≠ []
  matching : ∃ rr ∈ sec, rr.type = knotRrtypeNsec3 ∧ Matches c rr nc.tail
  covering_mem : covering ∈ sec
  covering_type : covering.type = knotRrtypeNsec3
  covers : Covers c covering nc

/-- The invariant of the loop of `closest_encloser_proof`: once the flags say covered, the state
holds a closest encloser proof. -/
def ProofState.Proved (sec : List Rrset) (sname : Dname) (st : ProofState) : Prop :=
  st.flags.covered = true → ∃ nc rr, st.nextCloser = some nc ∧ st.covering = some rr ∧
    EncloserProof c sec sname nc rr

variable {c}

@[simp] theorem readOwnerHash_eq_ok {rr : Rrset} {hash : List UInt8} :
    readOwnerHash c rr = .ok hash ↔ c.base32hexDecode (rr.owner.headD []) = some hash := by
  unfold readOwnerHash
  cases c.base32hexDecode (rr.owner.headD []) <;> simp

@[simp] theorem hashName_eq_ok {params : Nsec3Params} {name : Dname} {hash : List UInt8} :
    hashName c params name = .ok hash ↔
      c.nsec3Hash params.algorithm params.iterations params.salt name = some hash := by
  cases hh : c.nsec3Hash params.algorithm params.iterations params.salt name <;>
    simp [hashName, hh]

theorem nsec3Parameters_of_rdata {rr : Rrset} {alg flags : UInt8} {iterations : UInt16}
    {salt next : List UInt8} {bitmap : List UInt16}
    (h : rr.rdata = .nsec3 alg flags iterations salt next bitmap) :
    nsec3Parameters rr = .ok ⟨alg, flags, iterations, salt⟩ := by
  simp [nsec3Parameters, h]

theorem optOut_of_hasOptout {rr : Rrset} (h : hasOptout rr = true) :
    rr.rdata.knotNsec3Flags &&& optOutBit ≠ 0 := by
  unfold hasOptout at h
  split_ifs at h
  simpa using h

theorem readOwnerHash_error {rr : Rrset} {e : Int} (h : readOwnerHash c rr = .error e) :
    ProofError e := by
  unfold readOwnerHash at h
  split at h
  · cases h
  · cases h; exact .inr (.inr rfl)

theorem nsec3Parameters_error {rr : Rrset} {e : Int} (h : nsec3Parameters rr = .error e) :
    ProofError e := by
  unfold nsec3Parameters at h
  split at h
  · cases h
  · cases h; exact .inr (.inl rfl)

theorem hashName_error {params : Nsec3Params} {name : Dname} {e : Int}
    (h : hashName c params name = .error e) : ProofError e := by
  unfold hashName at h
  split at h
  · cases h
  · cases h; exact .inr (.inl rfl)

theorem encloserLoop_error {ownerHash : List UInt8} {params : Nsec3Params} {e : Int} :
    ∀ {n : Dname} {k : Nat}, encloserLoop c ownerHash params n k = .error e → ProofError e
  | [], k, h => by
    unfold encloserLoop at h
    split at h
    · next he => cases h; exact hashName_error he
    · cases h
  | l :: parent, k, h => by
    unfold encloserLoop at h
    split at h
    · next he => cases h; exact hashName_error he
    · split_ifs at h
      exact encloserLoop_error h

/-- The loop of `closest_encloser_match` stops at an ancestor-or-self of the name whose hash is
the owner hash, `s - k` labels up. -/
theorem encloserLoop_true {ownerHash : List UInt8} {params : Nsec3Params} :
    ∀ {n : Dname} {k s : Nat}, encloserLoop c ownerHash params n k = .ok (true, s) →
      k ≤ s ∧ s - k ≤ n.length ∧ hashName c params (n.drop (s - k)) = .ok ownerHash
  | [], k, s, h => by
    unfold encloserLoop at h
    split at h
    · cases h
    · next nameHash hhash =>
      simp only [Except.ok.injEq, Prod.mk.injEq, decide_eq_true_eq] at h
      obtain ⟨rfl, rfl⟩ := h
      simpa using hhash
  | l :: parent, k, s, h => by
    unfold encloserLoop at h
    split at h
    · cases h
    · next nameHash hhash =>
      split_ifs at h with heq
      · cases h
        subst heq
        simpa using hhash
      · obtain ⟨hk, hlen, hrest⟩ := encloserLoop_true h
        have hs : s - k = s - (k + 1) + 1 := by omega
        refine ⟨by omega, by simp; omega, ?_⟩
        rwa [hs, List.drop_succ_cons]

theorem closestEncloserMatch_error {rr : Rrset} {name : Dname} {e : Int}
    (h : closestEncloserMatch c rr name = .error e) : ProofError e := by
  unfold closestEncloserMatch at h
  split at h
  · next he => cases h; exact readOwnerHash_error he
  split at h
  · next he => cases h; exact nsec3Parameters_error he
  split at h
  · cases h; exact .inl rfl
  · exact encloserLoop_error h

/-- A match by `closest_encloser_match` is a match of the ancestor `s` labels up. -/
theorem matches_of_closestEncloserMatch {rr : Rrset} {name : Dname} {s : Nat}
    (h : closestEncloserMatch c rr name = .ok (true, s)) :
    1 ≤ s ∧ s ≤ name.length ∧ Matches c rr (name.drop s) := by
  unfold closestEncloserMatch at h
  split at h
  · cases h
  next ownerHash hown =>
  split at h
  · cases h
  next params hparams =>
  split at h
  · cases h
  next l parent =>
  obtain ⟨hs, hlen, hhash⟩ := encloserLoop_true h
  have hdrop : (l :: parent).drop s = parent.drop (s - 1) := by
    rw [show s = s - 1 + 1 by omega, List.drop_succ_cons, Nat.add_sub_cancel]
  refine ⟨hs, by simp; omega, ownerHash, params, hown, hparams, ?_⟩
  rwa [hdrop]

theorem coversName_error {rr : Rrset} {name : Dname} {e : Int}
    (h : coversName c rr name = .error e) : ProofError e := by
  unfold coversName at h
  split at h
  · next he => cases h; exact readOwnerHash_error he
  split at h
  · next he => cases h; exact nsec3Parameters_error he
  split at h
  · next he => cases h; exact hashName_error he
  -- otherwise only a covering record with flags other than opt-out fails
  split_ifs at h
  cases h
  exact .inr (.inl rfl)

theorem covers_of_coversName {rr : Rrset} {name : Dname}
    (h : coversName c rr name = .ok true) : Covers c rr name := by
  unfold coversName at h
  split at h
  · cases h
  next ownerHash hown =>
  split at h
  · cases h
  next params hparams =>
  split at h
  · cases h
  next nameHash hname =>
  by_cases hcov : hashCovered ownerHash rr.rdata.knotNsec3Next nameHash = true
  · exact ⟨ownerHash, params, nameHash, hown, hparams, hname, arcContains_of_hashCovered hcov⟩
  · simp [hcov] at h

theorem coverLoop_error {nc : Dname} {e : Int} :
    ∀ {l : List Rrset} {flags : ProofFlags}, coverLoop c nc flags l = .error e → ProofError e
  | [], _, h => by cases h
  | rr :: rest, flags, h => by
    unfold coverLoop at h
    split_ifs at h
    · exact coverLoop_error h
    split at h
    · next he => cases h; exact coversName_error he
    · dsimp only at h
      split_ifs at h
      exact coverLoop_error h

/-- The inner loop of `closest_encloser_proof` sets the covered flag only at an NSEC3 of the
section covering the next closer name, and returns it. -/
theorem coverLoop_covered {nc : Dname} :
    ∀ {l : List Rrset} {flags flags' : ProofFlags} {cov : Option Rrset},
      coverLoop c nc flags l = .ok (flags', cov) → flags.covered = false →
        flags'.covered = true → ∃ rr ∈ l, cov = some rr ∧ rr.type = knotRrtypeNsec3 ∧ Covers c rr nc
  | [], _, _, _, h, hf, hf' => by
    cases h
    simp [hf] at hf'
  | rr :: rest, flags, flags', cov, h, hf, hf' => by
    unfold coverLoop at h
    split_ifs at h with htype
    · obtain ⟨rr', hmem, hrest⟩ := coverLoop_covered h hf hf'
      exact ⟨rr', List.mem_cons_of_mem _ hmem, hrest⟩
    split at h
    · cases h
    next covered hcovered =>
    dsimp only at h
    split_ifs at h with hnow
    · cases h
      have hc : covered = true := by simpa [hf] using hnow
      subst hc
      exact ⟨rr, List.mem_cons_self, rfl, by simpa using htype, covers_of_coversName hcovered⟩
    · have hc : (flags.covered || covered) = false := by simpa using hnow
      obtain ⟨rr', hmem, hrest⟩ := coverLoop_covered h hc hf'
      exact ⟨rr', List.mem_cons_of_mem _ hmem, hrest⟩

theorem encloserProofLoop_error {sec : List Rrset} {sname : Dname} {e : Int} :
    ∀ {l : List Rrset} {st : ProofState}, encloserProofLoop c sec sname l st = .error e →
      ProofError e
  | [], _, h => by cases h
  | rr :: rest, st, h => by
    unfold encloserProofLoop at h
    split_ifs at h
    · exact encloserProofLoop_error h
    · exact encloserProofLoop_error h
    split at h
    · next he => cases h; exact closestEncloserMatch_error he
    split at h
    · exact encloserProofLoop_error h
    dsimp only at h
    split at h
    · next he => cases h; exact coverLoop_error he
    split at h
    · cases h
    · exact encloserProofLoop_error h

/-- The NSEC3 that matched and the next closer name derived from its skipped labels, together
with the NSEC3 the inner loop found covering it, form a closest encloser proof. -/
theorem encloserProof_of_match {sec : List Rrset} {sname : Dname} {rr : Rrset} {s : Nat}
    {flags : ProofFlags} {cov : Option Rrset} (hrr : rr ∈ sec) (htype : rr.type = knotRrtypeNsec3)
    (hmatch : closestEncloserMatch c rr sname = .ok (true, s))
    (hcover : coverLoop c (sname.drop (s - 1)) { cpe := true } sec = .ok (flags, cov))
    (hcovered : flags.covered = true) :
    ∃ rrC, cov = some rrC ∧ EncloserProof c sec sname (sname.drop (s - 1)) rrC := by
  obtain ⟨hs, hlen, hm⟩ := matches_of_closestEncloserMatch hmatch
  obtain ⟨rrC, hmem, rfl, htypeC, hcov⟩ := coverLoop_covered hcover rfl hcovered
  have htail : (sname.drop (s - 1)).tail = sname.drop s := by
    rw [List.tail_drop]; congr 1; omega
  refine ⟨rrC, rfl, List.drop_suffix _ _, ?_, ⟨rr, hrr, htype, ?_⟩, hmem, htypeC, hcov⟩
  · simp only [ne_eq, List.drop_eq_nil_iff]; omega
  · rwa [htail]

/-- The loop of `closest_encloser_proof` keeps `ProofState.Proved`. -/
theorem encloserProofLoop_proved {sec : List Rrset} {sname : Dname} :
    ∀ {l : List Rrset} {st st' : ProofState}, l ⊆ sec → st.Proved c sec sname →
      encloserProofLoop c sec sname l st = .ok st' → st'.Proved c sec sname
  | [], _, _, _, hst, h => by cases h; exact hst
  | rr :: rest, st, st', hl, hst, h => by
    have hrest : rest ⊆ sec := fun _ hx => hl (List.mem_cons_of_mem _ hx)
    -- a state with the flags reset proves nothing yet
    have hreset : ∀ nc m cov, ProofState.Proved c sec sname ⟨{}, nc, m, cov⟩ :=
      fun _ _ _ hc => absurd hc (by simp)
    unfold encloserProofLoop at h
    split_ifs at h with htype hzone
    · exact encloserProofLoop_proved hrest hst h
    · exact encloserProofLoop_proved hrest hst h
    split at h
    · cases h
    next cpe skipped hmatch =>
    split at h
    · exact encloserProofLoop_proved hrest (hreset _ _ _) h
    next hcpe =>
    dsimp only at h
    split at h
    · cases h
    next flags cov hcover =>
    split at h
    · next hcovered =>
      cases h
      have hcpe : cpe = true := by simpa using hcpe
      subst hcpe
      obtain ⟨rrC, rfl, hproof⟩ :=
        encloserProof_of_match (hl List.mem_cons_self) (by simpa using htype) hmatch hcover hcovered
      exact fun _ => ⟨_, rrC, rfl, rfl, hproof⟩
    · exact encloserProofLoop_proved hrest (hreset _ _ _) h

theorem closestEncloserProof_error {sec : List Rrset} {sname : Dname} {e : Int}
    (h : closestEncloserProof c sec sname = .error e) : ProofError e := by
  unfold closestEncloserProof at h
  split at h
  · next he => cases h; exact encloserProofLoop_error he
  split at h
  · split_ifs at h
    cases h
    exact .inl rfl
  · cases h
    exact .inl rfl

/-- `closest_encloser_proof` succeeds only with a closest encloser proof, returning the parent
of the next closer name as the encloser and the NSEC3 covering the next closer name. -/
theorem closestEncloserProof_ok {sec : List Rrset} {sname : Dname} {encloser : Option Dname}
    {matching covering : Option Rrset}
    (h : closestEncloserProof c sec sname = .ok (encloser, matching, covering)) :
    ∃ nc rr, encloser = some nc.tail ∧ covering = some rr ∧ EncloserProof c sec sname nc rr := by
  unfold closestEncloserProof at h
  split at h
  · cases h
  next st hloop =>
  have hst := encloserProofLoop_proved (List.Subset.refl sec) (fun hc => absurd hc (by simp)) hloop
  split at h
  · next nc hnc =>
    by_cases hflags : st.flags.cpe = true ∧ st.flags.covered = true
    · obtain ⟨nc', rr, hnc', hcov, hproof⟩ := hst hflags.2
      obtain rfl : nc = nc' := Option.some.inj (hnc.symm.trans hnc')
      rw [if_pos hflags, if_pos hproof.ne_nil] at h
      cases h
      exact ⟨_, rr, rfl, hcov, hproof⟩
    · rw [if_neg hflags] at h
      cases h
  · cases h

/-- The shared search for a covering NSEC3 answers `0` or `KNOT_ERANGE` only at an NSEC3 of the
section covering the name, and `KNOT_ERANGE` exactly when that record has opt-out. -/
theorem coverOptoutLoop_covers {name : Dname} :
    ∀ {l : List Rrset} {r : Int}, coverOptoutLoop c name l = r → (r = krOk ∨ r = knotErange) →
      ∃ rr ∈ l, rr.type = knotRrtypeNsec3 ∧ Covers c rr name ∧
        (r = knotErange ↔ hasOptout rr = true)
  | [], r, h, hr => by
    unfold coverOptoutLoop at h
    subst h
    exact absurd hr (by decide)
  | rr :: rest, r, h, hr => by
    unfold coverOptoutLoop at h
    split at h
    · next htype =>
      obtain ⟨rr', hmem, hrest⟩ := coverOptoutLoop_covers h hr
      exact ⟨rr', List.mem_cons_of_mem _ hmem, hrest⟩
    next htype =>
    have htype : rr.type = knotRrtypeNsec3 := by simpa using htype
    split at h
    · next e he =>
      subst h
      exact absurd hr (coversName_error he).not_ok_or_erange
    next covered hcovered =>
    split at h
    · next hc =>
      have hcov := covers_of_coversName (hc ▸ hcovered)
      subst h
      cases hopt : hasOptout rr
      · exact ⟨rr, List.mem_cons_self, htype, hcov, by simp [hopt, knotErange_ne_krOk.symm]⟩
      · exact ⟨rr, List.mem_cons_self, htype, hcov, by simp [hopt]⟩
    · obtain ⟨rr', hmem, hrest⟩ := coverOptoutLoop_covers h hr
      exact ⟨rr', List.mem_cons_of_mem _ hmem, hrest⟩

/-- What `kr_nsec3_name_error_response_check` returning `0` or `KNOT_ERANGE` establishes about
the section: a closest encloser proof with `rrN` covering the next closer name, and an NSEC3
`rrW` covering the wildcard at the encloser; the answer is `KNOT_ERANGE` exactly when one of the
two covering records has opt-out. -/
theorem krNsec3NameErrorResponseCheck_proof {sec : List Rrset} {sname : Dname} {r : Int}
    (h : krNsec3NameErrorResponseCheck c sec sname = r) (hr : r = krOk ∨ r = knotErange) :
    ∃ nc rrN rrW, EncloserProof c sec sname nc rrN ∧ rrW ∈ sec ∧
      rrW.type = knotRrtypeNsec3 ∧ Covers c rrW (asteriskLabel :: nc.tail) ∧
      (r = knotErange ↔ (hasOptout rrN || hasOptout rrW) = true) := by
  unfold krNsec3NameErrorResponseCheck at h
  split at h
  · next e he =>
    subst h
    exact absurd hr (closestEncloserProof_error he).not_ok_or_erange
  next encloser matching covering hproof =>
  obtain ⟨nc, rrN, rfl, rfl, hnc⟩ := closestEncloserProof_ok hproof
  have hwild : coversClosestEncloserWildcard c sec (some nc.tail) =
      coverOptoutLoop c (asteriskLabel :: nc.tail) sec := rfl
  dsimp only at h
  split at h
  · -- the wildcard's covering record has opt-out
    next hne =>
    subst h
    have hret : coverOptoutLoop c (asteriskLabel :: nc.tail) sec = knotErange :=
      hwild ▸ hr.resolve_left hne
    obtain ⟨rrW, hmem, htype, hcov, hiff⟩ := coverOptoutLoop_covers hret (.inr rfl)
    have hW : hasOptout rrW = true := hiff.mp rfl
    exact ⟨nc, rrN, rrW, hnc, hmem, htype, hcov, by simp [hwild, hW, hret]⟩
  · -- no opt-out at the wildcard: the answer is that of the next closer name's cover
    next hzero =>
    have hret : coverOptoutLoop c (asteriskLabel :: nc.tail) sec = krOk :=
      hwild ▸ not_not.mp hzero
    obtain ⟨rrW, hmem, htype, hcov, hiff⟩ := coverOptoutLoop_covers hret (.inl rfl)
    have hW : hasOptout rrW = false := by simpa [knotErange_ne_krOk.symm] using hiff
    refine ⟨nc, rrN, rrW, hnc, hmem, htype, hcov, ?_⟩
    subst h
    cases hN : hasOptout rrN
    · simp [hN, hW, knotErange_ne_krOk.symm]
    · simp [hN]

end Spec

end Nsec3

end KnotResolver
