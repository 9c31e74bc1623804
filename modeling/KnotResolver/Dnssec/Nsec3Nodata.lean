import KnotResolver.Cache.Unpack
import KnotResolver.Dnssec.Nsec3Zone

/-!
# NSEC3 proofs of no data (`lib/dnssec/nsec3.c`)

`kr_nsec3_no_data` accepts a NODATA answer for `sname` and `stype` in two ways (RFC 5155 8.5 to
8.7): an NSEC3 of the section matches `sname` and its type bitmap proves that `stype` is not
there (`nodata_find`); or a closest encloser proof for `sname` holds and an NSEC3 matches the
wildcard at the closest encloser with such a bitmap. Opt-out on the record covering the next
closer name turns the answer into `KNOT_ERANGE`.

Over a zone whose NSEC3 records list the types their names own, an answer of `0` is sound: either
`sname` exists without an RRset of `stype`, or it does not exist and the wildcard at its closest
encloser exists without one (`noData_sound`).
-/

namespace KnotResolver.Nsec3

open Nsec

/-- libknot's `KNOT_ESPACE`. -/
def knotEspace : Int := -995

section Checks

variable (c : Nsec3Crypto)

/-- `matches_name`: `0` when the NSEC3's owner hash is the hash of `name` under its parameters,
`ENOENT` (positive) when it is another, or the error of reading or hashing. -/
def matchesName (nsec3 : Rrset) (name : Dname) : Int :=
  match readOwnerHash c nsec3 with
  | .error e => e
  | .ok ownerHash =>
    match nsec3Parameters nsec3 with
    | .error e => e
    | .ok params =>
      match hashName c params name with
      | .error e => e
      | .ok nameHash => if ownerHash = nameHash then krOk else ENOENT

/-- `nodata_find`: an NSEC3 of the section matching `name` whose bitmap proves that `type` is not
there; records causing errors are skipped. -/
def nodataFind (name : Dname) (type : UInt16) : List Rrset → Int
  | [] => krError ENOENT
  | nsec3 :: rest =>
    if nsec3.type ≠ knotRrtypeNsec3 ∨ matchesName c nsec3 name ≠ krOk then
      nodataFind name type rest
    else if krNsecBitmapNodataCheck nsec3.rdata.bitmap type nsec3.owner = krOk then krOk
    else nodataFind name type rest

/-- `prepend_asterisk` into a buffer of `KNOT_DNAME_MAXLEN` bytes: the label `*`, then the name as
`knot_dname_to_wire` writes it into what is left. -/
def prependAsterisk (name : Dname) : Except Int Dname :=
  if (Ta.knotDnameWire name).length > Cache.knotDnameMaxlen - 2 then .error knotEspace
  else .ok (asteriskLabel :: name)

/-- `matches_closest_encloser_wildcard`. -/
def matchesClosestEncloserWildcard (sec : List Rrset) (encloser : Option Dname)
    (stype : UInt16) : Int :=
  match encloser with
  | none => krError EINVAL
  | some encloser =>
    match prependAsterisk encloser with
    | .error e => e
    | .ok wildcard => nodataFind c wildcard stype sec

/-- `kr_nsec3_no_data`. -/
def krNsec3NoData (sec : List Rrset) (sname : Dname) (stype : UInt16) : Int :=
  -- a DS may be matched by an existing NSEC3 as well
  let ret := nodataFind c sname stype sec
  if ret = 0 then ret
  else
    match closestEncloserProof c sec sname with
    | .error e => e
    | .ok (encloser, _, coveringNext) =>
      let optout := (coveringNext.map hasOptout).getD false
      let ret := matchesClosestEncloserWildcard c sec encloser stype
      -- with opt-out the answer must not get the AD bit (RFC 5155 9.2)
      if ret = 0 then (if optout then krError knotErange else ret)
      -- a wildcard empty non-terminal from an insecure delegation proceeds insecure
      else if !optout then krError ENOENT else krError knotErange

end Checks

/-! ## What the check establishes about the section -/

section Spec

variable {c : Nsec3Crypto}

/-- A bitmap that passes the NODATA test does not list the type. -/
theorem not_mem_of_nodataCheck {bm : List UInt16} {t : UInt16} {o : Dname}
    (h : krNsecBitmapNodataCheck bm t o = krOk) : t ∉ bm := by
  intro ht
  unfold krNsecBitmapNodataCheck at h
  simp [dnssecNsecBitmapContains, ht, ENOENT, krOk] at h

/-- `matches_name` answers `0` only for a name the record matches. -/
theorem matches_of_matchesName {rr : Rrset} {name : Dname} (h : matchesName c rr name = krOk) :
    Matches c rr name := by
  unfold matchesName at h
  cases hown : readOwnerHash c rr with
  | error e =>
    simp only [hown] at h
    exact absurd (.inl h) (readOwnerHash_error hown).not_ok_or_erange
  | ok ownerHash =>
    cases hparams : nsec3Parameters rr with
    | error e =>
      simp only [hown, hparams] at h
      exact absurd (.inl h) (nsec3Parameters_error hparams).not_ok_or_erange
    | ok params =>
      cases hhash : hashName c params name with
      | error e =>
        simp only [hown, hparams, hhash] at h
        exact absurd (.inl h) (hashName_error hhash).not_ok_or_erange
      | ok nameHash =>
        simp only [hown, hparams, hhash] at h
        split_ifs at h with heq
        · exact ⟨ownerHash, params, hown, hparams, heq ▸ hhash⟩
        · exact absurd h (by decide)

/-- `nodata_find` answers `0` only at an NSEC3 of the section that matches the name and whose
bitmap passes the NODATA test for the type. -/
theorem nodataFind_ok {name : Dname} {type : UInt16} :
    ∀ {sec : List Rrset}, nodataFind c name type sec = krOk →
      ∃ rr ∈ sec, rr.type = knotRrtypeNsec3 ∧ Matches c rr name ∧
        krNsecBitmapNodataCheck rr.rdata.bitmap type rr.owner = krOk
  | [], h => by
    unfold nodataFind at h
    exact absurd h (by decide)
  | rr :: rest, h => by
    unfold nodataFind at h
    split_ifs at h with hskip hcheck
    · obtain ⟨rr', hmem, hrest⟩ := nodataFind_ok h
      exact ⟨rr', List.mem_cons_of_mem _ hmem, hrest⟩
    · simp only [not_or, ne_eq, not_not] at hskip
      exact ⟨rr, List.mem_cons_self, hskip.1, matches_of_matchesName hskip.2, hcheck⟩
    · obtain ⟨rr', hmem, hrest⟩ := nodataFind_ok h
      exact ⟨rr', List.mem_cons_of_mem _ hmem, hrest⟩

theorem matchesClosestEncloserWildcard_ok {sec : List Rrset} {encloser : Option Dname}
    {stype : UInt16} (h : matchesClosestEncloserWildcard c sec encloser stype = krOk) :
    ∃ ce, encloser = some ce ∧ nodataFind c (asteriskLabel :: ce) stype sec = krOk := by
  unfold matchesClosestEncloserWildcard at h
  cases encloser with
  | none =>
    simp only at h
    exact absurd h (by decide)
  | some ce =>
    unfold prependAsterisk at h
    simp only at h
    split_ifs at h
    · simp only at h
      exact absurd h (by decide)
    · exact ⟨ce, rfl, h⟩

/-- What `kr_nsec3_no_data` answering `0` establishes about the section: an NSEC3 matching
`sname` whose bitmap passes the NODATA test for `stype`; or a closest encloser proof whose
covering record has no opt-out, with an NSEC3 matching the wildcard at the closest encloser
whose bitmap passes it. -/
theorem krNsec3NoData_proof {sec : List Rrset} {sname : Dname} {stype : UInt16}
    (h : krNsec3NoData c sec sname stype = krOk) :
    (∃ rr ∈ sec, rr.type = knotRrtypeNsec3 ∧ Matches c rr sname ∧
        krNsecBitmapNodataCheck rr.rdata.bitmap stype rr.owner = krOk) ∨
      ∃ nc rrN, EncloserProof c sec sname nc rrN ∧ hasOptout rrN = false ∧
        ∃ rr ∈ sec, rr.type = knotRrtypeNsec3 ∧ Matches c rr (asteriskLabel :: nc.tail) ∧
          krNsecBitmapNodataCheck rr.rdata.bitmap stype rr.owner = krOk := by
  unfold krNsec3NoData at h
  dsimp only at h
  split_ifs at h with hfind
  · exact .inl (nodataFind_ok hfind)
  split at h
  · next e he => exact absurd (.inl h) (closestEncloserProof_error he).not_ok_or_erange
  next encloser matching covering hproof =>
  obtain ⟨nc, rrN, rfl, rfl, hnc⟩ := closestEncloserProof_ok hproof
  simp only [Option.map_some, Option.getD_some] at h
  split_ifs at h with hwild hopt hopt'
  · exact absurd h (by decide)
  · obtain ⟨ce, hce, hfind'⟩ := matchesClosestEncloserWildcard_ok hwild
    obtain rfl : ce = nc.tail := (Option.some.inj hce).symm
    obtain ⟨rr, hmem, hrest⟩ := nodataFind_ok hfind'
    exact .inr ⟨nc, rrN, hnc, by simpa using hopt, rr, hmem, hrest⟩
  · exact absurd h (by decide)
  · exact absurd h (by decide)

end Spec

/-! ## Soundness in a zone that lists its types -/

namespace Nsec3Zone

variable {c : Nsec3Crypto} {z : Nsec3Zone c} {sec : List Rrset} {sname : Dname}

/-- A closest encloser proof read in the zone: the encloser exists, and neither the next closer
name nor `sname` does. -/
theorem encloser_of_proof (hsec : z.SectionFromChain sec) (hinj : z.HashInjective sname)
    {nc : Dname} {rrN : Rrset} (hproof : EncloserProof c sec sname nc rrN) :
    nc.tail ∈ z.names ∧ nc ∉ z.names ∧ sname ∉ z.names := by
  obtain ⟨rrM, hM, htypeM, hmatch⟩ := hproof.matching
  have hce_suffix : nc.tail <:+ sname := (List.tail_suffix nc).trans hproof.suffix
  have hce : nc.tail ∈ z.names :=
    mem_of_matches (hsec rrM hM htypeM) hmatch (hinj _ ((List.mem_tails _ _).mpr hce_suffix))
  have hnc : nc ∉ z.names :=
    not_mem_of_covers (hsec rrN hproof.covering_mem hproof.covering_type) hproof.covers
  have hapex : z.apex <:+ nc := (z.below_apex _ hce).trans (List.tail_suffix nc)
  exact ⟨hce, hnc, not_mem_of_suffix hnc hapex hproof.suffix⟩

end Nsec3Zone

/-- An NSEC3-signed zone whose names own RRsets of the types `types n`; an empty non-terminal
owns none. -/
structure Nsec3TypedZone (c : Nsec3Crypto) extends Nsec3Zone c where
  types : Dname → List UInt16

namespace Nsec3TypedZone

variable {c : Nsec3Crypto} (z : Nsec3TypedZone c)

/-- The zone holds an RRset of type `t` at `n`. -/
def HasRrset (n : Dname) (t : UInt16) : Prop := n ∈ z.names ∧ t ∈ z.types n

/-- An NSEC3 RRset of the chain that lists its name's types: the record of position `i`, whose
hash is that of the name `n` of the zone, with the types of `n` in its bitmap (RFC 5155 3.1.8). -/
def FromChain (rr : Rrset) : Prop :=
  ∃ (i : Nat) (hi : i < z.hashes.length) (flags : UInt8) (n : Dname), n ∈ z.names ∧
    z.hash n = some z.hashes[i] ∧ c.base32hexDecode (rr.owner.headD []) = some z.hashes[i] ∧
      rr.rdata = .nsec3 z.algorithm flags z.iterations z.salt (z.hashes.succAt i hi) (z.types n)

/-- Every NSEC3 RRset of the section is from the chain. -/
def SectionFromChain (sec : List Rrset) : Prop :=
  ∀ rr ∈ sec, rr.type = knotRrtypeNsec3 → z.FromChain rr

/-- Hashing tells the names a no-data proof for `sname` may match apart from the zone's names:
the ancestors-or-self of `sname`, and the wildcards below them. -/
def NodataHashInjective (sname : Dname) : Prop :=
  z.HashInjective sname ∧ ∀ a ∈ sname.tails, z.HashInjective (asteriskLabel :: a)

instance (sname : Dname) : Decidable (z.NodataHashInjective sname) :=
  inferInstanceAs (Decidable
    (z.HashInjective sname ∧ ∀ a ∈ sname.tails, z.HashInjective (asteriskLabel :: a)))

variable {z} {sec : List Rrset}

theorem SectionFromChain.toChain (hsec : z.SectionFromChain sec) :
    z.toNsec3Zone.SectionFromChain sec := by
  intro rr hrr htype
  obtain ⟨i, hi, flags, n, -, -, hdec, hrd⟩ := hsec rr hrr htype
  exact ⟨i, hi, flags, z.types n, hdec, hrd⟩

/-- The chain record matching a name that hashing tells apart from the zone's names is that
name's own record: the name exists and the record lists its types. -/
theorem bitmap_of_matches {rr : Rrset} (hrr : z.FromChain rr) {n : Dname} (hm : Matches c rr n)
    (hinj : ∀ m ∈ z.names, z.hash n = z.hash m → n = m) :
    n ∈ z.names ∧ rr.rdata.bitmap = z.types n := by
  obtain ⟨i, hi, flags, m, hm', hmh, hdec, hrd⟩ := hrr
  obtain ⟨ownerHash, params, hown, hparams, hhash⟩ := hm
  have hown' : ownerHash = z.hashes[i] :=
    Option.some.inj ((readOwnerHash_eq_ok.mp hown).symm.trans hdec)
  rw [nsec3Parameters_of_rdata hrd, Except.ok.injEq] at hparams
  subst hparams hown'
  have hnh : z.hash n = z.hash m := (hashName_eq_ok.mp hhash).trans hmh.symm
  obtain rfl := hinj m hm' hnh
  exact ⟨hm', by simp [hrd, Rdata.bitmap]⟩

/-- `kr_nsec3_no_data` answering `0` proves NODATA in the zone: `sname` has no RRset of `stype`.
Either `sname` exists and owns no such RRset, or it does not exist (its next closer name `nc` is
missing below the existing closest encloser `nc.tail`) and the wildcard at the closest encloser
exists without an RRset of `stype`, so that none can be synthesised. -/
theorem noData_sound (z : Nsec3TypedZone c) {sname : Dname} {stype : UInt16}
    (hsec : z.SectionFromChain sec) (hinj : z.NodataHashInjective sname)
    (h : krNsec3NoData c sec sname stype = krOk) :
    ¬z.HasRrset sname stype ∧
      (sname ∈ z.names ∨ ∃ nc, nc <:+ sname ∧ nc ≠ [] ∧ nc.tail ∈ z.names ∧ nc ∉ z.names ∧
        asteriskLabel :: nc.tail ∈ z.names ∧ stype ∉ z.types (asteriskLabel :: nc.tail)) := by
  have hself : ∀ n : Dname, n ∈ n.tails := fun n => (List.mem_tails _ _).mpr (List.suffix_refl n)
  rcases krNsec3NoData_proof h with ⟨rr, hmem, htype, hm, hcheck⟩ |
      ⟨nc, rrN, hproof, -, rr, hmem, htype, hm, hcheck⟩
  · -- the NSEC3 of `sname` itself
    obtain ⟨hn, hbm⟩ := bitmap_of_matches (hsec rr hmem htype) hm (hinj.1 sname (hself sname))
    have hnot : stype ∉ z.types sname := hbm ▸ not_mem_of_nodataCheck hcheck
    exact ⟨fun hrr => hnot hrr.2, .inl hn⟩
  · -- a closest encloser proof, and the NSEC3 of the wildcard at the closest encloser
    obtain ⟨hce, hnc, hsname⟩ := Nsec3Zone.encloser_of_proof hsec.toChain hinj.1 hproof
    have hce_tail : nc.tail ∈ sname.tails :=
      (List.mem_tails _ _).mpr ((List.tail_suffix nc).trans hproof.suffix)
    obtain ⟨hw, hbm⟩ := bitmap_of_matches (hsec rr hmem htype) hm
      (hinj.2 nc.tail hce_tail _ (hself _))
    exact ⟨fun hrr => hsname hrr.1, .inr ⟨nc, hproof.suffix, hproof.ne_nil, hce, hnc, hw,
      hbm ▸ not_mem_of_nodataCheck hcheck⟩⟩

/-- `toyZone` with the types of its names: NS and SOA at the apex, A at `b.ex.`. -/
def toyTypedZone : Nsec3TypedZone Nsec3Zone.toyCrypto :=
  { Nsec3Zone.toyZone with
    types := fun n => if n = [[0x65, 0x78]] then [knotRrtypeNs, knotRrtypeSoa]
      else if n = [[0x62], [0x65, 0x78]] then [knotRrtypeA] else [] }

theorem toySection_fromTypedChain : toyTypedZone.SectionFromChain Nsec3Zone.toySection := by
  intro rr hrr _
  simp only [Nsec3Zone.toySection, List.mem_cons, List.not_mem_nil, or_false] at hrr
  rcases hrr with rfl | rfl
  · exact ⟨0, by decide, 0, [[0x65, 0x78]], by decide, rfl, rfl, rfl⟩
  · exact ⟨1, by decide, 0, [[0x62], [0x65, 0x78]], by decide, rfl, rfl, rfl⟩

/-- The query `b.ex.` AAAA gets a NODATA answer from the record of `b.ex.`. -/
theorem noData_sound_toy :
    toyTypedZone.SectionFromChain Nsec3Zone.toySection ∧
      toyTypedZone.NodataHashInjective [[0x62], [0x65, 0x78]] ∧
      krNsec3NoData Nsec3Zone.toyCrypto Nsec3Zone.toySection [[0x62], [0x65, 0x78]]
        knotRrtypeAaaa = krOk ∧
      ¬toyTypedZone.HasRrset [[0x62], [0x65, 0x78]] knotRrtypeAaaa ∧
      ([[0x62], [0x65, 0x78]] ∈ toyTypedZone.names ∨ ∃ nc, nc <:+ [[0x62], [0x65, 0x78]] ∧
        nc ≠ [] ∧ nc.tail ∈ toyTypedZone.names ∧ nc ∉ toyTypedZone.names ∧
        asteriskLabel :: nc.tail ∈ toyTypedZone.names ∧
        knotRrtypeAaaa ∉ toyTypedZone.types (asteriskLabel :: nc.tail)) :=
  ⟨toySection_fromTypedChain, by decide, by decide,
    noData_sound toyTypedZone toySection_fromTypedChain (by decide) (by decide)⟩

/-- The zone `ex.` with a wildcard `*.ex.` owning A and a name `b.ex.`; `a.ex.` AAAA is denied by
the closest encloser `ex.`, the cover of `a.ex.` and the wildcard's record. -/
example : krNsec3NoData Nsec3Zone.toyCrypto
    [⟨[[1, 0x65], [0x65, 0x78]], knotRrtypeNsec3, knotClassIn, 0,
        [.nsec3 1 0 0 [] [2, 0x2a] [knotRrtypeNs, knotRrtypeSoa]]⟩,
      ⟨[[2, 0x2a], [0x65, 0x78]], knotRrtypeNsec3, knotClassIn, 0,
        [.nsec3 1 0 0 [] [2, 0x62] [knotRrtypeA]]⟩]
    [[0x61], [0x65, 0x78]] knotRrtypeAaaa = krOk := by
  decide

end Nsec3TypedZone

end KnotResolver.Nsec3
