import KnotResolver.Dnssec.Nsec3

/-!
# NSEC3-signed zones and their hashed chains

An NSEC3-signed zone is given by its apex, its existing names (owners and empty non-terminals,
closed under ancestors down to the apex) and one NSEC3 parameter set; `Nsec3Zone.hash` hashes a
name under those parameters. The chain is the sorted list of the hashes of the existing names. An
NSEC3 RRset is *from the chain* when its owner label decodes to the hash of one position and its
next hash is the hash of the following position, the first one after the last.

For sections whose NSEC3 RRsets come from the chain, a name covered by one of them does not exist
(`not_mem_of_covers`), and a name matched by one exists as soon as hashing tells it apart from the
zone's names (`mem_of_matches`). Together with the spec of the checks in `Nsec3.lean`,
`kr_nsec3_name_error_response_check` returning `0` proves a name error: the closest encloser
exists, and neither the next closer name, nor the query name, nor the wildcard at the closest
encloser does; when it returns `KNOT_ERANGE`, the same holds and one of the covering records has
opt-out (`nameErrorResponseCheck_sound`).
-/

namespace KnotResolver.Nsec3

/-- An NSEC3-signed zone with its chain of hashes. -/
structure Nsec3Zone (c : Nsec3Crypto) where
  apex : Dname
  names : List Dname
  algorithm : UInt8
  iterations : UInt16
  salt : List UInt8
  hashes : List (List UInt8)
  sorted : hashes.Pairwise (List.compareLex compare · · = .lt)
  hashes_of_names : ∀ h ∈ hashes, ∃ n ∈ names, c.nsec3Hash algorithm iterations salt n = some h
  names_hashed : ∀ n ∈ names, ∃ h ∈ hashes, c.nsec3Hash algorithm iterations salt n = some h
  below_apex : ∀ n ∈ names, apex <:+ n
  ancestor_closed : ∀ n ∈ names, ∀ m ∈ n.tails, apex <:+ m → m ∈ names

namespace Nsec3Zone

variable {c : Nsec3Crypto} (z : Nsec3Zone c)

/-- Hashing under the zone's parameters. -/
def hash (n : Dname) : Option (List UInt8) := c.nsec3Hash z.algorithm z.iterations z.salt n

/-- An NSEC3 RRset of the chain: its owner label decodes to the hash of position `i`, and its
record carries the zone's parameters and the hash of the next position, with any flags and
type bitmap. -/
def FromChain (rr : Rrset) : Prop :=
  ∃ (i : Nat) (hi : i < z.hashes.length) (flags : UInt8) (bitmap : List UInt16),
    c.base32hexDecode (rr.owner.headD []) = some z.hashes[i] ∧
      rr.rdata = .nsec3 z.algorithm flags z.iterations z.salt (z.hashes.succAt i hi) bitmap

/-- Every NSEC3 RRset of the section is from the chain. -/
def SectionFromChain (sec : List Rrset) : Prop :=
  ∀ rr ∈ sec, rr.type = knotRrtypeNsec3 → z.FromChain rr

/-- Hashing tells the ancestors-or-self of `sname` apart from the zone's other names. -/
def HashInjective (sname : Dname) : Prop :=
  ∀ a ∈ sname.tails, ∀ n ∈ z.names, z.hash a = z.hash n → a = n

instance (sname : Dname) : Decidable (z.HashInjective sname) :=
  inferInstanceAs (Decidable (∀ a ∈ sname.tails, ∀ n ∈ z.names, z.hash a = z.hash n → a = n))

/-- What a name error proves in the zone: the next closer name `nc` is an ancestor-or-self of
`sname`, its parent `ce` exists, and neither `nc`, nor `sname`, nor `*.ce` does. -/
structure NameErrorProved (sname ce nc : Dname) : Prop where
  nextCloser_suffix : nc <:+ sname
  nextCloser_parent : nc.tail = ce
  nextCloser_ne_nil : nc ≠ []
  encloser_exists : ce ∈ z.names
  nextCloser_absent : nc ∉ z.names
  sname_absent : sname ∉ z.names
  wildcard_absent : asteriskLabel :: ce ∉ z.names

variable {z}

/-- What a chain record gives the checks: the owner hash of a position, parameters under which
hashing is the zone's, and the next position's hash. -/
theorem FromChain.spec {rr : Rrset} (hrr : z.FromChain rr) :
    ∃ (i : Nat) (hi : i < z.hashes.length), readOwnerHash c rr = .ok z.hashes[i] ∧
      (∀ params n h, nsec3Parameters rr = .ok params → hashName c params n = .ok h →
        z.hash n = some h) ∧
      rr.rdata.knotNsec3Next = z.hashes.succAt i hi := by
  obtain ⟨i, hi, flags, bitmap, hdec, hrd⟩ := hrr
  refine ⟨i, hi, readOwnerHash_eq_ok.mpr hdec, ?_, by simp [hrd, Rdata.knotNsec3Next]⟩
  intro params n h hparams hhash
  rw [nsec3Parameters_of_rdata hrd, Except.ok.injEq] at hparams
  subst hparams
  exact hashName_eq_ok.mp hhash

/-- A name covered by an NSEC3 of the chain does not exist: its hash lies strictly inside an arc
of the sorted chain, so it is no name's hash. -/
theorem not_mem_of_covers {rr : Rrset} (hrr : z.FromChain rr) {n : Dname}
    (hcov : Covers c rr n) : n ∉ z.names := by
  obtain ⟨i, hi, hown, hhash, hnext⟩ := hrr.spec
  obtain ⟨ownerHash, params, nameHash, hown', hparams, hname, harc⟩ := hcov
  rw [hown, Except.ok.injEq] at hown'
  subst hown'
  rw [hnext] at harc
  have hnot : nameHash ∉ z.hashes := List.not_mem_of_arcContains z.sorted hi harc
  intro hn
  obtain ⟨h, hmem, hh⟩ := z.names_hashed n hn
  have hsame : h = nameHash := Option.some.inj (hh.symm.trans (hhash params n nameHash hparams hname))
  exact hnot (hsame ▸ hmem)

/-- A name matched by an NSEC3 of the chain exists when hashing tells it apart from the zone's
names. -/
theorem mem_of_matches {rr : Rrset} (hrr : z.FromChain rr) {n : Dname} (hm : Matches c rr n)
    (hinj : ∀ m ∈ z.names, z.hash n = z.hash m → n = m) : n ∈ z.names := by
  obtain ⟨i, hi, hown, hhash, -⟩ := hrr.spec
  obtain ⟨ownerHash, params, hown', hparams, hname⟩ := hm
  rw [hown, Except.ok.injEq] at hown'
  subst hown'
  obtain ⟨m, hm, hmh⟩ := z.hashes_of_names _ (List.getElem_mem hi)
  have hnh : z.hash n = z.hash m := (hhash params n _ hparams hname).trans hmh.symm
  exact hinj m hm hnh ▸ hm

/-- A descendant of a missing name below the apex is missing too. -/
theorem not_mem_of_suffix {n s : Dname} (hn : n ∉ z.names) (hapex : z.apex <:+ n) (hs : n <:+ s) :
    s ∉ z.names :=
  fun hmem => hn (z.ancestor_closed s hmem n ((List.mem_tails n s).mpr hs) hapex)

variable {sec : List Rrset} {sname : Dname}

/-- The closest encloser proof and the wildcard cover found by the checks, read in the zone. -/
theorem nameErrorProved_of_proof (hsec : z.SectionFromChain sec) (hinj : z.HashInjective sname)
    {nc : Dname} {rrN rrW : Rrset} (hproof : EncloserProof c sec sname nc rrN) (hW : rrW ∈ sec)
    (htype : rrW.type = knotRrtypeNsec3) (hcov : Covers c rrW (asteriskLabel :: nc.tail)) :
    z.NameErrorProved sname nc.tail nc := by
  obtain ⟨rrM, hM, htypeM, hmatch⟩ := hproof.matching
  have hce_suffix : nc.tail <:+ sname := (List.tail_suffix nc).trans hproof.suffix
  have hce : nc.tail ∈ z.names :=
    mem_of_matches (hsec rrM hM htypeM) hmatch (hinj _ ((List.mem_tails _ _).mpr hce_suffix))
  have hnc : nc ∉ z.names :=
    not_mem_of_covers (hsec rrN hproof.covering_mem hproof.covering_type) hproof.covers
  have hapex : z.apex <:+ nc := (z.below_apex _ hce).trans (List.tail_suffix nc)
  exact ⟨hproof.suffix, rfl, hproof.ne_nil, hce, hnc, not_mem_of_suffix hnc hapex hproof.suffix,
    not_mem_of_covers (hsec rrW hW htype) hcov⟩

theorem nameErrorResponseCheck_sound (z : Nsec3Zone c) (hsec : z.SectionFromChain sec)
    (hinj : z.HashInjective sname) :
    (krNsec3NameErrorResponseCheck c sec sname = krOk →
      ∃ ce nc, z.NameErrorProved sname ce nc) ∧
    (krNsec3NameErrorResponseCheck c sec sname = knotErange →
      ∃ ce nc, z.NameErrorProved sname ce nc ∧
        ∃ rr ∈ sec, rr.type = knotRrtypeNsec3 ∧ rr.rdata.knotNsec3Flags &&& optOutBit ≠ 0 ∧
          (Covers c rr nc ∨ Covers c rr (asteriskLabel :: ce))) := by
  constructor
  · intro h
    obtain ⟨nc, rrN, rrW, hproof, hW, htype, hcov, -⟩ :=
      krNsec3NameErrorResponseCheck_proof h (.inl rfl)
    exact ⟨_, nc, nameErrorProved_of_proof hsec hinj hproof hW htype hcov⟩
  · intro h
    obtain ⟨nc, rrN, rrW, hproof, hW, htype, hcov, hopt⟩ :=
      krNsec3NameErrorResponseCheck_proof h (.inr rfl)
    refine ⟨_, nc, nameErrorProved_of_proof hsec hinj hproof hW htype hcov, ?_⟩
    -- one of the two covering records has opt-out
    rcases Bool.or_eq_true_iff.mp (hopt.mp rfl) with hN | hW'
    · exact ⟨rrN, hproof.covering_mem, hproof.covering_type, optOut_of_hasOptout hN,
        .inl hproof.covers⟩
    · exact ⟨rrW, hW, htype, optOut_of_hasOptout hW', .inr hcov⟩

/-- A hash for tests: the label count and the first byte of the first label; owner labels are
their own encoding. -/
def toyCrypto : Nsec3Crypto where
  nsec3Hash _ _ _ n := some [n.length.toUInt8, (n.headD []).headD 0]
  base32hexDecode l := some l

/-- The zone `ex.` with the one other name `b.ex.`. -/
def toyZone : Nsec3Zone toyCrypto where
  apex := [[0x65, 0x78]]
  names := [[[0x65, 0x78]], [[0x62], [0x65, 0x78]]]
  algorithm := 1
  iterations := 0
  salt := []
  hashes := [[1, 0x65], [2, 0x62]]
  sorted := by decide
  hashes_of_names := by decide
  names_hashed := by decide
  below_apex := by decide
  ancestor_closed := by decide

/-- The two records of the chain of `toyZone`, the apex's first. -/
def toySection : List Rrset :=
  [⟨[[1, 0x65], [0x65, 0x78]], knotRrtypeNsec3, knotClassIn, 0,
      [.nsec3 1 0 0 [] [2, 0x62] [knotRrtypeNs, knotRrtypeSoa]]⟩,
    ⟨[[2, 0x62], [0x65, 0x78]], knotRrtypeNsec3, knotClassIn, 0,
      [.nsec3 1 0 0 [] [1, 0x65] [knotRrtypeA]]⟩]

theorem toySection_fromChain : toyZone.SectionFromChain toySection := by
  intro rr hrr _
  simp only [toySection, List.mem_cons, List.not_mem_nil, or_false] at hrr
  rcases hrr with rfl | rfl
  · exact ⟨0, by decide, 0, _, rfl, rfl⟩
  · exact ⟨1, by decide, 0, _, rfl, rfl⟩

/-- The query `a.ex.` gets a name error, proved by the apex's record covering both `a.ex.` and
`*.ex.`. -/
theorem toyZone_name_error :
    toyZone.SectionFromChain toySection ∧ toyZone.HashInjective [[0x61], [0x65, 0x78]] ∧
      krNsec3NameErrorResponseCheck toyCrypto toySection [[0x61], [0x65, 0x78]] = krOk ∧
      ∃ ce nc, toyZone.NameErrorProved [[0x61], [0x65, 0x78]] ce nc :=
  ⟨toySection_fromChain, by decide, by decide,
    (nameErrorResponseCheck_sound toyZone toySection_fromChain (by decide)).1 (by decide)⟩

end Nsec3Zone

end KnotResolver.Nsec3
