import KnotResolver.Ring
import KnotResolver.Fold
import KnotResolver.Dnssec.Nsec

/-!
# Signed zones and their NSEC chains

A signed zone is given by its apex and its owner names, sorted in canonical order with the apex
first, each owning the RRsets of the types `types o`. A name *exists* when it is at or below the
apex and at or above some owner (it owns RRsets, or it is an empty non-terminal). The NSEC chain
links each owner to the next one and the last back to the apex; an NSEC RRset is *from the chain*
when it is the record of one position of it.

For sections whose NSECs come from the chain, `nsec_covers` only accepts names that own no
RRset (`not_owner_of_nsecCovers`), and from this the checks of `nsec.c` give:

* `kr_nsec_name_error_response_check` returning `0` proves that `sname` owns no RRset and that
  `*.a` owns none for some strict ancestor `a` of `sname`;
* `kr_nsec_existence_denial` returning `0` proves that `sname` owns no RRset of type `stype`.

Neither proves more: `nsec_covers` also accepts an empty non-terminal `sname` (the next name
lies below it), and the wildcard flags may be set by the wildcard of any ancestor, or by any NSEC
whose RRSIG label count equals its owner's. `name_error_wildcard_exists` shows both checks
returning `0` where the closest encloser's wildcard exists.
-/

namespace KnotResolver.Nsec

/-- A signed zone: apex and canonically sorted owner names with the types they own. -/
structure NsecZone where
  apex : Dname
  owners : List Dname
  types : Dname → List UInt16
  sorted : owners.Pairwise (knotDnameCmp · · = .lt)
  head_apex : owners.head? = some apex
  below_apex : ∀ o ∈ owners, apex <:+ o
  lower_case : ∀ o ∈ owners, knotDnameToLower o = o

namespace NsecZone

variable (z : NsecZone)

/-- `n` exists: it is at or below the apex and owns RRsets or is an empty non-terminal. -/
def Exists (n : Dname) : Prop := z.apex <:+ n ∧ ∃ o ∈ z.owners, n <:+ o

/-- The zone holds an RRset of type `t` at `n`. -/
def HasRrset (n : Dname) (t : UInt16) : Prop := n ∈ z.owners ∧ t ∈ z.types n

/-- The NSEC record of position `i` of the chain. -/
def chainRdata (i : Nat) (hi : i < z.owners.length) : Rdata :=
  .nsec (z.owners.succAt i hi) (z.types z.owners[i])

instance (n : Dname) : Decidable (z.Exists n) :=
  inferInstanceAs (Decidable (z.apex <:+ n ∧ ∃ o ∈ z.owners, n <:+ o))

instance (n : Dname) (t : UInt16) : Decidable (z.HasRrset n t) :=
  inferInstanceAs (Decidable (n ∈ z.owners ∧ t ∈ z.types n))

/-- An NSEC RRset of the chain: the owner and record of one position. -/
def FromChain (rr : Rrset) : Prop :=
  ∃ (i : Nat) (hi : i < z.owners.length), rr.owner = z.owners[i] ∧ rr.rdata = z.chainRdata i hi

/-- Every NSEC RRset of the section is from the chain. -/
def SectionFromChain (sec : List Rrset) : Prop :=
  ∀ rr ∈ sec, rr.type = knotRrtypeNsec → z.FromChain rr

end NsecZone

/-- The label count of an RRSIG over records owned by `o` (RFC 4034 3.1.3): a leading `*` is
not counted. -/
def rrsigLabelCount (o : Dname) : Nat := if knotDnameIsWildcard o then o.length - 1 else o.length

/-- The RRSIGs covering NSEC in the section carry the label count of their owner. -/
def RrsigLabelsCorrect (sec : List Rrset) : Prop :=
  ∀ rr ∈ sec, rr.type = knotRrtypeRrsig → ∀ rd ∈ rr.rrs,
    rd.knotRrsigTypeCovered = knotRrtypeNsec → rd.knotRrsigLabels.toNat = rrsigLabelCount rr.owner

instance (sec : List Rrset) : Decidable (RrsigLabelsCorrect sec) :=
  inferInstanceAs (Decidable (∀ rr ∈ sec, rr.type = knotRrtypeRrsig → ∀ rd ∈ rr.rrs,
    rd.knotRrsigTypeCovered = knotRrtypeNsec → rd.knotRrsigLabels.toNat = rrsigLabelCount rr.owner))

/-! ## What one NSEC proves -/

section Covers

variable {z : NsecZone}

theorem knotDnameToLower_succAt (i : Nat) (hi : i < z.owners.length) :
    knotDnameToLower (z.owners.succAt i hi) = z.owners.succAt i hi :=
  z.lower_case _ (List.get_mem _ _)

/-- A chain NSEC covers only names strictly inside its arc of the chain. -/
theorem arcContains_of_nsecCovers {rr : Rrset} {i : Nat} {hi : i < z.owners.length}
    (howner : rr.owner = z.owners[i]) (hrd : rr.rdata = z.chainRdata i hi) {x : Dname}
    (h : nsecCovers rr x = krOk) :
    List.ArcContains knotDnameCmp z.owners[i] (z.owners.succAt i hi) x := by
  unfold nsecCovers at h
  rw [hrd, howner] at h
  simp only [NsecZone.chainRdata, Rdata.knotNsecNext, knotDnameToLower_succAt] at h
  have hgt : knotDnameCmp x z.owners[i] = .gt := by
    by_contra hne
    simp [hne, ENOENT, krOk] at h
  have hlt : knotDnameCmp z.owners[i] x = .lt := Std.OrientedCmp.lt_of_gt hgt
  simp only [hgt, ne_eq, not_true_eq_false, if_false] at h
  unfold List.ArcContains
  split
  · next hnext =>
    refine ⟨hlt, ?_⟩
    by_contra hx
    simp [hnext, hx, ENOENT, krOk] at h
  · exact Or.inl hlt

/-- A name covered by an NSEC from the chain owns no RRset. -/
theorem not_owner_of_nsecCovers {rr : Rrset} (hrr : z.FromChain rr) {x : Dname}
    (h : nsecCovers rr x = krOk) : x ∉ z.owners := by
  obtain ⟨i, hi, howner, hrd⟩ := hrr
  exact List.not_mem_of_arcContains z.sorted hi (arcContains_of_nsecCovers howner hrd h)

/-- The NODATA test on a chain NSEC at `n` proves that `n` has no RRset of that type. -/
theorem not_hasRrset_of_nodataCheck {rr : Rrset} (hrr : z.FromChain rr) {t : UInt16}
    (h : krNsecBitmapNodataCheck rr.rdata.bitmap t rr.owner = krOk) :
    ¬z.HasRrset rr.owner t := by
  obtain ⟨i, hi, howner, hrd⟩ := hrr
  rintro ⟨-, ht⟩
  rw [hrd, howner] at h
  rw [howner] at ht
  unfold krNsecBitmapNodataCheck at h
  simp [NsecZone.chainRdata, Rdata.bitmap, dnssecNsecBitmapContains, ht, ENOENT, krOk] at h

end Covers

/-! ## What the section checks prove -/

theorem parentWildcardCovered_exists {rr : Rrset} : ∀ {n : Dname},
    parentWildcardCovered rr n = true →
      ∃ a, a <:+ n ∧ a.length < n.length ∧ nsecCovers rr (asteriskLabel :: a) = krOk
  | [], h => by simp [parentWildcardCovered] at h
  | _ :: parent, h => by
    simp only [parentWildcardCovered, Bool.or_eq_true, beq_iff_eq] at h
    rcases h with h | h
    · exact ⟨parent, List.suffix_cons _ _, by simp, h⟩
    · obtain ⟨a, ha, hlen, hc⟩ := parentWildcardCovered_exists h
      exact ⟨a, ha.trans (List.suffix_cons _ _), by simp; omega, hc⟩

theorem nameErrorStep_rrtype (sname : Dname) (flags : Flags) (rr : Rrset) :
    (nameErrorStep sname flags rr).noexistRrtype = flags.noexistRrtype := by
  unfold nameErrorStep nameErrorResponseCheckRr
  split <;> (try split) <;> (try split) <;> rfl

theorem nameErrorStep_rrset {sname : Dname} {flags : Flags} {rr : Rrset}
    (h : (nameErrorStep sname flags rr).noexistRrset = true) :
    flags.noexistRrset = true ∨ (rr.type = knotRrtypeNsec ∧ nsecCovers rr sname = krOk) := by
  unfold nameErrorStep nameErrorResponseCheckRr at h
  split at h
  · next htype =>
    by_cases hc : nsecCovers rr sname = krOk
    · exact .inr ⟨htype, hc⟩
    · left
      simp only [hc, if_false] at h
      split at h <;> exact h
  · exact .inl h

theorem nameErrorStep_wildcard {sname : Dname} {flags : Flags} {rr : Rrset}
    (h : (nameErrorStep sname flags rr).noexistWildcard = true) :
    flags.noexistWildcard = true ∨
      (rr.type = knotRrtypeNsec ∧ parentWildcardCovered rr sname = true) := by
  unfold nameErrorStep nameErrorResponseCheckRr at h
  split at h
  · next htype =>
    by_cases hw : parentWildcardCovered rr sname = true
    · exact .inr ⟨htype, hw⟩
    · left
      simp only [hw, if_false, Bool.false_eq_true] at h
      split at h <;> exact h
  · exact .inl h

variable {z : NsecZone} {sec : List Rrset}

/-- A successful name error check proves that `sname` owns no RRset and that, for some strict
ancestor `a` of `sname`, the wildcard `*.a` owns none. -/
theorem name_error_sound (hsec : z.SectionFromChain sec) {sname : Dname}
    (h : krNsecNameErrorResponseCheck sec sname = krOk) :
    sname ∉ z.owners ∧
      ∃ a, a <:+ sname ∧ a.length < sname.length ∧ asteriskLabel :: a ∉ z.owners := by
  have hfold : krNsecExistenceDenied (sec.foldl (nameErrorStep sname) {}) = true := by
    unfold krNsecNameErrorResponseCheck at h
    split at h
    · assumption
    · simp [krError, ENOENT, krOk] at h
  simp only [krNsecExistenceDenied, krNsecRrsetNoexist, Bool.and_eq_true,
    Bool.or_eq_true] at hfold
  obtain ⟨hset, hwild⟩ := hfold
  have hrrset : (sec.foldl (nameErrorStep sname) {}).noexistRrset = true := by
    rcases hset with hset | hset
    · have : (sec.foldl (nameErrorStep sname) {}).noexistRrtype = false :=
        List.foldl_invariant (fun f : Flags => f.noexistRrtype = false)
          (fun s rr _ hs => by rw [nameErrorStep_rrtype]; exact hs) rfl
      simp [this] at hset
    · exact hset
  refine ⟨?_, ?_⟩
  · rcases List.exists_of_foldl (fun f : Flags => f.noexistRrset = true)
      (fun rr => rr.type = knotRrtypeNsec ∧ nsecCovers rr sname = krOk)
      (fun s rr hs => nameErrorStep_rrset hs) hrrset with
      hinit | ⟨rr, hrr, htype, hc⟩
    · simp at hinit
    · exact not_owner_of_nsecCovers (hsec rr hrr htype) hc
  · rcases List.exists_of_foldl (fun f : Flags => f.noexistWildcard = true)
      (fun rr => rr.type = knotRrtypeNsec ∧ parentWildcardCovered rr sname = true)
      (fun s rr hs => nameErrorStep_wildcard hs) hwild with
      hinit | ⟨rr, hrr, htype, hw⟩
    · simp at hinit
    · obtain ⟨a, ha, hlen, hc⟩ := parentWildcardCovered_exists hw
      exact ⟨a, ha, hlen, not_owner_of_nsecCovers (hsec rr hrr htype) hc⟩

theorem noDataWildcardExistenceCheck_noexist (flags : Flags) (nsec : Rrset) (sec : List Rrset) :
    krNsecRrsetNoexist (noDataWildcardExistenceCheck flags nsec sec) = krNsecRrsetNoexist flags := by
  unfold noDataWildcardExistenceCheck
  dsimp only
  split
  · rfl
  · split <;> rfl

theorem noDataResponseCheckRrtype_noexist {flags : Flags} {nsec : Rrset} {t : UInt16}
    (h : krNsecRrsetNoexist (noDataResponseCheckRrtype flags nsec t) = true) :
    krNsecRrsetNoexist flags = true ∨ krNsecBitmapNodataCheck nsec.rdata.bitmap t nsec.owner = krOk := by
  unfold noDataResponseCheckRrtype at h
  split at h
  · next hc => exact .inr hc
  · exact .inl h

theorem nameErrorResponseCheckRr_noexist {flags : Flags} {nsec : Rrset} {name : Dname}
    (h : krNsecRrsetNoexist (nameErrorResponseCheckRr flags nsec name) = true) :
    krNsecRrsetNoexist flags = true ∨ nsecCovers nsec name = krOk := by
  by_cases hc : nsecCovers nsec name = krOk
  · exact .inr hc
  · left
    unfold nameErrorResponseCheckRr at h
    simp only [hc, if_false] at h
    split at h <;> exact h

/-- Only an NSEC at `sname` passing the NODATA test, or one covering `sname`, makes a round of
`kr_nsec_existence_denial` set `FLG_NOEXIST_RRTYPE` or `FLG_NOEXIST_RRSET`. -/
theorem existenceDenialStep_noexist {sec : List Rrset} {sname : Dname} {stype : UInt16}
    {flags : Flags} {rr : Rrset}
    (h : krNsecRrsetNoexist (existenceDenialStep sec sname stype flags rr) = true) :
    krNsecRrsetNoexist flags = true ∨
      (rr.type = knotRrtypeNsec ∧
        (rr.owner = sname ∧ krNsecBitmapNodataCheck rr.rdata.bitmap stype rr.owner = krOk ∨
          nsecCovers rr sname = krOk)) := by
  unfold existenceDenialStep at h
  dsimp only at h
  split at h
  · exact .inl h
  · next htype =>
    rw [noDataWildcardExistenceCheck_noexist] at h
    split at h
    · next howner =>
      rcases noDataResponseCheckRrtype_noexist h with h | h
      · exact .inl h
      · exact .inr ⟨not_not.mp htype, .inl ⟨howner, h⟩⟩
    · rcases nameErrorResponseCheckRr_noexist h with h | h
      · exact .inl h
      · exact .inr ⟨not_not.mp htype, .inr h⟩

/-- A successful existence denial proves that `sname` has no RRset of type `stype`: every path
to `0` needs `FLG_NOEXIST_RRTYPE` or `FLG_NOEXIST_RRSET` from the main loop. -/
theorem existence_denial_not_hasRrset (hsec : z.SectionFromChain sec) {sname : Dname}
    {stype : UInt16} (h : krNsecExistenceDenial sec sname stype = krOk) :
    ¬z.HasRrset sname stype := by
  have hnoexist : krNsecRrsetNoexist (sec.foldl (existenceDenialStep sec sname stype) {}) := by
    unfold krNsecExistenceDenial at h
    split at h
    · next hden =>
      simp only [krNsecExistenceDenied, Bool.and_eq_true] at hden
      exact hden.1
    · split at h
      · assumption
      · simp [krError, ENOENT, krOk] at h
  rcases List.exists_of_foldl (fun f : Flags => krNsecRrsetNoexist f = true) _
      (fun s rr hs => existenceDenialStep_noexist hs) hnoexist with
    hinit | ⟨rr, hrr, htype, ⟨rfl, hc⟩ | hc⟩
  · simp [krNsecRrsetNoexist] at hinit
  · exact not_hasRrset_of_nodataCheck (hsec rr hrr htype) hc
  · exact fun hset => not_owner_of_nsecCovers (hsec rr hrr htype) hc hset.1

/-! ## Where the checks accept too much -/

/-- The zone `ex.` with NS and SOA at the apex and an A RRset at `*.b.ex.`; `b.ex.` is an empty
non-terminal. -/
def wildcardZone : NsecZone where
  apex := [[0x65, 0x78]]
  owners := [[[0x65, 0x78]], [asteriskLabel, [0x62], [0x65, 0x78]]]
  types n :=
    if n = [[0x65, 0x78]] then [knotRrtypeNs, knotRrtypeSoa, knotRrtypeRrsig, knotRrtypeNsec]
    else if n = [asteriskLabel, [0x62], [0x65, 0x78]] then
      [knotRrtypeA, knotRrtypeRrsig, knotRrtypeNsec]
    else []
  sorted := by decide
  head_apex := rfl
  below_apex := by decide
  lower_case := by decide

/-- The query name `a.b.ex.`, answered from the wildcard `*.b.ex.`. -/
def wildcardSname : Dname := [[0x61], [0x62], [0x65, 0x78]]

/-- Both NSECs of the chain of `wildcardZone`, each with its RRSIG. -/
def wildcardSection : List Rrset :=
  [ { owner := [asteriskLabel, [0x62], [0x65, 0x78]], type := knotRrtypeNsec, rclass := knotClassIn,
      ttl := 3600, rrs := [.nsec [[0x65, 0x78]] [knotRrtypeA, knotRrtypeRrsig, knotRrtypeNsec]] },
    { owner := [asteriskLabel, [0x62], [0x65, 0x78]], type := knotRrtypeRrsig, rclass := knotClassIn,
      ttl := 3600, rrs := [.rrsig knotRrtypeNsec 13 2 3600 0 0 0 [[0x65, 0x78]]] },
    { owner := [[0x65, 0x78]], type := knotRrtypeNsec, rclass := knotClassIn, ttl := 3600,
      rrs := [.nsec [asteriskLabel, [0x62], [0x65, 0x78]]
        [knotRrtypeNs, knotRrtypeSoa, knotRrtypeRrsig, knotRrtypeNsec]] },
    { owner := [[0x65, 0x78]], type := knotRrtypeRrsig, rclass := knotClassIn, ttl := 3600,
      rrs := [.rrsig knotRrtypeNsec 13 1 3600 0 0 0 [[0x65, 0x78]]] } ]

theorem wildcardSection_fromChain : wildcardZone.SectionFromChain wildcardSection := by
  intro rr hrr htype
  simp only [wildcardSection, List.mem_cons, List.not_mem_nil, or_false] at hrr
  rcases hrr with rfl | rfl | rfl | rfl
  · exact ⟨1, by decide, rfl, by decide⟩
  · exact absurd htype (by decide)
  · exact ⟨0, by decide, rfl, by decide⟩
  · exact absurd htype (by decide)

theorem name_error_sound_wildcard :
    wildcardZone.SectionFromChain wildcardSection ∧
      krNsecNameErrorResponseCheck wildcardSection wildcardSname = krOk ∧
      wildcardSname ∉ wildcardZone.owners ∧
      ∃ a, a <:+ wildcardSname ∧ a.length < wildcardSname.length ∧
        asteriskLabel :: a ∉ wildcardZone.owners :=
  ⟨wildcardSection_fromChain, by decide, name_error_sound wildcardSection_fromChain (by decide)⟩

theorem existence_denial_not_hasRrset_wildcard :
    wildcardZone.SectionFromChain wildcardSection ∧
      krNsecExistenceDenial wildcardSection wildcardSname knotRrtypeA = krOk ∧
      ¬wildcardZone.HasRrset wildcardSname knotRrtypeA :=
  ⟨wildcardSection_fromChain, by decide,
    existence_denial_not_hasRrset wildcardSection_fromChain (by decide)⟩

/-- Both checks accept `a.b.ex.` although the wildcard `*.b.ex.` at its closest encloser `b.ex.`
exists and owns an A RRset: the second NSEC covers `*.ex.`, the wildcard of a farther ancestor. -/
theorem name_error_wildcard_exists :
    wildcardZone.SectionFromChain wildcardSection ∧ RrsigLabelsCorrect wildcardSection ∧
      krNsecNameErrorResponseCheck wildcardSection wildcardSname = krOk ∧
      krNsecExistenceDenial wildcardSection wildcardSname knotRrtypeA = krOk ∧
      ¬wildcardZone.Exists wildcardSname ∧ wildcardZone.Exists wildcardSname.tail ∧
      wildcardZone.HasRrset (asteriskLabel :: wildcardSname.tail) knotRrtypeA :=
  ⟨wildcardSection_fromChain, by decide, by decide, by decide, by decide, by decide, by decide⟩

end KnotResolver.Nsec
