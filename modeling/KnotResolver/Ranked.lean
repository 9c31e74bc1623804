import KnotResolver.Rrset

/-! Ranks (`enum kr_rank` of `lib/resolve.h`) and the ranked RRset arrays of a request
(`ranked_rr_array_entry` of `lib/utils.h`). A rank is a bit field: `KR_RANK_AUTH` is an
independent flag and the other bits hold exactly one of the remaining values. -/

namespace KnotResolver

def krRankInitial : UInt8 := 0
def krRankOmit : UInt8 := 1
def krRankTry : UInt8 := 2
def krRankIndet : UInt8 := 4
def krRankBogus : UInt8 := 5
def krRankMismatch : UInt8 := 6
def krRankMissing : UInt8 := 7
def krRankInsecure : UInt8 := 8
def krRankAuth : UInt8 := 16
def krRankSecure : UInt8 := 32

/-- `kr_rank_check`: the bits other than `KR_RANK_AUTH` hold one of the values. -/
def krRankCheck (rank : UInt8) : Bool :=
  [krRankInitial, krRankOmit, krRankTry, krRankIndet, krRankBogus, krRankMismatch,
    krRankMissing, krRankInsecure, krRankSecure].contains (rank &&& ~~~krRankAuth)

/-- `kr_rank_test`. -/
def krRankTest (rank flag : UInt8) : Bool :=
  if flag = krRankAuth then rank &&& krRankAuth != 0
  else rank &&& ~~~krRankAuth == flag

/-- `kr_rank_set`: the `KR_RANK_AUTH` flag is kept as it was. -/
def krRankSet (rank flag : UInt8) : UInt8 := flag ||| (rank &&& krRankAuth)

theorem krRankSet_and_not_auth (rank flag : UInt8) :
    krRankSet rank flag &&& ~~~krRankAuth = flag &&& ~~~krRankAuth := by
  simp only [krRankSet, ← UInt8.toBitVec_inj, UInt8.toBitVec_and, UInt8.toBitVec_or,
    UInt8.toBitVec_not]
  rw [BitVec.and_or_distrib_right, BitVec.and_assoc, BitVec.and_not_self]
  simp

/-- After `kr_rank_set` a test of any value but `KR_RANK_AUTH` sees only the value set. -/
@[simp] theorem krRankTest_krRankSet (rank flag test : UInt8) (h : test ≠ krRankAuth) :
    krRankTest (krRankSet rank flag) test = krRankTest flag test := by
  simp only [krRankTest, h, if_false, krRankSet_and_not_auth]

/-- `kr_rrset_type_maysig`: the type of an RRset, or the type covered by an RRSIG set. -/
def krRrsetTypeMaysig (rr : Rrset) : UInt16 :=
  if rr.type = knotRrtypeRrsig then rr.rdata.knotRrsigTypeCovered else rr.type

/-- `ranked_rr_array_entry_t`. -/
structure RankedEntry where
  qryUid : UInt32
  rank : UInt8
  revalidationCnt : UInt8 := 0
  cached : Bool := false
  yielded : Bool := false
  toWire : Bool
  expiring : Bool := false
  rr : Rrset
  deriving DecidableEq, Repr

end KnotResolver
