import KnotResolver.Dname

/-!
# Resource records

Error codes of `lib/defines.h` (`kr_ok`, `kr_error`), the RR type and class codes of libknot's
descriptor table that the resolver tests, record data, and RRsets (`knot_rrset_t`).

Record data is kept decoded, one constructor per rdata layout the modelled code reads through
libknot's accessors (`knot_nsec_next`, `knot_rrsig_labels`, `knot_ns_name`, ...); an accessor
applied to data of another layout returns a fixed default. Conversions of well-formed names to
wire format cannot fail, so the error returns that the C code keeps for them are not modelled.
-/

namespace KnotResolver

/-! ## Error codes -/

/-- `kr_ok()`. -/
def krOk : Int := 0

/-- `kr_error(x)`: the negated absolute value. -/
def krError (x : Int) : Int := -(x.natAbs : Int)

def ENOENT : Int := 2
def EINVAL : Int := 22
def EAGAIN : Int := 11
def EEXIST : Int := 17
def ENOMEM : Int := 12
def EILSEQ : Int := 84
def EMSGSIZE : Int := 90
def ERANGE : Int := 34
def ESTALE : Int := 116
def ENOSPC : Int := 28
def ENOTSUP : Int := 95
def ELOOP : Int := 40
/-- `EIO`. -/
def EIOerr : Int := 5

theorem krError_ne_krOk {x : Int} (h : x ≠ 0) : krError x ≠ krOk := by
  simp [krError, krOk, h]

/-- libknot's `KNOT_ERANGE` (`-ERANGE`). -/
def knotErange : Int := -ERANGE

@[simp] theorem krError_knotErange : krError knotErange = knotErange := by decide

theorem knotErange_ne_krOk : knotErange ≠ krOk := by decide

/-- libknot's `KNOT_ENOENT` (`-ENOENT`). -/
def knotEnoent : Int := -ENOENT

/-- libknot's `KNOT_EINVAL` (`-EINVAL`). -/
def knotEinval : Int := -EINVAL

/-- `memcmp` of the first `n` bytes. -/
def memcmp (a b : List UInt8) (n : Nat) : Ordering :=
  List.compareLex compare (a.take n) (b.take n)

theorem memcmp_of_length {a b : List UInt8} {n : Nat} (ha : a.length = n) (hb : b.length = n) :
    memcmp a b n = List.compareLex compare a b := by
  rw [memcmp, ← ha, List.take_length, ha, ← hb, List.take_length]

/-! ## Type and class codes -/

def knotRrtypeA : UInt16 := 1
def knotRrtypeNs : UInt16 := 2
def knotRrtypeCname : UInt16 := 5
def knotRrtypeSoa : UInt16 := 6
def knotRrtypePtr : UInt16 := 12
def knotRrtypeAaaa : UInt16 := 28
def knotRrtypeDname : UInt16 := 39
def knotRrtypeDs : UInt16 := 43
def knotRrtypeRrsig : UInt16 := 46
def knotRrtypeNsec : UInt16 := 47
def knotRrtypeDnskey : UInt16 := 48
def knotRrtypeNsec3 : UInt16 := 50
def knotRrtypeSig : UInt16 := 24
def knotRrtypeOpt : UInt16 := 41
def knotRrtypeTkey : UInt16 := 249
def knotRrtypeTsig : UInt16 := 250
def knotRrtypeIxfr : UInt16 := 251
def knotRrtypeAxfr : UInt16 := 252
def knotRrtypeAny : UInt16 := 255

/-- `knot_rrtype_is_metatype`: the types that name no data of a zone. -/
def knotRrtypeIsMetatype (type : UInt16) : Bool :=
  type == knotRrtypeSig || type == knotRrtypeOpt || type == knotRrtypeTkey ||
    type == knotRrtypeTsig || type == knotRrtypeIxfr || type == knotRrtypeAxfr ||
    type == knotRrtypeAny

def knotClassIn : UInt16 := 1
def knotClassCh : UInt16 := 3

/-! ## Record data -/

/-- Decoded record data. -/
inductive Rdata where
  /-- NS, CNAME and DNAME: the target name. -/
  | name (target : Dname)
  /-- A and AAAA: the address bytes. -/
  | addr (bytes : List UInt8)
  /-- SOA: the fields the resolver reads. -/
  | soa (minimum : UInt32)
  /-- NSEC: next owner name and the types of the type bitmap. -/
  | nsec (next : Dname) (bitmap : List UInt16)
  /-- NSEC3: hash algorithm, flags, iterations, salt, next hashed owner and the type bitmap. -/
  | nsec3 (alg flags : UInt8) (iterations : UInt16) (salt next : List UInt8)
      (bitmap : List UInt16)
  /-- RRSIG. -/
  | rrsig (typeCovered : UInt16) (alg labels : UInt8) (origTtl expiration inception : UInt32)
      (keyTag : UInt16) (signer : Dname)
  /-- DNSKEY. -/
  | dnskey (flags : UInt16) (protocol alg : UInt8) (publicKey : List UInt8)
  /-- Anything else, as raw bytes. -/
  | raw (bytes : List UInt8)
  deriving DecidableEq, Repr, Inhabited

namespace Rdata

/-- `knot_nsec_next`. -/
def knotNsecNext : Rdata → Dname
  | .nsec next _ => next
  | _ => []

/-- The types listed by an NSEC or NSEC3 type bitmap. -/
def bitmap : Rdata → List UInt16
  | .nsec _ bm => bm
  | .nsec3 _ _ _ _ _ bm => bm
  | _ => []

/-- `knot_rrsig_type_covered`. -/
def knotRrsigTypeCovered : Rdata → UInt16
  | .rrsig t .. => t
  | _ => 0

/-- `knot_rrsig_labels`. -/
def knotRrsigLabels : Rdata → UInt8
  | .rrsig _ _ labels .. => labels
  | _ => 0

/-- `knot_rrsig_signer_name`. -/
def knotRrsigSignerName : Rdata → Dname
  | .rrsig _ _ _ _ _ _ _ signer => signer
  | _ => []

/-- `knot_ns_name` and `knot_cname_name`. -/
def knotNsName : Rdata → Dname
  | .name target => target
  | _ => []

end Rdata

/-- `dnssec_nsec_bitmap_contains`. -/
def dnssecNsecBitmapContains (bm : List UInt16) (type : UInt16) : Bool := bm.contains type

/-! ## RRsets -/

/-- `knot_rrset_t`: owner, type, class, TTL and the records of the set. -/
structure Rrset where
  owner : Dname
  type : UInt16
  rclass : UInt16
  ttl : UInt32
  rrs : List Rdata
  deriving DecidableEq, Repr, Inhabited

/-- The first record of a set, `rr->rrs.rdata`. -/
def Rrset.rdata (rr : Rrset) : Rdata := rr.rrs.headD default

end KnotResolver
