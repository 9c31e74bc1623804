import KnotResolver.Codec
import KnotResolver.Fold
import KnotResolver.Request

/-!
# Trust anchors (`lib/dnssec/ta.c`)

The trust anchors and the negative trust anchors of the resolver context are `map_t`s, crit-bit
trees keyed by C strings; an anchor's owner name is stored under its wire form read as a C
string (`mapKey`), with its DS RRset. The trees are modelled by the pairs they hold (`AList`).

A name is covered when one of its ancestors-or-self is a trust anchor and none is a negative one
(`kr_ta_covers_qry`). Read as a C string, a wire name ends at its first zero byte: for names
whose labels are nonempty, at most 63 bytes long and free of zero bytes (`ValidName`) that is
the whole name, and distinct names get distinct keys (`mapKey_inj`). The keys are compared byte
by byte, so that an anchor added in upper case does not cover the same name in lower case
(`mixed_case_anchor_uncovered`); with names compared exactly, coverage, the longest anchor and the
rank `get_lowest_rank` (of `lib/cache/peek.c`) demands follow the anchors that the sequence of
`kr_ta_add`, `kr_ta_del` and `kr_ta_clear` calls leaves (`runOps_coverage`).
-/

namespace KnotResolver.Ta

/-- `knot_dname_to_wire`: the labels, each preceded by its length, then the root label. -/
def knotDnameWire (n : Dname) : List UInt8 := List.lengthPrefixed Nat.toUInt8 n ++ [0]

/-- The key of a name in a `map_t`: its wire form read as a C string. -/
def mapKey (n : Dname) : List UInt8 := (knotDnameWire n).takeWhile (· != 0)

/-- `map_t`, by the pairs it holds. -/
abbrev KrMap := AList fun _ : List UInt8 => Rrset

/-- `kr_ta_get`. -/
def krTaGet (m : KrMap) (name : Dname) : Option Rrset := m.lookup (mapKey name)

/-- `kr_ta_get_longest_name`: the first ancestor-or-self, from `name` up, that is an anchor. -/
def krTaGetLongestName (m : KrMap) : Dname → Option Dname
  | [] => if (krTaGet m []).isSome then some [] else none
  | l :: parent =>
    if (krTaGet m (l :: parent)).isSome then some (l :: parent) else krTaGetLongestName m parent

/-- `knot_rrset_add_rdata` into the DS RRset of an anchor. -/
def knotRrsetAddRdata (rr : Rrset) (rd : Rdata) : Rrset :=
  if rd ∈ rr.rrs then rr else { rr with rrs := rr.rrs ++ [rd] }

/-- `insert_ta`: a new anchor gets a DS RRset of its own, an existing one the record added. -/
def insertTa (m : KrMap) (name : Dname) (ttl : UInt32) (rdata : List UInt8) : KrMap :=
  match krTaGet m name with
  | some taRr =>
    m.insert (mapKey name) (if 0 < rdata.length then knotRrsetAddRdata taRr (.raw rdata) else taRr)
  | none =>
    m.insert (mapKey name)
      ⟨name, knotRrtypeDs, knotClassIn, ttl, if 0 < rdata.length then [.raw rdata] else []⟩

/-- The libdnssec calls of `dnskey2ds`: `dnssec_key_set_rdata`, and the digest of
`dnssec_key_create_ds` with SHA-256. -/
structure TaCrypto where
  dnssecKeySetRdata : List UInt8 → Int
  dnssecKeyCreateDs : Dname → List UInt8 → Except Int (List UInt8)

/-- `wire_read_u16` of the start of the rdata. -/
def wireReadU16 (d : List UInt8) : UInt16 := (d.getD 0 0).toUInt16 <<< 8 ||| (d.getD 1 0).toUInt16

/-- `kr_dnssec_key_zsk`: the Zone Key flag. -/
def krDnssecKeyZsk (rdata : List UInt8) : Bool := wireReadU16 rdata &&& 0x0100 != 0

/-- `kr_dnssec_key_revoked`: the REVOKE flag. -/
def krDnssecKeyRevoked (rdata : List UInt8) : Bool := wireReadU16 rdata &&& 0x0080 != 0

/-- `dnskey2ds`: the DS of a DNSKEY that is a zone key and not revoked. -/
def dnskey2ds (c : TaCrypto) (owner : Dname) (rdata : List UInt8) : Except Int (List UInt8) :=
  let ret := c.dnssecKeySetRdata rdata
  if ret ≠ 0 then .error (krError ret)
  else if !(krDnssecKeyZsk rdata && !krDnssecKeyRevoked rdata) then .error (krError EILSEQ)
  else
    match c.dnssecKeyCreateDs owner rdata with
    | .error e => .error (krError e)
    | .ok ds => .ok ds

/-- `kr_ta_add`: DS records are stored as they are, DNSKEY records by their DS. -/
def krTaAdd (c : TaCrypto) (m : KrMap) (name : Dname) (type : UInt16) (ttl : UInt32)
    (rdata : List UInt8) : Except Int KrMap :=
  if type = knotRrtypeDs then .ok (insertTa m name ttl rdata)
  else if type = knotRrtypeDnskey then
    match dnskey2ds c name rdata with
    | .error e => .error e
    | .ok ds => .ok (insertTa m name ttl ds)
  else .error (krError EINVAL)

/-- `kr_ta_del`. -/
def krTaDel (m : KrMap) (name : Dname) : KrMap := m.erase (mapKey name)

/-- `kr_ta_clear`. -/
def krTaClear (_ : KrMap) : KrMap := ∅

/-- `kr_ta_covers`: some ancestor-or-self of `name` is an anchor. -/
def krTaCovers (m : KrMap) : Dname → Bool
  | [] => (krTaGet m []).isSome
  | l :: parent => (krTaGet m (l :: parent)).isSome || krTaCovers m parent

/-- The anchors of `struct kr_context`. -/
structure TaContext where
  trustAnchors : KrMap := ∅
  negativeAnchors : KrMap := ∅

/-- `kr_ta_covers_qry`; a DS record lives on the parent side of a zone cut. -/
def krTaCoversQry (ctx : TaContext) (name : Dname) (type : UInt16) : Bool :=
  let name := if type = knotRrtypeDs ∧ name ≠ [] then name.tail else name
  krTaCovers ctx.trustAnchors name && !krTaCovers ctx.negativeAnchors name

/-- `get_lowest_rank` (`lib/cache/peek.c`): the least rank the cache accepts for a query. -/
def getLowestRank (ctx : TaContext) (cd : Bool) (qry : KrQuery) : UInt8 :=
  let allowUnverified := cd || qry.flags.stub
  if qry.flags.nonauth then krRankInitial
  else if !allowUnverified && krTaCoversQry ctx qry.sname qry.stype then krRankInsecure ||| krRankAuth
  else krRankInitial ||| krRankAuth

/-! ## Sequences of calls -/

/-- Which of the two maps of the context a call works on. -/
inductive TaStore where
  | trust
  | negative
  deriving DecidableEq, Repr

/-- A call of `kr_ta_add`, `kr_ta_del` or `kr_ta_clear`. -/
inductive TaOp where
  | add (store : TaStore) (name : Dname) (type : UInt16) (ttl : UInt32) (rdata : List UInt8)
  | del (store : TaStore) (name : Dname)
  | clear (store : TaStore)
  deriving DecidableEq, Repr

namespace TaContext

def get (ctx : TaContext) : TaStore → KrMap
  | .trust => ctx.trustAnchors
  | .negative => ctx.negativeAnchors

def set (ctx : TaContext) (m : KrMap) : TaStore → TaContext
  | .trust => { ctx with trustAnchors := m }
  | .negative => { ctx with negativeAnchors := m }

/-- One call; a failed `kr_ta_add` leaves the map as it was. -/
def apply (c : TaCrypto) (ctx : TaContext) : TaOp → TaContext
  | .add s name type ttl rdata =>
    match krTaAdd c (ctx.get s) name type ttl rdata with
    | .ok m => ctx.set m s
    | .error _ => ctx
  | .del s name => ctx.set (krTaDel (ctx.get s) name) s
  | .clear s => ctx.set (krTaClear (ctx.get s)) s

end TaContext

/-- The context after a sequence of calls, from empty maps. -/
def runOps (c : TaCrypto) (ops : List TaOp) : TaContext := ops.foldl (TaContext.apply c) {}

/-! ## What the calls store -/

/-- The owner names of the anchors, as the calls describe them. -/
structure TaSpec where
  trust : Finset Dname := ∅
  negative : Finset Dname := ∅

/-- `kr_ta_add` stores the name: a DS record, or a DNSKEY record that gives a DS. -/
def Accepted (c : TaCrypto) (name : Dname) (type : UInt16) (rdata : List UInt8) : Bool :=
  type = knotRrtypeDs || (type = knotRrtypeDnskey && (dnskey2ds c name rdata).toBool)

namespace TaSpec

def get (S : TaSpec) : TaStore → Finset Dname
  | .trust => S.trust
  | .negative => S.negative

def set (S : TaSpec) (names : Finset Dname) : TaStore → TaSpec
  | .trust => { S with trust := names }
  | .negative => { S with negative := names }

def apply (c : TaCrypto) (S : TaSpec) : TaOp → TaSpec
  | .add s name type _ rdata => if Accepted c name type rdata then S.set (insert name (S.get s)) s else S
  | .del s name => S.set ((S.get s).erase name) s
  | .clear s => S.set ∅ s

end TaSpec

def specOps (c : TaCrypto) (ops : List TaOp) : TaSpec := ops.foldl (TaSpec.apply c) {}

/-- Some ancestor-or-self of `n` is one of `names`. -/
def Covered (names : Finset Dname) (n : Dname) : Prop := ∃ a ∈ n.tails, a ∈ names

instance (names : Finset Dname) (n : Dname) : Decidable (Covered names n) :=
  inferInstanceAs (Decidable (∃ a ∈ n.tails, a ∈ names))

/-- A name whose labels are nonempty, at most 63 bytes long and free of zero bytes. -/
def ValidName (n : Dname) : Prop := ∀ l ∈ n, 0 < l.length ∧ l.length ≤ 63 ∧ ∀ b ∈ l, b ≠ 0

instance (n : Dname) : Decidable (ValidName n) :=
  -- the bytes of a label are decided over the list, never through the instance of
  -- `Fintype UInt8`, which would try all 256 bytes
  letI : ∀ l : Label, Decidable (∀ b ∈ l, b ≠ 0) := fun l => List.decidableBAll _ l
  inferInstanceAs (Decidable (∀ l ∈ n, 0 < l.length ∧ l.length ≤ 63 ∧ ∀ b ∈ l, b ≠ 0))

/-- The names a call works on are valid. -/
def TaOp.Valid : TaOp → Prop
  | .add _ name .. => ValidName name
  | .del _ name => ValidName name
  | .clear _ => True

instance : (op : TaOp) → Decidable op.Valid
  | .add _ name .. => inferInstanceAs (Decidable (ValidName name))
  | .del _ name => inferInstanceAs (Decidable (ValidName name))
  | .clear _ => isTrue trivial

/-! ## Keys of valid names -/

theorem ValidName.tail {l : Label} {n : Dname} (h : ValidName (l :: n)) : ValidName n :=
  fun l' hl' => h l' (List.mem_cons_of_mem _ hl')

theorem mapKey_eq {n : Dname} (hn : ValidName n) : mapKey n = List.lengthPrefixed Nat.toUInt8 n := by
  unfold mapKey knotDnameWire
  apply List.takeWhile_lengthPrefixed_append
  · intro l hl
    obtain ⟨hpos, hle, -⟩ := hn l hl
    have h : (l.length.toUInt8).toNat = l.length := by simp; omega
    simp only [bne_iff_ne, ne_eq]
    intro h0
    rw [h0] at h
    simp at h
    omega
  · intro l hl b hb
    simpa using (hn l hl).2.2 b hb
  · rfl

/-- Distinct valid names have distinct keys. -/
theorem mapKey_inj {n n' : Dname} (hn : ValidName n) (hn' : ValidName n')
    (h : mapKey n = mapKey n') : n = n' := by
  rw [mapKey_eq hn, mapKey_eq hn'] at h
  have hcode : ∀ a b, a < 64 → b < 64 → a.toUInt8 = b.toUInt8 → a = b := by
    intro a b ha hb hab
    have := congrArg UInt8.toNat hab
    simp at this
    omega
  exact List.lengthPrefixed_inj hcode (fun l hl => by have := (hn l hl).2.1; omega)
    (fun l hl => by have := (hn' l hl).2.1; omega) h

/-! ## The map refines the set of anchors -/

/-- The map holds the key of a valid name exactly when the name is an anchor of `S`. -/
def Refines (m : KrMap) (S : Finset Dname) : Prop :=
  ∀ n, ValidName n → ((krTaGet m n).isSome ↔ n ∈ S)

theorem isSome_krTaGet_insertTa (m : KrMap) (name : Dname) (ttl : UInt32) (rdata : List UInt8)
    (n : Dname) :
    (krTaGet (insertTa m name ttl rdata) n).isSome ↔ mapKey n = mapKey name ∨ (krTaGet m n).isSome := by
  have key : ∀ v, (krTaGet (m.insert (mapKey name) v) n).isSome ↔
      mapKey n = mapKey name ∨ (krTaGet m n).isSome := by
    intro v
    by_cases h : mapKey n = mapKey name
    · rw [krTaGet, h, AList.lookup_insert]
      simp
    · simp [krTaGet, AList.lookup_insert_ne h, h]
  unfold insertTa
  split <;> exact key _

theorem Refines.insertTa {m : KrMap} {S : Finset Dname} (h : Refines m S) {name : Dname}
    (hname : ValidName name) (ttl : UInt32) (rdata : List UInt8) :
    Refines (insertTa m name ttl rdata) (insert name S) := by
  intro n hn
  rw [isSome_krTaGet_insertTa, h n hn, Finset.mem_insert]
  exact or_congr_left ⟨mapKey_inj hn hname, congrArg mapKey⟩

theorem Refines.del {m : KrMap} {S : Finset Dname} (h : Refines m S) {name : Dname}
    (hname : ValidName name) : Refines (krTaDel m name) (S.erase name) := by
  intro n hn
  rw [Finset.mem_erase, ← h n hn]
  by_cases hk : mapKey n = mapKey name
  · have hnn : n = name := mapKey_inj hn hname hk
    subst hnn
    simp [krTaDel, krTaGet, AList.lookup_erase]
  · have hnn : n ≠ name := fun he => hk (congrArg mapKey he)
    simp [krTaDel, krTaGet, AList.lookup_erase_ne hk, hnn]

theorem Refines.empty : Refines ∅ ∅ := fun n _ => by simp [krTaGet]

/-- `kr_ta_add` succeeds exactly on the calls `Accepted` describes, and then inserts the name. -/
theorem krTaAdd_eq_ok {c : TaCrypto} {m m' : KrMap} {name : Dname} {type : UInt16} {ttl : UInt32}
    {rdata : List UInt8} (h : krTaAdd c m name type ttl rdata = .ok m') :
    Accepted c name type rdata = true ∧ ∃ rd, m' = insertTa m name ttl rd := by
  unfold krTaAdd at h
  split_ifs at h with hds hdnskey
  · cases h
    exact ⟨by simp [Accepted, hds], rdata, rfl⟩
  · split at h
    · cases h
    · next ds hds' =>
      cases h
      exact ⟨by simp [Accepted, hdnskey, hds', Except.toBool], ds, rfl⟩

theorem krTaAdd_eq_error {c : TaCrypto} {m : KrMap} {name : Dname} {type : UInt16}
    {ttl : UInt32} {rdata : List UInt8} {e : Int} (h : krTaAdd c m name type ttl rdata = .error e) :
    Accepted c name type rdata = false := by
  unfold krTaAdd at h
  split_ifs at h with hds hdnskey
  · split at h
    · next e' he =>
      have hne : knotRrtypeDnskey ≠ knotRrtypeDs := by decide
      simp [Accepted, hdnskey, he, Except.toBool, hne]
    · cases h
  · simp [Accepted, hds, hdnskey]

/-- Both maps of the context refine the anchors of `S`. -/
def ContextRefines (ctx : TaContext) (S : TaSpec) : Prop := ∀ s, Refines (ctx.get s) (S.get s)

@[simp] theorem TaContext.get_set (ctx : TaContext) (m : KrMap) (s s' : TaStore) :
    (ctx.set m s).get s' = if s = s' then m else ctx.get s' := by
  cases s <;> cases s' <;> rfl

@[simp] theorem TaSpec.get_set (S : TaSpec) (names : Finset Dname) (s s' : TaStore) :
    (S.set names s).get s' = if s = s' then names else S.get s' := by
  cases s <;> cases s' <;> rfl

theorem ContextRefines.set {ctx : TaContext} {S : TaSpec} (h : ContextRefines ctx S)
    {s : TaStore} {m : KrMap} {names : Finset Dname} (hs : Refines m names) :
    ContextRefines (ctx.set m s) (S.set names s) := by
  intro s'
  simp only [TaContext.get_set, TaSpec.get_set]
  split
  · exact hs
  · exact h s'

/-- One call keeps the context refining the anchors. -/
theorem ContextRefines.apply {ctx : TaContext} {S : TaSpec} (h : ContextRefines ctx S)
    (c : TaCrypto) {op : TaOp} (hop : op.Valid) :
    ContextRefines (ctx.apply c op) (S.apply c op) := by
  cases op with
  | add s name type ttl rdata =>
    simp only [TaContext.apply, TaSpec.apply]
    split
    · next m' hadd =>
      obtain ⟨hacc, rd, rfl⟩ := krTaAdd_eq_ok hadd
      rw [if_pos hacc]
      exact h.set ((h s).insertTa hop ttl rd)
    · next e hadd =>
      rw [if_neg (by simp [krTaAdd_eq_error hadd])]
      exact h
  | del s name => exact h.set ((h s).del hop)
  | clear s => exact h.set Refines.empty

theorem runOps_refines (c : TaCrypto) {ops : List TaOp} (hops : ∀ op ∈ ops, op.Valid) :
    ContextRefines (runOps c ops) (specOps c ops) := by
  have hinit : ContextRefines {} {} := fun s => by cases s <;> exact Refines.empty
  exact @List.foldl_simulation TaOp TaContext TaSpec ContextRefines ops (TaContext.apply c)
    (TaSpec.apply c) (fun _ _ op hop h => h.apply c (hops op hop)) {} {} hinit

/-! ## Coverage follows the anchors -/

section Coverage

variable {m : KrMap} {S : Finset Dname}

theorem Refines.krTaCovers (h : Refines m S) :
    ∀ {n : Dname}, ValidName n → (krTaCovers m n = true ↔ Covered S n)
  | [], hn => by simp [Ta.krTaCovers, Covered, h [] hn]
  | l :: parent, hn => by
    rw [Ta.krTaCovers, Bool.or_eq_true, h _ hn, h.krTaCovers hn.tail]
    simp [Covered, List.tails]

theorem Refines.krTaGetLongestName (h : Refines m S) :
    ∀ {n : Dname}, ValidName n → krTaGetLongestName m n = n.tails.find? (· ∈ S)
  | [], hn => by
    by_cases hmem : [] ∈ S <;> simp [Ta.krTaGetLongestName, h [] hn, hmem]
  | l :: parent, hn => by
    rw [Ta.krTaGetLongestName, List.tails_cons, List.find?_cons, h.krTaGetLongestName hn.tail]
    by_cases hmem : l :: parent ∈ S <;> simp [h _ hn, hmem]

end Coverage

/-- The name whose coverage `kr_ta_covers_qry` tests: the parent for a DS query. -/
def coveredName (n : Dname) (type : UInt16) : Dname :=
  if type = knotRrtypeDs ∧ n ≠ [] then n.tail else n

theorem ValidName.coveredName {n : Dname} (hn : ValidName n) (type : UInt16) :
    ValidName (coveredName n type) := by
  unfold Ta.coveredName
  split
  · cases n with
    | nil => exact hn
    | cons l parent => exact hn.tail
  · exact hn

theorem runOps_coverage (c : TaCrypto) (ops : List TaOp) (hops : ∀ op ∈ ops, op.Valid)
    (n : Dname) (hn : ValidName n) (type : UInt16) :
    (krTaCoversQry (runOps c ops) n type = true ↔
      Covered (specOps c ops).trust (coveredName n type) ∧
        ¬Covered (specOps c ops).negative (coveredName n type)) ∧
    krTaGetLongestName (runOps c ops).trustAnchors n = n.tails.find? (· ∈ (specOps c ops).trust) ∧
    ∀ (cd : Bool) (qry : KrQuery), qry.sname = n → qry.stype = type → cd = false →
      qry.flags.stub = false → qry.flags.nonauth = false →
      (getLowestRank (runOps c ops) cd qry = krRankInsecure ||| krRankAuth ↔
        krTaCoversQry (runOps c ops) n type = true) := by
  have htrust : Refines (runOps c ops).trustAnchors (specOps c ops).trust :=
    runOps_refines c hops .trust
  have hneg : Refines (runOps c ops).negativeAnchors (specOps c ops).negative :=
    runOps_refines c hops .negative
  have hcov : krTaCoversQry (runOps c ops) n type = true ↔
      Covered (specOps c ops).trust (coveredName n type) ∧
        ¬Covered (specOps c ops).negative (coveredName n type) := by
    have hn' := hn.coveredName type
    have hqry : krTaCoversQry (runOps c ops) n type =
        (krTaCovers (runOps c ops).trustAnchors (coveredName n type) &&
          !krTaCovers (runOps c ops).negativeAnchors (coveredName n type)) := rfl
    rw [hqry, Bool.and_eq_true, Bool.not_eq_true', ← htrust.krTaCovers hn',
      ← hneg.krTaCovers hn', Bool.not_eq_true]
  refine ⟨hcov, htrust.krTaGetLongestName hn, ?_⟩
  intro cd qry hname htype hcd hstub hnonauth
  subst hname htype hcd
  have hne : (krRankInitial ||| krRankAuth) ≠ krRankInsecure ||| krRankAuth := by decide
  cases hq : krTaCoversQry (runOps c ops) qry.sname qry.stype <;>
    simp [getLowestRank, hq, hstub, hnonauth, hne]

/-- A `TaCrypto` that accepts no DNSKEY. -/
def refusingCrypto : TaCrypto := ⟨fun _ => -1, fun _ _ => .error (-1)⟩

/-- With the anchor `ex.`, the query `a.ex. A` is covered. -/
theorem anchor_ex_covers_child :
    (∀ op ∈ [TaOp.add .trust [[0x65, 0x78]] knotRrtypeDs 0 []], op.Valid) ∧
      ValidName [[0x61], [0x65, 0x78]] ∧
      krTaCoversQry (runOps refusingCrypto [.add .trust [[0x65, 0x78]] knotRrtypeDs 0 []])
        [[0x61], [0x65, 0x78]] knotRrtypeA = true ∧
      Covered (specOps refusingCrypto [.add .trust [[0x65, 0x78]] knotRrtypeDs 0 []]).trust
        (coveredName [[0x61], [0x65, 0x78]] knotRrtypeA) :=
  ⟨by decide, by decide, rfl,
    ((runOps_coverage refusingCrypto _ (by decide) _ (by decide) _).1.mp rfl).1⟩

/-- The anchor `EX.`, added in upper case, does not cover `ex.`: the map compares the wire bytes,
and the query is not covered, nor is `EX.` its longest anchor. -/
theorem mixed_case_anchor_uncovered :
    knotDnameToLower [[0x45, 0x58]] = [[0x65, 0x78]] ∧
      krTaCoversQry (runOps refusingCrypto [.add .trust [[0x45, 0x58]] knotRrtypeDs 0 []])
        [[0x65, 0x78]] knotRrtypeA = false ∧
      krTaGetLongestName
        (runOps refusingCrypto [.add .trust [[0x45, 0x58]] knotRrtypeDs 0 []]).trustAnchors
        [[0x65, 0x78]] = none :=
  ⟨by decide, rfl, rfl⟩

end KnotResolver.Ta
