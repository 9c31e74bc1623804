import KnotResolver.HintsRelation

/-!
# Answers from the hints (`modules/hints/hints.c`)

The `query` layer of the module answers A and AAAA queries by `satisfy_forward`, which fills an
RRset with the addresses of the name of the family the type asks for, and PTR queries by
`satisfy_reverse`, which answers with the last name of the list of the reverse name; `hint_get`
lists the addresses of a name. A name without a list, or with an empty one, gives
`kr_error(ENOENT)`. The model follows each function up to the RRset it hands to `put_answer`.

What the answers should be is stated over the relation the module stands for
(`ForwardAnswer`, `ReverseAnswer`, `GetAnswer`). On data holding the two views of a relation, the
forward answers and `hint_get` for names in lower case are those (`satisfyForwardRr_answers`,
`hintGet_answers`). The reverse answers need the reverse view to hold nothing but pairs of the
relation (`HintsExact`), which every call keeps (`HintsExact.call`). From the empty module, after
any run of valid calls, every answer is the one the relation gives (`hintsRun_answers`).
-/

namespace KnotResolver.Hints

open Zonecut Generic Ta

/-! ## The model -/

/-- `family_len` of `satisfy_forward`: the size of an IPv6 address for AAAA, and of an IPv4 one
for any other type. -/
def familyLen (stype : UInt16) : Nat := if stype = knotRrtypeAaaa then 16 else 4

/-- `satisfy_forward` up to `put_answer`: `kr_error(ENOENT)` for a name without addresses, and
otherwise the RRset of the query at the name that `knot_rrset_add_rdata` fills with the addresses
of the pack, in its order, whose length is that of the family. -/
def satisfyForwardRr (data : HintsData) (ttl : UInt32) (sname : Dname) (stype sclass : UInt16) :
    Option (Except Int Rrset) :=
  match krZonecutFind data.hints (knotDnameWire sname) with
  | none => none
  | some none => some (.error (krError ENOENT))
  | some (some addrSet) =>
    if addrSet.len = 0 then some (.error (krError ENOENT))
    else
      (fun addrs => .ok (addrs.foldl (fun rr addr =>
          if addr.length = familyLen stype then knotRrsetAddRdata rr (.addr addr) else rr)
        ⟨sname, stype, sclass, ttl, []⟩)) <$> packWalk addrSet

/-- `satisfy_reverse` up to `put_answer`: `kr_error(ENOENT)` for a reverse name without names, and
otherwise the PTR RRset at it holding the bytes of the last name of the pack (`pack_last`). -/
def satisfyReverseRr (data : HintsData) (ttl : UInt32) (sname : Dname) :
    Option (Except Int Rrset) :=
  match krZonecutFind data.reverseHints (knotDnameWire sname) with
  | none => none
  | some none => some (.error (krError ENOENT))
  | some (some addrSet) =>
    if addrSet.len = 0 then some (.error (krError ENOENT))
    else do
      let rr : Rrset := ⟨sname, knotRrtypePtr, knotClassIn, ttl, []⟩
      match ← packLast addrSet with
      | none => return .ok rr
      | some addr =>
        let addrVal ← packObjRead addrSet addr
        return .ok (knotRrsetAddRdata rr (.raw addrVal))

/-- `hint_get` of a name: NULL for a name without addresses, and otherwise the addresses of its
pack, in its order, that `pack_addrs` lists. -/
def hintGet (data : HintsData) (name : Dname) : Option (Option (List (List UInt8))) :=
  match krZonecutFind data.hints (knotDnameWire name) with
  | none => none
  | some none => some none
  | some (some pack) => if pack.len = 0 then some none else some <$> packWalk pack

/-! ## What the answers should be -/

/-- A forward answer by the relation: ENOENT for a name it pairs with no address, and otherwise
the RRset of the query at the name holding, once each, the addresses it pairs the name with that
have the family's length. -/
def ForwardAnswer (R : HintsRel) (ttl : UInt32) (sname : Dname) (stype sclass : UInt16) :
    Except Int Rrset → Prop
  | .error e => e = krError ENOENT ∧ ¬∃ a, (sname, a) ∈ R
  | .ok rr => (∃ a, (sname, a) ∈ R) ∧ ∃ addrs : List (List UInt8),
      rr = ⟨sname, stype, sclass, ttl, addrs.map .addr⟩ ∧ addrs.Nodup ∧
        ∀ a, a ∈ addrs ↔ (sname, a) ∈ R ∧ a.length = familyLen stype

/-- A PTR answer by the relation: ENOENT for a name that is the reverse name of no address the
relation pairs with a name, and otherwise one such name. -/
def ReverseAnswer (R : HintsRel) (ttl : UInt32) (sname : Dname) : Except Int Rrset → Prop
  | .error e => e = krError ENOENT ∧ ¬∃ n a, (n, a) ∈ R ∧ addr2reverse a = some sname
  | .ok rr => ∃ n a, (n, a) ∈ R ∧ addr2reverse a = some sname ∧
      rr = ⟨sname, knotRrtypePtr, knotClassIn, ttl, [.raw (knotDnameWire n)]⟩

/-- `hint_get` by the relation: NULL for a name it pairs with no address, and otherwise the
addresses it pairs the name with, once each. -/
def GetAnswer (R : HintsRel) (name : Dname) : Option (List (List UInt8)) → Prop
  | none => ¬∃ a, (name, a) ∈ R
  | some addrs => addrs.Nodup ∧ ∀ a, a ∈ addrs ↔ (name, a) ∈ R

/-! ## Forward answers -/

section Forward

variable {data : HintsData} {fwd rev : NssetMap} {R : HintsRel}

/-- The loop of `satisfy_forward` over addresses held once each: the records of the family's
length, in their order. -/
theorem foldl_addAddr (len : Nat) :
    ∀ (addrs : List (List UInt8)) (rr : Rrset),
      (rr.rrs ++ (addrs.filter (·.length == len)).map Rdata.addr).Nodup →
      addrs.foldl (fun rr addr =>
          if addr.length = len then knotRrsetAddRdata rr (.addr addr) else rr) rr =
        { rr with rrs := rr.rrs ++ (addrs.filter (·.length == len)).map Rdata.addr }
  | [], rr, _ => by simp
  | addr :: addrs, rr, hnd => by
    rw [List.foldl_cons]
    by_cases hlen : addr.length = len
    · rw [List.filter_cons_of_pos (by simpa using hlen), List.map_cons] at hnd ⊢
      have hnot : Rdata.addr addr ∉ rr.rrs := fun hin =>
        List.disjoint_of_nodup_append hnd hin List.mem_cons_self
      rw [if_pos hlen, knotRrsetAddRdata, if_neg hnot,
        foldl_addAddr len addrs _ (by simpa using hnd)]
      simp
    · rw [List.filter_cons_of_neg (by simpa using hlen)] at hnd ⊢
      rw [if_neg hlen, foldl_addAddr len addrs rr hnd]

/-- `satisfy_forward` on data holding the forward map `fwd`: ENOENT for a name without addresses,
and otherwise the records of the family's length of the name's list, in its order. -/
theorem satisfyForwardRr_eq (h : HintsHolds data fwd rev) (hnodup : fwd.Nodup) (ttl : UInt32)
    (sname : Dname) (stype sclass : UInt16) :
    satisfyForwardRr data ttl sname stype sclass =
      some (if (fwd (knotDnameWire sname)).getD [] = [] then .error (krError ENOENT)
        else .ok ⟨sname, stype, sclass, ttl,
          (((fwd (knotDnameWire sname)).getD []).filter (·.length == familyLen stype)).map
            .addr⟩) := by
  rcases krZonecutFind_of_holds h.hints (knotDnameWire sname) with
    ⟨hnone, hfind⟩ | ⟨p, objs, hobjs, hfind, hp⟩
  · rw [satisfyForwardRr, hfind, hnone]
    rfl
  · rw [satisfyForwardRr, hfind, hobjs, Option.getD_some]
    dsimp only
    by_cases hnil : objs = []
    · rw [if_pos (hp.len_eq_zero_iff.2 hnil), if_pos hnil]
    · rw [if_neg (mt hp.len_eq_zero_iff.1 hnil), if_neg hnil, packWalk_eq hp]
      -- the pack holds each address once, so `knot_rrset_add_rdata` drops none
      have hnd : ([] ++ (objs.filter fun a : List UInt8 => a.length == familyLen stype).map
          Rdata.addr).Nodup :=
        ((hnodup _ objs hobjs).filter _).map fun _ _ h => Rdata.addr.inj h
      rw [Option.map_eq_map, Option.map_some, foldl_addAddr _ objs _ hnd]
      rfl

/-- On data holding the two views of `R`, the A or AAAA answer for a name in lower case is the one
`R` gives. -/
theorem satisfyForwardRr_answers (h : HintsHolds data fwd rev) (hinv : HintsInv fwd rev R)
    (ttl : UInt32) {sname : Dname} (hs : LowerName sname) (stype sclass : UInt16) :
    ∃ r, satisfyForwardRr data ttl sname stype sclass = some r ∧
      ForwardAnswer R ttl sname stype sclass r := by
  refine ⟨_, satisfyForwardRr_eq h hinv.fwd_nodup ttl sname stype sclass, ?_⟩
  by_cases hnil : (fwd (knotDnameWire sname)).getD [] = []
  · rw [if_pos hnil, ForwardAnswer]
    exact ⟨rfl, mt (hinv.getD_ne_nil_iff hs).2 (not_not.2 hnil)⟩
  · rw [if_neg hnil, ForwardAnswer]
    refine ⟨(hinv.getD_ne_nil_iff hs).1 hnil, _, rfl, (hinv.fwd_nodup.getD _).filter _,
      fun a => ?_⟩
    rw [List.mem_filter, beq_iff_eq, hinv.mem_getD_iff hs]

/-- `hint_get` on data holding the forward map `fwd`: NULL for a name without addresses, and
otherwise the name's list. -/
theorem hintGet_eq (h : HintsHolds data fwd rev) (name : Dname) :
    hintGet data name = some (if (fwd (knotDnameWire name)).getD [] = [] then none
      else some ((fwd (knotDnameWire name)).getD [])) := by
  rcases krZonecutFind_of_holds h.hints (knotDnameWire name) with
    ⟨hnone, hfind⟩ | ⟨p, objs, hobjs, hfind, hp⟩
  · rw [hintGet, hfind, hnone]
    rfl
  · rw [hintGet, hfind, hobjs, Option.getD_some]
    dsimp only
    by_cases hnil : objs = []
    · rw [if_pos (hp.len_eq_zero_iff.2 hnil), if_pos hnil]
    · rw [if_neg (mt hp.len_eq_zero_iff.1 hnil), if_neg hnil, packWalk_eq hp]
      rfl

/-- On data holding the two views of `R`, `hint_get` of a name in lower case is the one `R`
gives. -/
theorem hintGet_answers (h : HintsHolds data fwd rev) (hinv : HintsInv fwd rev R) {name : Dname}
    (hn : LowerName name) : ∃ r, hintGet data name = some r ∧ GetAnswer R name r := by
  refine ⟨_, hintGet_eq h name, ?_⟩
  by_cases hnil : (fwd (knotDnameWire name)).getD [] = []
  · rw [if_pos hnil, GetAnswer]
    exact mt (hinv.getD_ne_nil_iff hn).2 (not_not.2 hnil)
  · rw [if_neg hnil, GetAnswer]
    exact ⟨hinv.fwd_nodup.getD _, hinv.mem_getD_iff hn⟩

end Forward

/-! ## The reverse view holds nothing else -/

/-- The two views of `R`, where the reverse view holds nothing but pairs of `R`: each name in the
list of a reverse name is one `R` pairs with an address of that reverse name. -/
structure HintsExact (fwd rev : NssetMap) (R : HintsRel) : Prop extends HintsInv fwd rev R where
  rev_sound : ∀ K x, x ∈ (rev K).getD [] →
    ∃ n a k, (n, a) ∈ R ∧ addr2reverse a = some k ∧ K = knotDnameWire k ∧ x = knotDnameWire n

theorem hintsExact_empty : HintsExact (fun _ => none) (fun _ => none) ∅ where
  toHintsInv := hintsInv_empty
  rev_sound := fun _ _ h => absurd h List.not_mem_nil

section Exact

variable {data : HintsData} {fwd rev : NssetMap} {R : HintsRel}

/-- `hint_set` of a pair: the name it adds under the reverse name is the pair's. -/
theorem HintsExact.set (hx : HintsExact fwd rev R) {n : Dname} {a : List UInt8} (hn : LowerName n)
    (ha : ValidAddr a) {k : Dname} (hk : addr2reverse a = some k) :
    HintsExact (fwd.add (knotDnameWire n) (some a))
      (rev.add (knotDnameWire k) (some (knotDnameWire n))) (insert (n, a) R) where
  toHintsInv := hx.toHintsInv.set hn ha hk
  rev_sound := by
    intro K x hmem
    rw [NssetMap.getD_add] at hmem
    by_cases hK : K = knotDnameWire k
    · rw [if_pos hK, mem_packAdd] at hmem
      rcases hmem with hmem | rfl
      · obtain ⟨n', a', k', hR, hk', hK', hx'⟩ := hx.rev_sound _ x hmem
        exact ⟨n', a', k', Set.mem_insert_of_mem _ hR, hk', hK.trans hK', hx'⟩
      · exact ⟨n, a, k, Set.mem_insert _ _, hk, hK, rfl⟩
    · rw [if_neg hK] at hmem
      obtain ⟨n', a', k', hR, hk', hK', hx'⟩ := hx.rev_sound K x hmem
      exact ⟨n', a', k', Set.mem_insert_of_mem _ hR, hk', hK', hx'⟩

/-- `hint_del` of a pair: what is left under a reverse name is a pair other than the one
deleted. -/
theorem HintsExact.delSome (hx : HintsExact fwd rev R) {n : Dname} {a : List UInt8}
    (hn : LowerName n) (ha : ValidAddr a) {k : Dname} (hk : addr2reverse a = some k) :
    HintsExact (fwd.del (knotDnameWire n) (some a)).2
      (rev.del (knotDnameWire k) (some (knotDnameWire n))).2 (R \ {(n, a)}) where
  toHintsInv := hx.toHintsInv.delSome hn ha hk
  rev_sound := by
    intro K x hmem
    rw [NssetMap.getD_del] at hmem
    by_cases hK : K = knotDnameWire k
    · -- under the reverse name of `a`, the name `n` is gone
      rw [if_pos hK, (hx.rev_nodup.getD _).mem_erase_iff] at hmem
      obtain ⟨n', a', k', hR, hk', hK', rfl⟩ := hx.rev_sound _ _ hmem.2
      refine ⟨n', a', k', ⟨hR, fun hpair => ?_⟩, hk', hK.trans hK', rfl⟩
      obtain ⟨rfl, rfl⟩ := Prod.mk.inj (Set.mem_singleton_iff.1 hpair)
      exact hmem.1 rfl
    · -- under another reverse name, the pair found has another address
      rw [if_neg hK] at hmem
      obtain ⟨n', a', k', hR, hk', hK', rfl⟩ := hx.rev_sound K _ hmem
      refine ⟨n', a', k', ⟨hR, fun hpair => ?_⟩, hk', hK', rfl⟩
      obtain ⟨rfl, rfl⟩ := Prod.mk.inj (Set.mem_singleton_iff.1 hpair)
      rw [Option.some.inj (hk'.symm.trans hk)] at hK'
      exact hK hK'

/-- `hint_del` of a name: what is left under a reverse name belongs to another name. -/
theorem HintsExact.delName (hx : HintsExact fwd rev R) {n : Dname} (hn : LowerName n) :
    HintsExact (if (fwd (knotDnameWire n)).getD [] = [] then fwd
        else (fwd.delAll (knotDnameWire n)).2)
      (((fwd (knotDnameWire n)).getD []).foldl (delReverseMap (knotDnameWire n)) rev)
      {p ∈ R | p.1 ≠ n} where
  toHintsInv := hx.toHintsInv.delName hn
  rev_sound := by
    intro K x hmem
    rw [mem_foldl_delReverseMap _ _ _ _ hx.rev_nodup] at hmem
    obtain ⟨n', a', k', hR, hk', rfl, rfl⟩ := hx.rev_sound _ _ hmem.1
    refine ⟨n', a', k', ⟨hR, fun hnn => ?_⟩, hk', rfl, rfl⟩
    -- a pair of `n` at this reverse name would have had the name removed there
    have hv := hx.rel_valid _ hR
    apply hmem.2
    refine ⟨congrArg knotDnameWire hnn, a', ?_, by rw [hk', Option.map_some]⟩
    rw [← hnn]
    exact (hx.mem_getD_iff hv.1 a').2 hR

/-- One valid call keeps the exact views. -/
theorem HintsExact.call (h : HintsHolds data fwd rev) (hx : HintsExact fwd rev R) {op : HintOp}
    (hop : op.Valid) :
    ∃ b data' fwd' rev', op.call data = some (b, data') ∧ op.Answer R b ∧
      HintsHolds data' fwd' rev' ∧ HintsExact fwd' rev' (op.applyRel R) := by
  rcases HintOp.call_cases h hop with ⟨n, a, k, rfl, hn, ha, hk, data', hcall, h'⟩ |
    ⟨n, a, k, rfl, hn, ha, hk, data', hcall, h'⟩ | ⟨n, rfl, hn, data', hcall, h'⟩
  · exact ⟨true, data', _, _, hcall, rfl, h', hx.set hn ha hk⟩
  · exact ⟨_, data', _, _, hcall, hx.delSome_answer hn ha, h', hx.delSome hn ha hk⟩
  · exact ⟨_, data', _, _, hcall, hx.delName_answer hn, h', hx.delName hn⟩

end Exact

/-! ## Reverse answers -/

section Reverse

variable {data : HintsData} {fwd rev : NssetMap} {R : HintsRel}

/-- `satisfy_reverse` on data holding the reverse map `rev`: ENOENT for a reverse name without
names, and otherwise the last name of its list. -/
theorem satisfyReverseRr_eq (h : HintsHolds data fwd rev) (ttl : UInt32) (sname : Dname) :
    ((rev (knotDnameWire sname)).getD [] = [] →
      satisfyReverseRr data ttl sname = some (.error (krError ENOENT))) ∧
    ∀ x, ((rev (knotDnameWire sname)).getD []).getLast? = some x →
      satisfyReverseRr data ttl sname =
        some (.ok ⟨sname, knotRrtypePtr, knotClassIn, ttl, [.raw x]⟩) := by
  rcases krZonecutFind_of_holds h.reverseHints (knotDnameWire sname) with
    ⟨hnone, hfind⟩ | ⟨p, objs, hobjs, hfind, hp⟩
  · rw [hnone, Option.getD_none]
    refine ⟨fun _ => ?_, fun x hx => absurd hx (by simp)⟩
    rw [satisfyReverseRr, hfind]
  · rw [hobjs, Option.getD_some]
    refine ⟨fun hnil => ?_, fun x hx => ?_⟩
    · rw [satisfyReverseRr, hfind]
      dsimp only
      rw [if_pos (hp.len_eq_zero_iff.2 hnil)]
    · have hne : objs ≠ [] := by
        rintro rfl
        simp at hx
      -- `pack_last` stops at the last name, which is read back
      obtain ⟨r, hlast, hread⟩ := packLast_spec hp
      rw [hx] at hread
      cases r with
      | none => cases hread
      | some it =>
        have hval : packObjRead p it = some x := hread
        rw [satisfyReverseRr, hfind]
        dsimp only
        rw [if_neg (mt hp.len_eq_zero_iff.1 hne)]
        simp only [hlast, hval, Option.bind_eq_bind, Option.bind_some, Option.pure_def]
        simp [knotRrsetAddRdata]

/-- On data holding the exact views of `R`, the PTR answer for any valid name is the one `R`
gives. -/
theorem satisfyReverseRr_answers (h : HintsHolds data fwd rev) (hx : HintsExact fwd rev R)
    (ttl : UInt32) {sname : Dname} (hs : ValidName sname) :
    ∃ r, satisfyReverseRr data ttl sname = some r ∧ ReverseAnswer R ttl sname r := by
  obtain ⟨hnil, hlast⟩ := satisfyReverseRr_eq h ttl sname
  cases hl : ((rev (knotDnameWire sname)).getD []).getLast? with
  | none =>
    have hempty := List.getLast?_eq_none_iff.1 hl
    refine ⟨_, hnil hempty, ?_⟩
    rw [ReverseAnswer]
    refine ⟨rfl, ?_⟩
    -- a pair of `R` would put its name under the reverse name of its address
    rintro ⟨n, a, hR, hk⟩
    have hv := hx.rel_valid _ hR
    have hmem := (hx.reverse n a sname hv.1 hv.2 hk).2 hR
    rw [hempty] at hmem
    exact List.not_mem_nil hmem
  | some x =>
    refine ⟨_, hlast x hl, ?_⟩
    rw [ReverseAnswer]
    obtain ⟨n, a, k, hR, hk, hK, rfl⟩ := hx.rev_sound _ x (List.mem_of_getLast? hl)
    -- the reverse name is the queried one, since wire names tell valid names apart
    have hks : sname = k :=
      knotDnameWire_inj hs (validName_addr2reverse (hx.rel_valid _ hR).2 hk) hK
    exact ⟨n, a, hR, hks ▸ hk, rfl⟩

end Reverse

/-- From the module's empty data, after any run of valid `hint_set` and `hint_del` calls, each call
has answered as the relation says, and every A, AAAA and PTR answer and every `hint_get` is the
one the relation of the run gives: forward answers and `hint_get` for names in lower case, PTR
answers for any valid name. -/
theorem hintsRun_answers (ops : List HintOp) (hops : ∀ op ∈ ops, op.Valid) :
    ∃ bs data, hintsRun hintsInit ops = some (bs, data) ∧ Answers ops ∅ bs ∧
      (∀ ttl sname stype sclass, LowerName sname → ∃ r,
        satisfyForwardRr data ttl sname stype sclass = some r ∧
          ForwardAnswer (relRun ops ∅) ttl sname stype sclass r) ∧
      (∀ ttl sname, ValidName sname → ∃ r,
        satisfyReverseRr data ttl sname = some r ∧ ReverseAnswer (relRun ops ∅) ttl sname r) ∧
      ∀ name, LowerName name → ∃ r,
        hintGet data name = some r ∧ GetAnswer (relRun ops ∅) name r := by
  obtain ⟨bs, data, hrun, hans, fwd, rev, h, hx⟩ := hintsRun_of_step HintsExact
    (fun h hx hop => hx.call h hop) ops hops hintsHolds_init hintsExact_empty
  refine ⟨bs, data, hrun, hans, fun ttl sname stype sclass hs => ?_, fun ttl sname hs => ?_,
    fun name hn => ?_⟩
  · exact satisfyForwardRr_answers h hx.toHintsInv ttl hs stype sclass
  · exact satisfyReverseRr_answers h hx ttl hs
  · exact hintGet_answers h hx.toHintsInv hn

/-- `hint_set("a 192.0.2.1")` on a new module is a valid run, answered as its relation says. -/
theorem hintsRun_answers_setA :
    (∀ op ∈ [HintOp.set [[0x61]] addrIpv4], op.Valid) ∧
    ∃ bs data, hintsRun hintsInit [.set [[0x61]] addrIpv4] = some (bs, data) ∧
      Answers [.set [[0x61]] addrIpv4] ∅ bs ∧
      (∀ ttl sname stype sclass, LowerName sname → ∃ r,
        satisfyForwardRr data ttl sname stype sclass = some r ∧
          ForwardAnswer (relRun [.set [[0x61]] addrIpv4] ∅) ttl sname stype sclass r) ∧
      (∀ ttl sname, ValidName sname → ∃ r, satisfyReverseRr data ttl sname = some r ∧
        ReverseAnswer (relRun [.set [[0x61]] addrIpv4] ∅) ttl sname r) ∧
      ∀ name, LowerName name → ∃ r,
        hintGet data name = some r ∧ GetAnswer (relRun [.set [[0x61]] addrIpv4] ∅) name r :=
  ⟨by decide, hintsRun_answers _ (by decide)⟩

end KnotResolver.Hints
