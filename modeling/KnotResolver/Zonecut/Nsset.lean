import KnotResolver.Generic.Pack
import KnotResolver.Generic.TrieSpec
import KnotResolver.Layer.IterateCut

/-!
# The name servers of a zone cut (`lib/zonecut.c`)

`cut->nsset` is a trie from the wire names of name servers to `pack_t *`, each pack holding the
objects of one name server (its addresses; in the reverse hints, names). `kr_zonecut_add` gets the
slot of the name by `trie_get_ins`, gives a new name an empty pack, and pushes the object after
`pack_reserve_mm` unless `pack_obj_find` finds it there; `kr_zonecut_del` cuts the object out by
`pack_obj_del` and drops the name once its pack is empty; `kr_zonecut_del_all` drops the name;
`kr_zonecut_find` reads the slot by `trie_get_try`.

The pack is held by value in the model's slot, so a change to the pack is a write through the
slot of its name. The length is the caller's `int len`, handed on to `pack_obj_find`,
`pack_obj_push` and `pack_obj_del` as a 16-bit `pack_objlen_t`.

What the calls are for is a map from names to lists of objects (`NssetMap`, with `packAdd` of the
iterator's zone cut): an object is appended only when absent, deleted at its first copy, and a
name whose list empties leaves the map. Every run of calls keeps the trie holding the map
(`nssetRun_spec`) when each object has 1 to 65535 bytes. A longer object is cut to its length
modulo 65536 (`nsset_add_long_object`).
-/

namespace KnotResolver.Zonecut

open Generic

/-! ## The calls -/

/-- `kr_zonecut_find`: the pack of a name server, NULL for an absent one. -/
def krZonecutFind (nsset : Trie PackT) (ns : List UInt8) : Option (Option PackT) :=
  (trieGetTry nsset ns).map fun val => val.bind id

/-- `kr_zonecut_add` of `len` bytes of `data`, or of the name server alone for NULL. -/
def krZonecutAdd (nsset : Trie PackT) (ns : List UInt8) (data : Option (List UInt8)) (len : Int) :
    Option (Int × Trie PackT) :=
  if data.isSome && len ≤ 0 then some (krError EINVAL, nsset)
  else
    match trieGetIns nsset ns with
    | none => none
    | some (tbl, slot) =>
      -- a new name server gets an empty pack
      let pack := slot.val.getD packInit
      let store := fun p : PackT => Trie.mk (slot.write (some p)) tbl.weight
      match data with
      | none => some (krOk, store pack)
      | some d =>
        match packObjFind pack d len.toNat.toUInt16 with
        | none => none
        -- a duplicate is not pushed again
        | some (some _) => some (krOk, store pack)
        | some none =>
          let pack := packReserve pack 1 len.toNat
          match packObjPush pack d len.toNat.toUInt16 with
          | .ok pack => some (krOk, store pack)
          | .error e => some (e, store pack)

/-- The deletion `kr_zonecut_del` makes in the pack it found: `pack_obj_del` of `data`, nothing
for NULL. -/
def delObj (pack : PackT) (data : Option (List UInt8)) (len : Int) : Option (Int × PackT) :=
  match data with
  | some d => packObjDel pack d len.toNat.toUInt16
  | none => some (krOk, pack)

/-- The end of `kr_zonecut_del`: a pack left empty takes its name server out of the set; any
other pack, changed in place, is written back through the slot of its name. -/
def delStore (nsset : Trie PackT) (ns : List UInt8) (ret : Int) (pack : PackT) :
    Option (Int × Trie PackT) :=
  if pack.len = 0 then
    match trieDel nsset ns with
    | none => none
    | some (.ok (tbl, _)) => some (krOk, tbl)
    | some (.error e) => some (krError e, nsset)
  else (trieStep nsset (.set ns (some pack))).map fun tbl => (ret, tbl)

/-- `kr_zonecut_del` of `len` bytes of `data`, or of no object for NULL. -/
def krZonecutDel (nsset : Trie PackT) (ns : List UInt8) (data : Option (List UInt8)) (len : Int) :
    Option (Int × Trie PackT) :=
  if data.isSome && len ≤ 0 then some (krError EINVAL, nsset)
  else
    match krZonecutFind nsset ns with
    | none => none
    | some none => some (krError ENOENT, nsset)
    | some (some pack) =>
      match delObj pack data len with
      | none => none
      | some (ret, pack) => delStore nsset ns ret pack

/-- `kr_zonecut_del_all`. -/
def krZonecutDelAll (nsset : Trie PackT) (ns : List UInt8) : Option (Int × Trie PackT) :=
  match trieDel nsset ns with
  | none => none
  | some (.ok (tbl, _)) => some (krOk, tbl)
  | some (.error _) => some (krError ENOENT, nsset)

/-- The calls a run is made of. -/
inductive NssetOp where
  | add (ns : List UInt8) (data : Option (List UInt8))
  | del (ns : List UInt8) (data : Option (List UInt8))
  | delAll (ns : List UInt8)

/-- The `len` a caller passes with `data`: its size, and 0 with NULL. -/
def dataLen : Option (List UInt8) → Int
  | some d => d.length
  | none => 0

/-- One call; its return code and the name servers it leaves. -/
def nssetStep (nsset : Trie PackT) : NssetOp → Option (Int × Trie PackT)
  | .add ns data => krZonecutAdd nsset ns data (dataLen data)
  | .del ns data => krZonecutDel nsset ns data (dataLen data)
  | .delAll ns => krZonecutDelAll nsset ns

/-- A sequence of calls; their return codes and the name servers they leave. -/
def nssetRun (nsset : Trie PackT) : List NssetOp → Option (List Int × Trie PackT)
  | [] => some ([], nsset)
  | op :: ops => (nssetStep nsset op).bind fun r =>
    (nssetRun r.2 ops).map fun rs => (r.1 :: rs.1, rs.2)

/-! ## What the calls are for -/

/-- The name servers as the calls mean them: the objects of each present name. -/
abbrev NssetMap := List UInt8 → Option (List (List UInt8))

/-- An object out of a list: its first copy goes. -/
def packDel (objs : List (List UInt8)) : Option (List UInt8) → List (List UInt8)
  | some d => objs.erase d
  | none => objs

/-- What a deletion from a list returns: 0, and -1 for an object the list does not hold. -/
def packDelRet (objs : List (List UInt8)) : Option (List UInt8) → Int
  | some d => if objs.contains d then 0 else -1
  | none => krOk

namespace NssetMap

/-- `kr_zonecut_add` as meant: the name present, with the object in its list once. -/
def add (m : NssetMap) (ns : List UInt8) (data : Option (List UInt8)) : NssetMap :=
  Function.update m ns (some (packAdd ((m ns).getD []) data))

/-- `kr_zonecut_del` as meant: the object out of the name's list, and the name out of the map
once its list is empty. -/
def del (m : NssetMap) (ns : List UInt8) (data : Option (List UInt8)) : Int × NssetMap :=
  match m ns with
  | none => (krError ENOENT, m)
  | some objs =>
    if packDel objs data = [] then (krOk, Function.update m ns none)
    else (packDelRet objs data, Function.update m ns (some (packDel objs data)))

/-- `kr_zonecut_del_all` as meant: the name out of the map. -/
def delAll (m : NssetMap) (ns : List UInt8) : Int × NssetMap :=
  match m ns with
  | none => (krError ENOENT, m)
  | some _ => (krOk, Function.update m ns none)

/-- No list holds an object twice. -/
def Nodup (m : NssetMap) : Prop := ∀ ns objs, m ns = some objs → objs.Nodup

end NssetMap

/-- A call on the map: its return code and the map it leaves. -/
def NssetOp.apply : NssetOp → NssetMap → Int × NssetMap
  | .add ns data, m => (krOk, m.add ns data)
  | .del ns data, m => m.del ns data
  | .delAll ns, m => m.delAll ns

/-- A sequence of calls on the map. -/
def NssetOp.runFrom (m : NssetMap) : List NssetOp → List Int × NssetMap
  | [] => ([], m)
  | op :: ops =>
    let rs := NssetOp.runFrom (op.apply m).2 ops
    ((op.apply m).1 :: rs.1, rs.2)

/-- A sequence of calls from the empty map. -/
def NssetOp.run (ops : List NssetOp) : List Int × NssetMap := NssetOp.runFrom (fun _ => none) ops

/-- An object the calls store as it is: 1 to 65535 bytes. -/
def DataFits : Option (List UInt8) → Prop
  | some d => 1 ≤ d.length ∧ d.length ≤ 65535
  | none => True

instance : ∀ data, Decidable (DataFits data)
  | some _ => inferInstanceAs (Decidable (_ ∧ _))
  | none => inferInstanceAs (Decidable True)

/-- A call whose object fits. -/
def NssetOp.Fits : NssetOp → Prop
  | .add _ data => DataFits data
  | .del _ data => DataFits data
  | .delAll _ => True

instance : ∀ op, Decidable (NssetOp.Fits op)
  | .add _ data => inferInstanceAs (Decidable (DataFits data))
  | .del _ data => inferInstanceAs (Decidable (DataFits data))
  | .delAll _ => inferInstanceAs (Decidable True)

/-! ## The map's invariant -/

section Nodup

theorem packAdd_nodup {objs : List (List UInt8)} (h : objs.Nodup) (data : Option (List UInt8)) :
    (packAdd objs data).Nodup := by
  cases data with
  | none => exact h
  | some d =>
    by_cases hd : d ∈ objs
    · rw [packAdd, if_pos hd]
      exact h
    · rw [packAdd, if_neg hd]
      exact h.append (List.nodup_singleton d) (List.disjoint_singleton.2 hd)

theorem NssetMap.Nodup.update {m : NssetMap} (h : m.Nodup) (ns : List UInt8)
    {o : Option (List (List UInt8))} (ho : ∀ objs, o = some objs → objs.Nodup) :
    NssetMap.Nodup (Function.update m ns o) := by
  intro k objs hk
  by_cases hkn : k = ns
  · subst hkn
    rw [Function.update_self] at hk
    exact ho objs hk
  · rw [Function.update_of_ne hkn] at hk
    exact h k objs hk

theorem NssetOp.apply_nodup {m : NssetMap} (h : m.Nodup) : ∀ op : NssetOp, (op.apply m).2.Nodup
  | .add ns data => by
    show (m.add ns data).Nodup
    refine h.update ns fun objs ho => ?_
    cases ho
    have hobjs : ((m ns).getD []).Nodup := by
      cases hm : m ns with
      | none => exact List.nodup_nil
      | some objs => exact h ns objs hm
    exact packAdd_nodup hobjs data
  | .del ns data => by
    show (m.del ns data).2.Nodup
    unfold NssetMap.del
    split
    · exact h
    · next objs hm =>
      have hdel : (packDel objs data).Nodup := by
        cases data with
        | none => exact h ns objs hm
        | some d => exact (h ns objs hm).erase d
      split
      · exact h.update ns nofun
      · exact h.update ns fun _ ho => Option.some.inj ho ▸ hdel
  | .delAll ns => by
    show (m.delAll ns).2.Nodup
    unfold NssetMap.delAll
    split
    · exact h
    · exact h.update ns nofun

theorem NssetOp.runFrom_nodup : ∀ (ops : List NssetOp) {m : NssetMap}, m.Nodup →
    (NssetOp.runFrom m ops).2.Nodup
  | [], _, h => h
  | op :: ops, _, h => NssetOp.runFrom_nodup ops (NssetOp.apply_nodup h op)

end Nodup

/-! ## The lists of the map after a call -/

section Lookup

variable (m : NssetMap) (ns ns' d : List UInt8)

theorem NssetMap.Nodup.getD {m : NssetMap} (h : m.Nodup) (ns : List UInt8) :
    ((m ns).getD []).Nodup := by
  cases hm : m ns with
  | none => exact List.nodup_nil
  | some objs => exact h ns objs hm

theorem mem_packAdd {objs : List (List UInt8)} {d x : List UInt8} :
    x ∈ packAdd objs (some d) ↔ x ∈ objs ∨ x = d := by
  by_cases hd : d ∈ objs
  · rw [packAdd, if_pos hd]
    exact ⟨.inl, fun h => h.elim id fun hx => hx ▸ hd⟩
  · rw [packAdd, if_neg hd, List.mem_append, List.mem_singleton]

theorem NssetMap.getD_add :
    ((m.add ns (some d)) ns').getD [] =
      if ns' = ns then packAdd ((m ns).getD []) (some d) else (m ns').getD [] := by
  by_cases h : ns' = ns
  · subst h
    rw [if_pos rfl, NssetMap.add, Function.update_self, Option.getD_some]
  · rw [if_neg h, NssetMap.add, Function.update_of_ne h]

/-- What `del` leaves: the name's slot is absent once its list is empty, and holds the list less
the object otherwise; every other name keeps its slot. -/
theorem NssetMap.del_snd (data : Option (List UInt8)) :
    (m.del ns data).2 = Function.update m ns ((m ns).bind fun objs =>
      if packDel objs data = [] then none else some (packDel objs data)) := by
  unfold NssetMap.del
  cases hm : m ns with
  | none => exact (Function.update_eq_self_iff.2 hm.symm).symm
  | some objs =>
    simp only [Option.bind_some]
    split_ifs <;> rfl

/-- What `delAll` leaves: the name's slot absent, every other name's slot as it was. -/
theorem NssetMap.delAll_snd : (m.delAll ns).2 = Function.update m ns none := by
  unfold NssetMap.delAll
  cases hm : m ns with
  | none => exact (Function.update_eq_self_iff.2 hm.symm).symm
  | some objs => rfl

theorem NssetMap.getD_del :
    ((m.del ns (some d)).2 ns').getD [] =
      if ns' = ns then ((m ns).getD []).erase d else (m ns').getD [] := by
  rw [NssetMap.del_snd]
  by_cases h : ns' = ns
  · rw [if_pos h, h, Function.update_self]
    cases m ns with
    | none => rfl
    | some objs =>
      -- the name's list loses the object, and the name goes when nothing is left
      simp only [Option.bind_some, Option.getD_some]
      split_ifs with hnil
      · rw [Option.getD_none, ← hnil]
        rfl
      · rfl
  · rw [if_neg h, Function.update_of_ne h]

theorem NssetMap.getD_delAll :
    ((m.delAll ns).2 ns').getD [] = if ns' = ns then [] else (m ns').getD [] := by
  rw [NssetMap.delAll_snd]
  by_cases h : ns' = ns
  · rw [if_pos h, h, Function.update_self, Option.getD_none]
  · rw [if_neg h, Function.update_of_ne h]

/-- Deleting an object from a name with a nonempty list answers 0 exactly when the list held it. -/
theorem NssetMap.del_fst_eq_zero_iff (hne : m ns ≠ some []) :
    (m.del ns (some d)).1 = 0 ↔ d ∈ (m ns).getD [] := by
  unfold NssetMap.del
  cases hm : m ns with
  | none => simp [krError, ENOENT]
  | some objs =>
    dsimp only
    split_ifs with hnil
    · -- the list was the object alone
      have hobjs : objs ≠ [] := fun h => hne (by rw [hm, h])
      have hmem : d ∈ objs := by
        by_contra hd
        exact hobjs (by rw [← List.erase_of_not_mem hd]; exact hnil)
      simp [krOk, hmem]
    · simp [packDelRet]

/-- No list of the map is empty. -/
def NssetMap.NeNil : Prop := ∀ ns, m ns ≠ some []

theorem NssetMap.NeNil.add {m : NssetMap} (h : m.NeNil) (ns d : List UInt8) :
    (m.add ns (some d)).NeNil := by
  intro k hk
  by_cases hkn : k = ns
  · subst hkn
    rw [NssetMap.add, Function.update_self, Option.some.injEq] at hk
    have hd : d ∈ packAdd ((m k).getD []) (some d) := mem_packAdd.2 (.inr rfl)
    rw [hk] at hd
    exact List.not_mem_nil hd
  · rw [NssetMap.add, Function.update_of_ne hkn] at hk
    exact h k hk

theorem NssetMap.NeNil.del {m : NssetMap} (h : m.NeNil) (ns : List UInt8)
    (data : Option (List UInt8)) : (m.del ns data).2.NeNil := by
  intro k hk
  rw [NssetMap.del_snd] at hk
  by_cases hkn : k = ns
  · rw [hkn, Function.update_self] at hk
    -- the slot left is absent, or holds a nonempty list
    cases hm : m ns with
    | none => rw [hm] at hk; cases hk
    | some objs =>
      rw [hm] at hk
      simp only [Option.bind_some] at hk
      by_cases hnil : packDel objs data = []
      · rw [if_pos hnil] at hk
        cases hk
      · rw [if_neg hnil] at hk
        exact hnil (Option.some.inj hk)
  · rw [Function.update_of_ne hkn] at hk
    exact h k hk

theorem NssetMap.NeNil.delAll {m : NssetMap} (h : m.NeNil) (ns : List UInt8) :
    (m.delAll ns).2.NeNil := by
  intro k hk
  rw [NssetMap.delAll_snd] at hk
  by_cases hkn : k = ns
  · rw [hkn, Function.update_self] at hk
    cases hk
  · rw [Function.update_of_ne hkn] at hk
    exact h k hk

end Lookup

/-! ## The trie holding the map -/

/-- A name's slot holds its list: the name is absent from both, or its pack holds the list. -/
inductive SlotHolds : Option (Option PackT) → Option (List (List UInt8)) → Prop
  | absent : SlotHolds none none
  | pack {p : PackT} {objs : List (List UInt8)} : p.Holds objs → SlotHolds (some (some p)) (some objs)

/-- The trie of packs holds the map: it is well formed and each name's slot holds its list. -/
structure NssetHolds (nsset : Trie PackT) (m : NssetMap) : Prop where
  wf : nsset.Wf
  slot : ∀ ns, SlotHolds (nsset.contents.lookup ns) (m ns)

theorem nssetHolds_create : NssetHolds trieCreate fun _ => none := ⟨trieCreate_wf, fun _ => .absent⟩

/-- The pack `kr_zonecut_add` works on: the name's own, or a new empty one. -/
theorem SlotHolds.getD {v : Option (Option PackT)} {o : Option (List (List UInt8))}
    (h : SlotHolds v o) : ((v.bind id).getD packInit).Holds (o.getD []) := by
  cases h with
  | absent => exact packInit_holds
  | pack hp => exact hp

/-- `kr_zonecut_find` reads the name's slot. -/
theorem krZonecutFind_eq {nsset : Trie PackT} (h : nsset.Wf) (ns : List UInt8) :
    krZonecutFind nsset ns = some ((nsset.contents.lookup ns).bind id) := by
  rw [krZonecutFind, trieGetTry_eq h]
  rfl

theorem toNat_toUInt16_dataLen {d : List UInt8} (hd : d.length ≤ 65535) :
    (dataLen (some d)).toNat.toUInt16.toNat = d.length := by
  simp only [dataLen, Int.toNat_natCast, Nat.toUInt16_eq, UInt16.toNat_ofNat']
  omega

theorem not_einval_of_pos {d : List UInt8} (hd : 0 < d.length) :
    ¬((some d).isSome && decide (dataLen (some d) ≤ 0)) = true := by
  have hpos : ¬((d.length : Int) ≤ 0) := by omega
  simpa [dataLen] using hpos

theorem not_einval {data : Option (List UInt8)} (hfit : DataFits data) :
    ¬(data.isSome && decide (dataLen data ≤ 0)) = true := by
  cases data with
  | none => simp
  | some d => exact not_einval_of_pos hfit.1

namespace NssetHolds

variable {nsset : Trie PackT} {m : NssetMap}

/-- A pack written at a name: the map gets the pack's list there. -/
theorem upsert (h : NssetHolds nsset m) {tbl : Trie PackT} (hwf : tbl.Wf) {ns : List UInt8}
    {p : PackT} {objs : List (List UInt8)}
    (hc : tbl.contents = nsset.contents.upsert (List.compareLex compare) ns (some p))
    (hp : p.Holds objs) : NssetHolds tbl (Function.update m ns (some objs)) := by
  refine ⟨hwf, fun k => ?_⟩
  rw [hc]
  by_cases hk : k = ns
  · subst hk
    rw [List.lookup_upsert_self, Function.update_self]
    exact .pack hp
  · rw [List.lookup_upsert_of_ne _ hk, Function.update_of_ne hk]
    exact h.slot k

/-- A name dropped from the trie: the map drops it too. -/
theorem filter (h : NssetHolds nsset m) {tbl : Trie PackT} (hwf : tbl.Wf) {ns : List UInt8}
    (hc : tbl.contents = nsset.contents.filter (·.1 != ns)) :
    NssetHolds tbl (Function.update m ns none) := by
  refine ⟨hwf, fun k => ?_⟩
  rw [hc, List.lookup_filter_fst_ne]
  by_cases hk : k = ns
  · subst hk
    rw [beq_self_eq_true, if_pos rfl, Function.update_self]
    exact .absent
  · rw [beq_eq_false_iff_ne.2 hk, Function.update_of_ne hk]
    exact h.slot k

end NssetHolds

/-! ## Each call -/

section Calls

variable {nsset : Trie PackT} {m : NssetMap}

/-- `kr_zonecut_add` of an object that fits adds it to the name's list unless it is there. -/
theorem krZonecutAdd_spec (h : NssetHolds nsset m) (ns : List UInt8) {data : Option (List UInt8)}
    (hfit : DataFits data) :
    ∃ tbl, krZonecutAdd nsset ns data (dataLen data) = some (krOk, tbl) ∧
      NssetHolds tbl (m.add ns data) := by
  obtain ⟨tbl', slot, hget, hs⟩ := trieGetIns_spec h.wf ns
  have hpack : (slot.val.getD packInit).Holds ((m ns).getD []) := by
    rw [hs.val_eq]
    exact (h.slot ns).getD
  -- every pack is stored through the name's slot
  have hstore : ∀ {p objs}, p.Holds objs →
      NssetHolds ⟨slot.write (some p), tbl'.weight⟩ (Function.update m ns (some objs)) :=
    fun hp => h.upsert (hs.write h.wf _).1 (hs.write h.wf _).2 hp
  rw [krZonecutAdd, if_neg (not_einval hfit), hget]
  dsimp only
  cases data with
  | none => exact ⟨_, rfl, hstore hpack⟩
  | some d =>
    have hlen := toNat_toUInt16_dataLen hfit.2
    dsimp only
    rw [packObjFind_eq hpack hlen.symm]
    by_cases hmem : d ∈ (m ns).getD []
    · -- a duplicate: the pack as it was
      rw [if_pos hmem]
      refine ⟨_, rfl, ?_⟩
      rw [NssetMap.add, packAdd, if_pos hmem]
      exact hstore hpack
    · rw [if_neg hmem]
      dsimp only
      have hres := hpack.reserve 1 (dataLen (some d)).toNat
      obtain ⟨hbytes, -, hroom⟩ := packReserve_spec (slot.val.getD packInit) 1 (dataLen (some d)).toNat
      have hroom' : (packReserve (slot.val.getD packInit) 1 (dataLen (some d)).toNat).len +
          ((dataLen (some d)).toNat.toUInt16.toNat + 2) ≤
          (packReserve (slot.val.getD packInit) 1 (dataLen (some d)).toNat).cap := by
        have hL : (dataLen (some d)).toNat = d.length := by simp [dataLen]
        generalize (packReserve (slot.val.getD packInit) 1 (dataLen (some d)).toNat).cap = c at hroom ⊢
        rw [PackT.len, hbytes, hlen]
        rw [hL] at hroom
        unfold PackT.len at hroom
        omega
      obtain ⟨hpush, hheld⟩ := packObjPush_holds hres hlen.symm hroom'
      rw [hpush]
      refine ⟨_, rfl, ?_⟩
      rw [NssetMap.add, packAdd, if_neg hmem]
      exact hstore hheld

/-- The deletion in the pack: the list without the object, and its return code. -/
theorem delObj_spec {p : PackT} {objs : List (List UInt8)} (hp : p.Holds objs)
    {data : Option (List UInt8)} (hfit : DataFits data) :
    ∃ p', delObj p data (dataLen data) = some (packDelRet objs data, p') ∧
      p'.Holds (packDel objs data) := by
  cases data with
  | none => exact ⟨p, rfl, hp⟩
  | some d =>
    obtain ⟨p', hdel, hheld⟩ := packObjDel_eq hp (toNat_toUInt16_dataLen hfit.2).symm
    refine ⟨p', ?_, hheld⟩
    rw [delObj, hdel, packDelRet]
    by_cases hd : d ∈ objs <;> simp [hd]

/-- An emptied pack takes its name out of the trie. -/
theorem delStore_nil (h : NssetHolds nsset m) {ns : List UInt8} {p₀ : PackT}
    (hv : nsset.contents.lookup ns = some (some p₀)) {p : PackT} (hp : p.Holds []) (ret : Int) :
    ∃ tbl, delStore nsset ns ret p = some (krOk, tbl) ∧ NssetHolds tbl (Function.update m ns none) := by
  obtain ⟨r, hr, herr, hok⟩ := trieDel_spec h.wf ns
  rw [delStore, if_pos (hp.len_eq_zero_iff.2 rfl), hr]
  cases r with
  | error e =>
    -- `trie_del` of a present name does not fail
    rw [(herr e rfl).2] at hv
    cases hv
  | ok r =>
    obtain ⟨-, hwf, hc⟩ := hok r.1 r.2 rfl
    exact ⟨r.1, rfl, h.filter hwf hc⟩

/-- A pack left with objects is written back. -/
theorem delStore_ne_nil (h : NssetHolds nsset m) (ns : List UInt8) {p : PackT}
    {objs : List (List UInt8)} (hp : p.Holds objs) (hne : objs ≠ []) (ret : Int) :
    ∃ tbl, delStore nsset ns ret p = some (ret, tbl) ∧
      NssetHolds tbl (Function.update m ns (some objs)) := by
  obtain ⟨tbl, hstep, hwf, hc⟩ := trieStep_spec h.wf (.set ns (some p))
  rw [delStore, if_neg (mt hp.len_eq_zero_iff.1 hne), hstep]
  exact ⟨tbl, rfl, h.upsert hwf hc hp⟩

/-- `kr_zonecut_del` of an object that fits deletes it as the map does. -/
theorem krZonecutDel_spec (h : NssetHolds nsset m) (ns : List UInt8) {data : Option (List UInt8)}
    (hfit : DataFits data) :
    ∃ tbl, krZonecutDel nsset ns data (dataLen data) = some ((m.del ns data).1, tbl) ∧
      NssetHolds tbl (m.del ns data).2 := by
  rw [krZonecutDel, if_neg (not_einval hfit), krZonecutFind_eq h.wf]
  unfold NssetMap.del
  have hslot := h.slot ns
  generalize hv : nsset.contents.lookup ns = v at hslot ⊢
  generalize m ns = o at hslot ⊢
  cases hslot with
  | absent => exact ⟨nsset, rfl, h⟩
  | @pack p objs hp =>
    obtain ⟨p', hdel, hheld⟩ := delObj_spec hp hfit
    simp only [Option.bind_some, id_eq]
    rw [hdel]
    dsimp only
    by_cases hnil : packDel objs data = []
    · rw [if_pos hnil]
      exact delStore_nil h hv (hnil ▸ hheld) _
    · rw [if_neg hnil]
      exact delStore_ne_nil h ns hheld hnil _

/-- `kr_zonecut_del_all` drops the name as the map does. -/
theorem krZonecutDelAll_spec (h : NssetHolds nsset m) (ns : List UInt8) :
    ∃ tbl, krZonecutDelAll nsset ns = some ((m.delAll ns).1, tbl) ∧ NssetHolds tbl (m.delAll ns).2 := by
  obtain ⟨r, hr, herr, hok⟩ := trieDel_spec h.wf ns
  rw [krZonecutDelAll, hr]
  unfold NssetMap.delAll
  have hslot := h.slot ns
  cases r with
  | error e =>
    rw [(herr e rfl).2] at hslot
    generalize m ns = o at hslot ⊢
    cases hslot
    exact ⟨nsset, rfl, h⟩
  | ok r =>
    obtain ⟨tbl, v⟩ := r
    obtain ⟨hv, hwf, hc⟩ := hok tbl v rfl
    rw [hv] at hslot
    generalize m ns = o at hslot ⊢
    cases hslot
    exact ⟨tbl, rfl, h.filter hwf hc⟩

theorem nssetStep_spec (h : NssetHolds nsset m) :
    ∀ op : NssetOp, op.Fits →
      ∃ tbl, nssetStep nsset op = some ((op.apply m).1, tbl) ∧ NssetHolds tbl (op.apply m).2
  | .add ns _, hfit => krZonecutAdd_spec h ns hfit
  | .del ns _, hfit => krZonecutDel_spec h ns hfit
  | .delAll ns, _ => krZonecutDelAll_spec h ns

end Calls

/-! ## Runs -/

/-- Every run of calls whose objects fit keeps the trie holding the map and returns the map's
codes. -/
theorem nssetRun_spec : ∀ (ops : List NssetOp) {nsset : Trie PackT} {m : NssetMap},
    NssetHolds nsset m → (∀ op ∈ ops, op.Fits) →
      ∃ tbl, nssetRun nsset ops = some ((NssetOp.runFrom m ops).1, tbl) ∧
        NssetHolds tbl (NssetOp.runFrom m ops).2
  | [], nsset, _, h, _ => ⟨nsset, rfl, h⟩
  | op :: ops, _, _, h, hfit => by
    obtain ⟨tbl₁, hstep, h₁⟩ := nssetStep_spec h op (hfit op List.mem_cons_self)
    obtain ⟨tbl, hrun, h'⟩ := nssetRun_spec ops h₁ fun op' hop' => hfit op' (.tail _ hop')
    exact ⟨tbl, by rw [nssetRun, hstep, Option.bind_some, hrun]; rfl, h'⟩

/-- From an empty set, every run of `kr_zonecut_add`, `kr_zonecut_del` and `kr_zonecut_del_all`
with objects of 1 to 65535 bytes returns the codes of the map model and leaves a well-formed trie
whose packs hold the model's duplicate-free lists: `kr_zonecut_find` is NULL exactly for a name
the model lacks, and otherwise gives a pack whose objects tile its bytes, which the walk from
`pack_head` reads to `pack_tail` as the model's list, and in which `pack_obj_find` stops at the
first copy of an object. -/
theorem nsset_refines_map (ops : List NssetOp) (hfit : ∀ op ∈ ops, op.Fits) :
    ∃ nsset, nssetRun trieCreate ops = some ((NssetOp.run ops).1, nsset) ∧ nsset.Wf ∧
      (NssetOp.run ops).2.Nodup ∧
      ∀ ns, (krZonecutFind nsset ns = some none ∧ (NssetOp.run ops).2 ns = none) ∨
        ∃ p objs, krZonecutFind nsset ns = some (some p) ∧ (NssetOp.run ops).2 ns = some objs ∧
          p.Holds objs ∧ packWalk p = some objs ∧
          ∀ d : List UInt8, d.length < 2 ^ 16 → packObjFind p d d.length.toUInt16 =
            some (if d ∈ objs then some (packEncode (objs.takeWhile (· != d))).length else none) := by
  obtain ⟨nsset, hrun, h⟩ : ∃ tbl, nssetRun trieCreate ops = some ((NssetOp.run ops).1, tbl) ∧
      NssetHolds tbl (NssetOp.run ops).2 := nssetRun_spec ops nssetHolds_create hfit
  refine ⟨nsset, hrun, h.wf, NssetOp.runFrom_nodup ops fun _ _ => nofun, fun ns => ?_⟩
  rw [krZonecutFind_eq h.wf]
  have hslot := h.slot ns
  generalize nsset.contents.lookup ns = v at hslot ⊢
  generalize (NssetOp.run ops).2 ns = o at hslot ⊢
  cases hslot with
  | absent => exact .inl ⟨rfl, rfl⟩
  | @pack p objs hp =>
    refine .inr ⟨p, objs, rfl, rfl, hp, packWalk_eq hp, fun d hd => ?_⟩
    exact packObjFind_eq hp (by simp only [Nat.toUInt16_eq, UInt16.toNat_ofNat']; omega)

theorem nsset_refines_map_add_del :
    (∀ op ∈ [NssetOp.add [0] (some [192, 0, 2, 1]), .add [0] (some [192, 0, 2, 1]),
      .del [0] (some [192, 0, 2, 1])], op.Fits) ∧
    ∃ nsset, nssetRun trieCreate [.add [0] (some [192, 0, 2, 1]), .add [0] (some [192, 0, 2, 1]),
        .del [0] (some [192, 0, 2, 1])] = some ([krOk, krOk, krOk], nsset) ∧ nsset.Wf := by
  have hfit : ∀ op ∈ [NssetOp.add [0] (some [192, 0, 2, 1]), .add [0] (some [192, 0, 2, 1]),
      .del [0] (some [192, 0, 2, 1])], op.Fits := by decide
  obtain ⟨nsset, hrun, hwf, -⟩ := nsset_refines_map _ hfit
  exact ⟨hfit, nsset, hrun, hwf⟩

/-! ## Objects of 65536 bytes and more -/

/-- An object of 65536 bytes added to an empty set is stored as an object of no bytes: the walk
over the name's pack reads the empty object where the map has the object added. -/
theorem nssetRun_add_long_object (ns d : List UInt8) (hd : d.length = 2 ^ 16) :
    ∃ nsset p, nssetRun trieCreate [.add ns (some d)] = some ([krOk], nsset) ∧
      krZonecutFind nsset ns = some (some p) ∧ packWalk p = some [[]] ∧
      (NssetOp.run [.add ns (some d)]).2 ns = some [d] := by
  obtain ⟨tbl', slot, hget, hs⟩ := trieGetIns_spec (trieCreate_wf (α := PackT)) ns
  have hval : slot.val = none := by
    rw [hs.val_eq, trieCreate_contents]
    rfl
  -- the length goes to `pack_obj_find` and `pack_obj_push` as 0
  have hlen : (dataLen (some d)).toNat.toUInt16 = 0 := by
    simp only [dataLen, hd, Int.toNat_natCast]
    rfl
  have hfind : packObjFind packInit d 0 = some none :=
    packObjFind_of_forall packInit_holds d 0 nofun
  let p : PackT := ⟨packEncode [[]], (packReserve packInit 1 (dataLen (some d)).toNat).cap⟩
  have hpush : packObjPush (packReserve packInit 1 (dataLen (some d)).toNat) d 0 = .ok p := by
    obtain ⟨hbytes, -, hroom⟩ := packReserve_spec packInit 1 (dataLen (some d)).toNat
    rw [packObjPush, if_neg (by unfold PackT.len at hroom ⊢; rw [hbytes]; simp at hroom ⊢; omega),
      hbytes]
    rfl
  have hwrite := hs.write trieCreate_wf (some p)
  have hheld : p.Holds [[]] := by
    refine ⟨rfl, by simp, ?_⟩
    obtain ⟨-, -, hroom⟩ := packReserve_spec packInit 1 (dataLen (some d)).toNat
    show (packEncode [[]]).length ≤ (packReserve packInit 1 (dataLen (some d)).toNat).cap
    have h2 : (packEncode [[]]).length = 2 := rfl
    omega
  refine ⟨⟨slot.write (some p), tbl'.weight⟩, p, ?_, ?_, packWalk_eq hheld, ?_⟩
  · have hadd : krZonecutAdd trieCreate ns (some d) (dataLen (some d)) =
        some (krOk, ⟨slot.write (some p), tbl'.weight⟩) := by
      rw [krZonecutAdd, if_neg (not_einval_of_pos (by omega)), hget]
      dsimp only
      rw [hval, Option.getD_none, hlen, hfind]
      dsimp only
      rw [hpush]
    rw [nssetRun, nssetStep, hadd]
    rfl
  · rw [krZonecutFind_eq hwrite.1, hwrite.2, trieCreate_contents]
    simp [List.upsert]
  · simp [NssetOp.run, NssetOp.runFrom, NssetOp.apply, NssetMap.add, packAdd]

/-- The NS name `ns.` given 65536 zero bytes of address: stored as an empty object. -/
theorem nsset_add_long_object :
    ∃ nsset p, nssetRun trieCreate [.add [2, 0x6e, 0x73, 0] (some (List.replicate (2 ^ 16) 0))] =
        some ([krOk], nsset) ∧
      krZonecutFind nsset [2, 0x6e, 0x73, 0] = some (some p) ∧ packWalk p = some [[]] ∧
      (NssetOp.run [.add [2, 0x6e, 0x73, 0] (some (List.replicate (2 ^ 16) 0))]).2
        [2, 0x6e, 0x73, 0] = some [List.replicate (2 ^ 16) 0] :=
  nssetRun_add_long_object _ _ List.length_replicate

end KnotResolver.Zonecut
