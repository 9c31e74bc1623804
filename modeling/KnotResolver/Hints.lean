import KnotResolver.Zonecut.Nsset
import KnotResolver.Dnssec.Ta
import KnotResolver.Straddr

/-!
# Static hints (`modules/hints/hints.c`)

The hints module keeps two sets of the zone-cut kind (`lib/zonecut.c`). `hints` maps names to
their addresses. `reverse_hints` maps the reverse names of addresses (`raw_addr2reverse`) to the
names that point at them. `hint_set` adds a pair to both sets, first the reverse one. `hint_del`
removes one address of a name, or the whole name. A hosts file adds each name of each line.

The calls do not treat letter case alike. `add_pair` lower-cases the name it stores an address
under. `add_reverse_pair` keeps the name as given, for the PTR data. `del_pair` builds both keys
from the name as given. So a pair added under a name with an upper-case letter and deleted in
the same way leaves the address in `hints` and drops the name from `reverse_hints`
(`hintDel_mixed_case`).

The tries hold maps of names to lists (`Zonecut.NssetHolds`), and each call moves the maps as
the zone-cut calls do (`addPair_spec`, `addReversePair_spec`, `delPair_some_spec`). Names and
addresses come parsed: a name as its labels, an address as its 4 or 16 bytes, which is how
`knot_dname_from_str` and `inet_pton` leave valid text. The strings of `hint_set` and `hint_del`
are split at the first space, and the lines of a hosts file are split into words.
-/

namespace KnotResolver.Hints

open Zonecut Generic Ta Straddr

/-! ## Reverse names -/

/-- A label as ASCII characters. -/
def asciiLabel (cs : List Char) : Label := cs.map fun c => c.toNat.toUInt8

/-- `%d` of a byte. -/
def decimalLabel (n : Nat) : Label := asciiLabel (Nat.toDigits 10 n)

/-- `%x` of a nibble. -/
def hexLabel (n : Nat) : Label := asciiLabel (Nat.toDigits 16 n)

/-- The labels `in-addr.arpa`. -/
def inAddrArpa : Dname := [asciiLabel "in-addr".toList, asciiLabel "arpa".toList]

/-- The labels `ip6.arpa`. -/
def ip6Arpa : Dname := [asciiLabel "ip6".toList, asciiLabel "arpa".toList]

/-- `raw_addr2reverse`: `d.c.b.a.in-addr.arpa.` for an IPv4 address, and for an IPv6 one its 32
nibbles from the last, each byte's low nibble first, then `ip6.arpa.`. `none` is a read past the
address. The text always fits the buffer, and `knot_dname_from_str` parses it into these
labels. -/
def rawAddr2reverse (raw : List UInt8) : Family → Option Dname
  | .inet => do
    let b3 ← raw[3]?
    let b2 ← raw[2]?
    let b1 ← raw[1]?
    let b0 ← raw[0]?
    return [decimalLabel b3.toNat, decimalLabel b2.toNat, decimalLabel b1.toNat,
      decimalLabel b0.toNat] ++ inAddrArpa
  | .inet6 => do
    let labels ← ((List.range 16).reverse.mapM fun i => raw[i]?.map fun (b : UInt8) =>
      [hexLabel (b &&& 0x0f).toNat, hexLabel (b >>> 4).toNat])
    return labels.flatten ++ ip6Arpa

/-- The family of a parsed address, as `del_pair` also reads it: `AF_INET` for four bytes. -/
def addrFamily (addr : List UInt8) : Family := if addr.length = 4 then .inet else .inet6

/-- `addr2reverse` of a parsed address. -/
def addr2reverse (addr : List UInt8) : Option Dname := rawAddr2reverse addr (addrFamily addr)

/-! ## The calls -/

/-- `struct hints_data`. -/
structure HintsData where
  hints : Trie PackT
  reverseHints : Trie PackT

/-- The sets of a new module: both empty. -/
def hintsInit : HintsData := ⟨trieCreate, trieCreate⟩

/-- `add_pair`: the address under the lower-cased name. -/
def addPair (hints : Trie PackT) (name : Dname) (addr : List UInt8) : Option (Int × Trie PackT) :=
  Zonecut.krZonecutAdd hints (knotDnameWire (knotDnameToLower name)) (some addr)
    (addr.length : Int)

/-- `add_reverse_pair`: the name, as given, under the reverse name of the address. -/
def addReversePair (reverseHints : Trie PackT) (name : Dname) (addr : List UInt8) :
    Option (Int × Trie PackT) :=
  match addr2reverse addr with
  | none => some (krError EINVAL, reverseHints)
  | some key =>
    Zonecut.krZonecutAdd reverseHints (knotDnameWire key) (some (knotDnameWire name))
      ((knotDnameWire name).length : Int)

/-- The loop body of `del_pair` for a whole name: the name out of the reverse set of one of its
addresses. -/
def delReverse (key : List UInt8) (reverseHints : Trie PackT) (a : List UInt8) :
    Option (Trie PackT) :=
  match rawAddr2reverse a (addrFamily a) with
  | none => some reverseHints
  | some reverseKey =>
    (Zonecut.krZonecutDel reverseHints (knotDnameWire reverseKey) (some key)
      (key.length : Int)).map (·.2)

/-- `del_pair`: one address of the name, with the name out of its reverse set, or the whole
name, out of the reverse sets of all its addresses. Both keys are built from the name as given.
-/
def delPair (data : HintsData) (name : Dname) : Option (List UInt8) → Option (Int × HintsData)
  | some addr => do
    let key := knotDnameWire name
    -- a valid address always has a reverse name
    let reverseKey ← addr2reverse addr
    let (_, reverseHints) ←
      Zonecut.krZonecutDel data.reverseHints (knotDnameWire reverseKey) (some key)
        (key.length : Int)
    let (ret, hints) ← Zonecut.krZonecutDel data.hints key (some addr) (addr.length : Int)
    return (ret, ⟨hints, reverseHints⟩)
  | none => do
    let key := knotDnameWire name
    match Zonecut.krZonecutFind data.hints key with
    | none => none
    | some none => some (krError ENOENT, data)
    | some (some addrSet) =>
      if addrSet.len = 0 then some (krError ENOENT, data)
      else
        let addrs ← packWalk addrSet
        let reverseHints ← addrs.foldlM (delReverse key) data.reverseHints
        let (ret, hints) ← Zonecut.krZonecutDelAll data.hints key
        return (ret, ⟨hints, reverseHints⟩)

/-- `hint_set` of `name addr`: the reverse pair, then the pair. A failed reverse pair is undone
by `del_pair`. The result is the JSON boolean. -/
def hintSet (data : HintsData) (name : Dname) (addr : List UInt8) : Option (Bool × HintsData) := do
  let (ret, reverseHints) ← addReversePair data.reverseHints name addr
  let data := { data with reverseHints := reverseHints }
  if ret ≠ 0 then
    let (_, data) ← delPair data name (some addr)
    return (false, data)
  else
    let (ret, hints) ← addPair data.hints name addr
    return (ret == 0, { data with hints := hints })

/-- `hint_del` of `name addr`, or of `name` alone. -/
def hintDel (data : HintsData) (name : Dname) (addr : Option (List UInt8)) :
    Option (Bool × HintsData) :=
  (delPair data name addr).map fun r => (r.1 == 0, r.2)

/-- One name of a hosts-file line: the pair, then the reverse pair. -/
def addHost (data : HintsData) (name : Dname) (addr : List UInt8) : Option (Int × HintsData) := do
  let (ret, hints) ← addPair data.hints name addr
  let data := { data with hints := hints }
  if ret ≠ 0 then return (ret, data)
  let (ret, reverseHints) ← addReversePair data.reverseHints name addr
  return (ret, { data with reverseHints := reverseHints })

/-- The names of a hosts-file line, in order: `-1` and a stop at the first failure. -/
def addHosts (data : HintsData) (addr : List UInt8) : List Dname → Option (Int × HintsData)
  | [] => some (krOk, data)
  | name :: names => do
    let (ret, data) ← addHost data name addr
    if ret ≠ 0 then return (-1, data)
    addHosts data addr names

/-- A line `addr canonical alias...` of `load_file`: the aliases, then the canonical name, since
the last PTR record added takes preference. A line without a name is a syntax error. -/
def loadLine (data : HintsData) (addr : List UInt8) : List Dname → Option (Int × HintsData)
  | [] => some (-1, data)
  | canonical :: aliases => addHosts data addr (aliases ++ [canonical])

/-- `load_file` over its lines, as an address and the names after it: it stops at the first line
that fails, with `kr_error(-1)`. -/
def loadFile (data : HintsData) : List (List UInt8 × List Dname) → Option (Int × HintsData)
  | [] => some (krOk, data)
  | (addr, names) :: lines => do
    let (ret, data) ← loadLine data addr names
    if ret ≠ 0 then return (krError ret, data)
    loadFile data lines

/-! ## The calls on the maps -/

/-- The two tries of the module hold the maps `fwd`, of names to addresses, and `rev`, of reverse
names to the names pointing at them. -/
structure HintsHolds (data : HintsData) (fwd rev : NssetMap) : Prop where
  hints : NssetHolds data.hints fwd
  reverseHints : NssetHolds data.reverseHints rev

theorem hintsHolds_init : HintsHolds hintsInit (fun _ => none) (fun _ => none) :=
  ⟨nssetHolds_create, nssetHolds_create⟩

/-- `kr_zonecut_find` on a trie that holds a map: NULL for a name the map lacks, and otherwise a
pack whose walk gives the name's list. -/
theorem krZonecutFind_of_holds {nsset : Trie PackT} {m : NssetMap} (h : NssetHolds nsset m)
    (ns : List UInt8) :
    (m ns = none ∧ Zonecut.krZonecutFind nsset ns = some none) ∨
      ∃ p objs, m ns = some objs ∧ Zonecut.krZonecutFind nsset ns = some (some p) ∧
        p.Holds objs := by
  rw [krZonecutFind_eq h.wf]
  have hslot := h.slot ns
  generalize nsset.contents.lookup ns = v at hslot ⊢
  generalize m ns = o at hslot ⊢
  cases hslot with
  | absent => exact .inl ⟨rfl, rfl⟩
  | @pack p objs hp => exact .inr ⟨p, objs, rfl, rfl, hp⟩

variable {data : HintsData} {fwd rev : NssetMap}

/-- `add_pair` adds the address under the lower-cased name. -/
theorem addPair_spec {nsset : Trie PackT} {m : NssetMap} (h : NssetHolds nsset m) (name : Dname)
    {addr : List UInt8} (hfit : DataFits (some addr)) :
    ∃ tbl, addPair nsset name addr = some (krOk, tbl) ∧
      NssetHolds tbl (m.add (knotDnameWire (knotDnameToLower name)) (some addr)) :=
  krZonecutAdd_spec h _ hfit

/-- `add_reverse_pair` adds the name, as given, under the reverse name of the address. -/
theorem addReversePair_spec {nsset : Trie PackT} {m : NssetMap} (h : NssetHolds nsset m)
    {name : Dname} {addr : List UInt8} {key : Dname} (hkey : addr2reverse addr = some key)
    (hfit : DataFits (some (knotDnameWire name))) :
    ∃ tbl, addReversePair nsset name addr = some (krOk, tbl) ∧
      NssetHolds tbl (m.add (knotDnameWire key) (some (knotDnameWire name))) := by
  rw [addReversePair, hkey]
  exact krZonecutAdd_spec h _ hfit

/-- `del_pair` of one address deletes it under the name as given, and the name as given under the
reverse name of the address. -/
theorem delPair_some_spec (h : HintsHolds data fwd rev) {name : Dname} {addr : List UInt8}
    {key : Dname} (hkey : addr2reverse addr = some key)
    (hfitName : DataFits (some (knotDnameWire name))) (hfitAddr : DataFits (some addr)) :
    ∃ data', delPair data name (some addr) =
        some ((fwd.del (knotDnameWire name) (some addr)).1, data') ∧
      HintsHolds data' (fwd.del (knotDnameWire name) (some addr)).2
        (rev.del (knotDnameWire key) (some (knotDnameWire name))).2 := by
  obtain ⟨rtbl, hrdel, hr⟩ := krZonecutDel_spec h.reverseHints (knotDnameWire key) hfitName
  obtain ⟨ftbl, hfdel, hf⟩ := krZonecutDel_spec h.hints (knotDnameWire name) hfitAddr
  refine ⟨⟨ftbl, rtbl⟩, ?_, ⟨hf, hr⟩⟩
  rw [delPair, hkey]
  simp only [Option.bind_eq_bind, Option.bind_some]
  rw [show ((knotDnameWire name).length : Int) = dataLen (some (knotDnameWire name)) from rfl,
    hrdel, show (addr.length : Int) = dataLen (some addr) from rfl, hfdel]
  rfl

/-- `hint_set` adds the name, as given, under the reverse name of the address, then the address
under the lower-cased name, and says so. -/
theorem hintSet_spec (h : HintsHolds data fwd rev) {name : Dname} {addr : List UInt8}
    {key : Dname} (hkey : addr2reverse addr = some key)
    (hfitName : DataFits (some (knotDnameWire name))) (hfitAddr : DataFits (some addr)) :
    ∃ data', hintSet data name addr = some (true, data') ∧
      HintsHolds data' (fwd.add (knotDnameWire (knotDnameToLower name)) (some addr))
        (rev.add (knotDnameWire key) (some (knotDnameWire name))) := by
  obtain ⟨rtbl, hradd, hr⟩ := addReversePair_spec h.reverseHints hkey hfitName
  obtain ⟨ftbl, hfadd, hf⟩ := addPair_spec h.hints name hfitAddr
  refine ⟨⟨ftbl, rtbl⟩, ?_, ⟨hf, hr⟩⟩
  rw [hintSet, hradd]
  simp only [Option.bind_eq_bind, Option.bind_some, krOk, ne_eq, not_true_eq_false, if_false]
  rw [hfadd]
  rfl

/-- `hint_del` of one address: `del_pair`, and whether it returned 0. -/
theorem hintDel_some_spec (h : HintsHolds data fwd rev) {name : Dname} {addr : List UInt8}
    {key : Dname} (hkey : addr2reverse addr = some key)
    (hfitName : DataFits (some (knotDnameWire name))) (hfitAddr : DataFits (some addr)) :
    ∃ data', hintDel data name (some addr) =
        some ((fwd.del (knotDnameWire name) (some addr)).1 == 0, data') ∧
      HintsHolds data' (fwd.del (knotDnameWire name) (some addr)).2
        (rev.del (knotDnameWire key) (some (knotDnameWire name))).2 := by
  obtain ⟨data', hdel, h'⟩ := delPair_some_spec h hkey hfitName hfitAddr
  exact ⟨data', by rw [hintDel, hdel]; rfl, h'⟩

/-- The loop body of `del_pair` for a whole name, on the maps. -/
def delReverseMap (key : List UInt8) (m : NssetMap) (a : List UInt8) : NssetMap :=
  match rawAddr2reverse a (addrFamily a) with
  | none => m
  | some reverseKey => (m.del (knotDnameWire reverseKey) (some key)).2

theorem delReverse_spec {nsset : Trie PackT} {m : NssetMap} (h : NssetHolds nsset m)
    {key : List UInt8} (hfit : DataFits (some key)) (a : List UInt8) :
    ∃ tbl, delReverse key nsset a = some tbl ∧ NssetHolds tbl (delReverseMap key m a) := by
  unfold delReverse delReverseMap
  cases rawAddr2reverse a (addrFamily a) with
  | none => exact ⟨nsset, rfl, h⟩
  | some reverseKey =>
    obtain ⟨tbl, hdel, htbl⟩ := krZonecutDel_spec h (knotDnameWire reverseKey) hfit
    refine ⟨tbl, ?_, htbl⟩
    dsimp only
    rw [show (key.length : Int) = dataLen (some key) from rfl, hdel]
    rfl

/-- The loop of `del_pair` over the addresses of a name. -/
theorem foldlM_delReverse_spec {key : List UInt8} (hfit : DataFits (some key)) :
    ∀ (addrs : List (List UInt8)) {nsset : Trie PackT} {m : NssetMap}, NssetHolds nsset m →
      ∃ tbl, addrs.foldlM (delReverse key) nsset = some tbl ∧
        NssetHolds tbl (addrs.foldl (delReverseMap key) m)
  | [], nsset, _, h => ⟨nsset, rfl, h⟩
  | a :: addrs, _, _, h => by
    obtain ⟨tbl₁, hstep, h₁⟩ := delReverse_spec h hfit a
    obtain ⟨tbl₂, hrun, h₂⟩ := foldlM_delReverse_spec hfit addrs h₁
    refine ⟨tbl₂, ?_, h₂⟩
    rw [List.foldlM_cons, hstep]
    exact hrun

/-- `del_pair` of a whole name: `ENOENT` for a name without addresses, and otherwise the name
out of the reverse sets of its addresses and out of the forward set. -/
theorem delPair_none_spec (h : HintsHolds data fwd rev) {name : Dname}
    (hfit : DataFits (some (knotDnameWire name))) :
    ∃ data', delPair data name none =
        some (if (fwd (knotDnameWire name)).getD [] = [] then krError ENOENT else krOk, data') ∧
      HintsHolds data'
        (if (fwd (knotDnameWire name)).getD [] = [] then fwd
          else (fwd.delAll (knotDnameWire name)).2)
        (((fwd (knotDnameWire name)).getD []).foldl (delReverseMap (knotDnameWire name)) rev) := by
  rcases krZonecutFind_of_holds h.hints (knotDnameWire name) with
    ⟨hnone, hfind⟩ | ⟨p, objs, hobjs, hfind, hp⟩
  · -- an unknown name
    rw [hnone, Option.getD_none, if_pos rfl, if_pos rfl, List.foldl_nil]
    refine ⟨data, ?_, h⟩
    rw [delPair]
    simp only [Option.bind_eq_bind]
    rw [hfind]
  · rw [hobjs, Option.getD_some]
    by_cases hnil : objs = []
    · -- a name whose pack is empty
      subst hnil
      rw [if_pos rfl, if_pos rfl, List.foldl_nil]
      refine ⟨data, ?_, h⟩
      rw [delPair]
      simp only [Option.bind_eq_bind]
      rw [hfind]
      dsimp only
      rw [if_pos (hp.len_eq_zero_iff.2 rfl)]
    · rw [if_neg hnil, if_neg hnil]
      obtain ⟨rtbl, hfold, hr⟩ := foldlM_delReverse_spec hfit objs h.reverseHints
      obtain ⟨ftbl, hdelAll, hf⟩ := krZonecutDelAll_spec h.hints (knotDnameWire name)
      have hret : (fwd.delAll (knotDnameWire name)).1 = krOk := by
        rw [NssetMap.delAll, hobjs]
      refine ⟨⟨ftbl, rtbl⟩, ?_, ⟨hf, hr⟩⟩
      rw [delPair]
      simp only [Option.bind_eq_bind]
      rw [hfind]
      dsimp only
      rw [if_neg (mt hp.len_eq_zero_iff.1 hnil), packWalk_eq hp]
      simp only [Option.bind_some]
      rw [hfold]
      simp only [Option.bind_some]
      rw [hdelAll, hret]
      rfl

/-- `hint_del` of a whole name: whether it had addresses. -/
theorem hintDel_none_spec (h : HintsHolds data fwd rev) {name : Dname}
    (hfit : DataFits (some (knotDnameWire name))) :
    ∃ data', hintDel data name none =
        some (decide ((fwd (knotDnameWire name)).getD [] ≠ []), data') ∧
      HintsHolds data'
        (if (fwd (knotDnameWire name)).getD [] = [] then fwd
          else (fwd.delAll (knotDnameWire name)).2)
        (((fwd (knotDnameWire name)).getD []).foldl (delReverseMap (knotDnameWire name)) rev) := by
  obtain ⟨data', hdel, h'⟩ := delPair_none_spec h hfit
  refine ⟨data', ?_, h'⟩
  rw [hintDel, hdel]
  by_cases hnil : (fwd (knotDnameWire name)).getD [] = []
  · simp [hnil, krError, ENOENT]
  · simp [hnil, krOk]

/-! ## Letter case -/

/-- `A`, a name with an upper-case letter. -/
def nameUpperA : Dname := [[0x41]]

/-- `192.0.2.1`. -/
def addrIpv4 : List UInt8 := [192, 0, 2, 1]

/-- `hint_set("A 192.0.2.1")` then `hint_del("A 192.0.2.1")` on a new module. The pair goes under
`a`, and the PTR data `A` under `1.2.0.192.in-addr.arpa.`. The deletion looks for `A` in the
forward set and fails, but it has already dropped `A` from the reverse set. The address stays
under `a`, and the reverse set no longer points at it. -/
theorem hintDel_mixed_case :
    ∃ data1 data2, hintSet hintsInit nameUpperA addrIpv4 = some (true, data1) ∧
      hintDel data1 nameUpperA (some addrIpv4) = some (false, data2) ∧
      (∃ p, Zonecut.krZonecutFind data2.hints (knotDnameWire (knotDnameToLower nameUpperA)) =
          some (some p) ∧ packWalk p = some [addrIpv4]) ∧
      ∃ key, addr2reverse addrIpv4 = some key ∧
        Zonecut.krZonecutFind data2.reverseHints (knotDnameWire key) = some none := by
  obtain ⟨key, hkey⟩ : ∃ key, addr2reverse addrIpv4 = some key := ⟨_, rfl⟩
  have hfitName : DataFits (some (knotDnameWire nameUpperA)) := by decide
  have hfitAddr : DataFits (some addrIpv4) := by decide
  obtain ⟨data1, hset, h1⟩ := hintSet_spec hintsHolds_init hkey hfitName hfitAddr
  obtain ⟨data2, hdel, h2⟩ := hintDel_some_spec h1 hkey hfitName hfitAddr
  -- the forward set has `a`, not `A`: the deletion finds nothing there
  have hfwd : ((NssetMap.add (fun _ => none) (knotDnameWire (knotDnameToLower nameUpperA))
      (some addrIpv4)).del (knotDnameWire nameUpperA) (some addrIpv4)) =
      (krError ENOENT, NssetMap.add (fun _ => none) (knotDnameWire (knotDnameToLower nameUpperA))
        (some addrIpv4)) := by
    rw [NssetMap.del, NssetMap.add, Function.update_of_ne (by decide)]
  -- the reverse set had `A` alone under the reverse name, and loses it
  have hrev : ((NssetMap.add (fun _ => none) (knotDnameWire key)
      (some (knotDnameWire nameUpperA))).del (knotDnameWire key)
        (some (knotDnameWire nameUpperA))).2 (knotDnameWire key) = none := by
    simp [NssetMap.add, NssetMap.del, packAdd, packDel]
  rw [hfwd] at hdel h2
  refine ⟨data1, data2, hset, by rw [hdel]; rfl, ?_, key, hkey, ?_⟩
  · -- the address is still under `a`
    rcases krZonecutFind_of_holds h2.hints (knotDnameWire (knotDnameToLower nameUpperA)) with
      ⟨hnone, _⟩ | ⟨p, objs, hobjs, hfind, hp⟩
    · exact absurd hnone (by simp [NssetMap.add, packAdd])
    · have hlist : objs = [addrIpv4] := by
        simp only [NssetMap.add, Function.update_self, Option.getD_none, packAdd, List.not_mem_nil,
          if_false, List.nil_append, Option.some.injEq] at hobjs
        exact hobjs.symm
      exact ⟨p, hfind, hlist ▸ packWalk_eq hp⟩
  · -- nothing is under the reverse name
    rcases krZonecutFind_of_holds h2.reverseHints (knotDnameWire key) with
      ⟨_, hfind⟩ | ⟨p, objs, hobjs, _, _⟩
    · exact hfind
    · exact absurd (hrev.symm.trans hobjs) (by simp)

end KnotResolver.Hints
