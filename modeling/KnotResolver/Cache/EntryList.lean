import KnotResolver.Buffer
import KnotResolver.Cache.Cdb

/-!
# The byte layout of an apex entry

`lib/cache/entry_list.c`. Under the key of NS a cache value is a `struct entry_apex`: a 4-byte
header (the bits `has_ns`, `has_cname`, `has_dname`, a pad byte and the kind of each NSEC*
slot) followed by the five slots of an `entry_list_t`, each padded to an even length. The header
gives no lengths: `entry_list_parse` recovers them from the NSEC* kind (0, a 4-byte timestamp, or
a timestamp and NSEC3PARAM data whose salt length byte says how long it is) and, for NS, CNAME and
DNAME, from the `struct entry_h` itself (`entry_h_len`: two dematerialized rdatasets, or a
packet with its 16-bit length).

`Cache.Cdb` reads the values decoded; this module is the layout in bytes. The target is 64-bit
little-endian, with GCC's bit fields from the lowest bit. A `knot_db_val_t` that parsing points
into the value is its offset and length (`Slice`). A read past the end of the value is `none`,
and so is a failed assertion. `knot_rdataset_size` is libknot's: each record a 16-bit length in
host order and the data padded to an even size.
-/

namespace KnotResolver.Cache.EntryList

/-! ## Layout -/

/-- `EL_NS`: the entry slots follow the NSEC* ones. -/
def elNs : Nat := entryApexNsecsCnt

/-- `EL_LENGTH`: NS, CNAME and DNAME after the NSEC* slots. -/
def elLength : Nat := elNs + 3

/-- `offsetof(struct entry_apex, data)`. -/
def entryApexHeaderSize : Nat := 4

/-- `offsetof(struct entry_apex, nsecs)`. -/
def entryApexNsecsOff : Nat := 2

/-- `offsetof(struct entry_h, data)`: time, TTL, the flags byte and the pad byte. -/
def entryHHeaderSize : Nat := 10

/-- The offset of the flags byte of `struct entry_h`: six bits of rank, `is_packet`,
`has_optout`. -/
def entryHFlagsOff : Nat := 8

/-- `to_even`. -/
def toEven (n : Nat) : Nat := n + (n &&& 1)

/-- A `uint16_t` read with `memcpy` on the little-endian target. -/
def readU16 (d : List UInt8) (off : Nat) : Option Nat :=
  match d[off]?, d[off + 1]? with
  | some lo, some hi => some (lo.toNat + 256 * hi.toNat)
  | _, _ => none

/-- `nsec_p_rdlen`: the four fixed bytes of NSEC3PARAM, the salt length byte and the salt. -/
def nsecPRdlen (rdata : List UInt8) : Option Nat := rdata[4]?.map fun b => 5 + b.toNat

/-- `knot_rdata_size` of libknot: the 16-bit length and the data, padded to an even size. -/
def knotRdataSize (len : Nat) : Nat := len + 2 + len % 2

/-- `knot_rdataset_size` of libknot for `count` records from offset `off`. -/
def knotRdatasetSize (d : List UInt8) : Nat → Nat → Option Nat
  | 0, _ => some 0
  | count + 1, off =>
    (readU16 d off).bind fun len =>
      (knotRdatasetSize d count (off + knotRdataSize len)).map (knotRdataSize len + ·)

/-- `rdataset_dematerialized_size`: the 16-bit count and the records. -/
def rdatasetDematerializedSize (d : List UInt8) (off : Nat) : Option Nat :=
  (readU16 d off).bind fun count => (knotRdatasetSize d count (off + 2)).map (2 + ·)

/-! ## `entry_h_len` -/

/-- The loop of `entry_h_len` over the `sets` rdatasets from `d`. -/
def entryHSetsLen (val : List UInt8) : Nat → Nat → Option Nat
  | 0, d => some d
  | sets + 1, d =>
    (rdatasetDematerializedSize val d).bind fun size =>
      -- `assert(!EILSEQ)` on an overrun
      if d + size > val.length then none else entryHSetsLen val sets (d + size)

/-- `entry_h_len`: the length of the entry at the start of `val`, from its data: the RRset and
its RRSIG set, or a packet with its 16-bit length. -/
def entryHLen (val : List UInt8) : Option (Except Int Nat) :=
  if val.length = 0 then some (.error (krError EINVAL))
  else if entryHHeaderSize ≥ val.length then some (.error (krError EILSEQ))
  else
    match val[entryHFlagsOff]? with
    | none => none
    | some flags =>
      let d : Option (Except Int Nat) :=
        -- `is_packet` is the bit after the six of the rank
        if flags.toNat.testBit 6 then
          if entryHHeaderSize + 2 > val.length then some (.error (krError EILSEQ))
          else (readU16 val entryHHeaderSize).map fun len => .ok (entryHHeaderSize + 2 + toEven len)
        else (entryHSetsLen val 2 entryHHeaderSize).map .ok
      match d with
      | some (.ok d) => if d > val.length then none else some (.ok d)
      | r => r

/-! ## `entry_list_memcpy` -/

/-- A `knot_db_val_t` of an `entry_list_t` given to `entry_list_memcpy`: the bytes it points to,
none for a null pointer, and its length. -/
structure EntryListIn where
  data : Option (List UInt8)
  len : Nat

/-- A slot pointing to its bytes. -/
def EntryListIn.ofBytes (d : List UInt8) : EntryListIn := ⟨some d, d.length⟩

/-- `ea->nsecs[i]` as `entry_list_memcpy` sets it: 0 for none, 1 for just a timestamp, 3 for
NSEC3 parameters. -/
def nsecKind (len : Nat) : UInt8 := if len = 0 then 0 else if len = 4 then 1 else 3

/-- The first byte of `struct entry_apex`: the one-bit fields `has_ns`, `has_cname` and
`has_dname`, from the lowest bit up. -/
def entryApexFlags (hasNs hasCname hasDname : Bool) : UInt8 :=
  (if hasNs then 1 else 0) ||| (if hasCname then 2 else 0) ||| (if hasDname then 4 else 0)

/-- The header `entry_list_memcpy` writes after zeroing it. -/
def entryApexHeader (list : Vector EntryListIn elLength) : List UInt8 :=
  [entryApexFlags (list[elNs].len != 0) (list[elNs + 1].len != 0) (list[elNs + 2].len != 0), 0] ++
    (list.toList.take entryApexNsecsCnt).map fun v => nsecKind v.len

/-- The copy loop of `entry_list_memcpy` from offset `it`: a slot's bytes are copied, or a null
slot is given its space, which the caller fills later, and the next slot starts at the even
offset after it. Returns the buffer and, for each null slot, the offset it now points to. -/
def memcpyLoop : List EntryListIn → List UInt8 → Nat → Option (List UInt8 × List (Option Nat))
  | [], mem, _ => some (mem, [])
  | v :: vs, mem, it =>
    match v.data with
    | some d =>
      -- `memcpy` reads `len` bytes of the source
      if v.len ≤ d.length then
        (mem.writeAt it (d.take v.len)).bind fun mem =>
          (memcpyLoop vs mem (it + toEven v.len)).map fun r => (r.1, none :: r.2)
      else none
    | none => (memcpyLoop vs mem (it + toEven v.len)).map fun r => (r.1, some it :: r.2)

/-- `entry_list_memcpy` into `mem`, the memory of the new value. -/
def entryListMemcpy (mem : List UInt8) (list : Vector EntryListIn elLength) :
    Option (List UInt8 × List (Option Nat)) :=
  (mem.writeAt 0 (entryApexHeader list)).bind fun mem =>
    memcpyLoop list.toList mem entryApexHeaderSize

/-- `entry_list_serial_size`. -/
def entryListSerialSize (list : Vector EntryListIn elLength) : Nat :=
  entryApexHeaderSize + (list.toList.map fun v => toEven v.len).sum

/-! ## `entry_list_parse` -/

/-- A `knot_db_val_t` that `entry_list_parse` points into the value: an offset and a length. -/
structure Slice where
  off : Nat
  len : Nat
  deriving DecidableEq, Repr

/-- The length `entry_list_parse` gives an NSEC* slot of kind `kind` at offset `it`. -/
def nsecSlotLen (val : List UInt8) (it : Nat) (kind : UInt8) : Option (Except Int Nat) :=
  if kind = 0 then some (.ok 0)
  else if kind = 1 then some (.ok 4)
  else if kind = 3 then
    -- the timestamp and the NSEC3PARAM wire
    if it + 4 + 4 > val.length then some (.error (krError EILSEQ))
    else (nsecPRdlen (val.drop (it + 4))).map fun n => .ok (4 + n)
  else some (.error (krError EILSEQ))

/-- The first loop of `entry_list_parse`, over the NSEC* slots `i` from offset `it`. -/
def parseNsecs (val : List UInt8) : List Nat → Nat → Option (Except Int (List Slice × Nat))
  | [], it => some (.ok ([], it))
  | i :: is, it =>
    if it > val.length then some (.error (krError EILSEQ))
    else
      match val[entryApexNsecsOff + i]? with
      | none => none
      | some kind =>
        match nsecSlotLen val it kind with
        | none => none
        | some (.error e) => some (.error e)
        | some (.ok len) =>
          (parseNsecs val is (it + toEven len)).map (Except.map fun r => (⟨it, len⟩ :: r.1, r.2))

/-- The one-bit field of entry slot `i` in the first byte of the header. -/
def entryApexHas (flags : UInt8) (i : Nat) : Bool := flags.toNat.testBit (i - elNs)

/-- The second loop of `entry_list_parse`, over the entry slots `i` from offset `it`. -/
def parseEntries (val : List UInt8) (flags : UInt8) :
    List Nat → Nat → Option (Except Int (List Slice × Nat))
  | [], it => some (.ok ([], it))
  | i :: is, it =>
    if !entryApexHas flags i then
      (parseEntries val flags is it).map (Except.map fun r => (⟨it, 0⟩ :: r.1, r.2))
    -- `assert(!EILSEQ)` past the end
    else if it ≥ val.length then none
    else
      match entryHLen (val.drop it) with
      | some (.ok len) =>
        (parseEntries val flags is (it + toEven len)).map
          (Except.map fun r => (⟨it, len⟩ :: r.1, r.2))
      -- `assert(false)` on an error
      | _ => none

/-- `entry_list_parse`: the slots of an apex value. -/
def entryListParse (val : List UInt8) : Option (Except Int (List Slice)) :=
  -- `assert(!EINVAL)` on an empty value
  if val.length = 0 then none
  else
    match parseNsecs val (List.range entryApexNsecsCnt) entryApexHeaderSize with
    | none => none
    | some (.error e) => some (.error e)
    | some (.ok (nsecs, it)) =>
      match val[0]? with
      | none => none
      | some flags =>
        match parseEntries val flags (List.range' elNs (elLength - elNs)) it with
        | none => none
        | some (.error e) => some (.error e)
        | some (.ok (entries, it)) =>
          -- `assert(it == it_bound)`
          if it = val.length then some (.ok (nsecs ++ entries)) else none

/-! ## Reads within an entry -/

theorem le_toEven (n : Nat) : n ≤ toEven n := Nat.le_add_right _ _

@[simp] theorem toEven_zero : toEven 0 = 0 := rfl

theorem readU16_eq_some {d : List UInt8} {off n : Nat} (h : readU16 d off = some n) :
    ∃ lo hi, d[off]? = some lo ∧ d[off + 1]? = some hi ∧ n = lo.toNat + 256 * hi.toNat := by
  unfold readU16 at h
  split at h
  · next lo hi hlo hhi => exact ⟨lo, hi, hlo, hhi, (Option.some.inj h).symm⟩
  · cases h

/-- The reads of an entry's lengths succeed alike on a longer buffer: each read below is of a
byte of the entry. -/
theorem readU16_append {d : List UInt8} {off n : Nat} (h : readU16 d off = some n)
    (r : List UInt8) : readU16 (d ++ r) off = some n := by
  obtain ⟨lo, hi, hlo, hhi, rfl⟩ := readU16_eq_some h
  rw [readU16, List.getElem?_append_of_eq_some hlo, List.getElem?_append_of_eq_some hhi]

theorem knotRdatasetSize_append {d : List UInt8} (r : List UInt8) :
    ∀ {count off n : Nat}, knotRdatasetSize d count off = some n →
      knotRdatasetSize (d ++ r) count off = some n
  | 0, _, _, h => h
  | count + 1, off, n, h => by
    obtain ⟨len, hlen, h⟩ := Option.bind_eq_some_iff.1 h
    obtain ⟨rest, hrest, rfl⟩ := Option.map_eq_some_iff.1 h
    rw [knotRdatasetSize, readU16_append hlen, Option.bind_some,
      knotRdatasetSize_append r hrest, Option.map_some]

theorem rdatasetDematerializedSize_append {d : List UInt8} {off n : Nat}
    (h : rdatasetDematerializedSize d off = some n) (r : List UInt8) :
    rdatasetDematerializedSize (d ++ r) off = some n := by
  obtain ⟨count, hcount, h⟩ := Option.bind_eq_some_iff.1 h
  obtain ⟨size, hsize, rfl⟩ := Option.map_eq_some_iff.1 h
  rw [rdatasetDematerializedSize, readU16_append hcount, Option.bind_some,
    knotRdatasetSize_append r hsize, Option.map_some]

theorem entryHSetsLen_append {val : List UInt8} (r : List UInt8) :
    ∀ {sets d n : Nat}, entryHSetsLen val sets d = some n → entryHSetsLen (val ++ r) sets d = some n
  | 0, _, _, h => h
  | sets + 1, d, n, h => by
    obtain ⟨size, hsize, h⟩ := Option.bind_eq_some_iff.1 h
    split at h
    · cases h
    · next hle =>
      rw [entryHSetsLen, rdatasetDematerializedSize_append hsize, Option.bind_some,
        if_neg (by rw [List.length_append]; omega)]
      exact entryHSetsLen_append r h

/-- `entry_h_len` of an entry reads only the entry: it gives the same length when the entry is
followed by more data. -/
theorem entryHLen_append {val : List UInt8} {n : Nat} (h : entryHLen val = some (.ok n))
    (r : List UInt8) : entryHLen (val ++ r) = some (.ok n) := by
  have hlen : (val ++ r).length = val.length + r.length := List.length_append
  unfold entryHLen at h ⊢
  by_cases h0 : val.length = 0
  · rw [if_pos h0] at h
    cases h
  by_cases h10 : entryHHeaderSize ≥ val.length
  · rw [if_neg h0, if_pos h10] at h
    cases h
  rw [if_neg h0, if_neg h10] at h
  rw [if_neg (by omega), if_neg (by omega)]
  cases hf : val[entryHFlagsOff]? with
  | none =>
    rw [hf] at h
    cases h
  | some flags =>
    rw [hf] at h
    rw [List.getElem?_append_of_eq_some hf]
    dsimp only at h ⊢
    by_cases hp : flags.toNat.testBit 6 = true
    · -- a packet: its 16-bit length
      rw [if_pos hp] at h ⊢
      by_cases h12 : entryHHeaderSize + 2 > val.length
      · rw [if_pos h12] at h
        cases h
      rw [if_neg h12] at h
      rw [if_neg (by omega)]
      cases hl : readU16 val entryHHeaderSize with
      | none =>
        rw [hl] at h
        cases h
      | some len =>
        rw [hl] at h
        rw [readU16_append hl]
        dsimp only [Option.map_some] at h ⊢
        split at h
        · cases h
        · next hle =>
          rw [if_neg (by omega)]
          exact h
    · -- the RRset and its RRSIGs
      rw [if_neg hp] at h ⊢
      cases hs : entryHSetsLen val 2 entryHHeaderSize with
      | none =>
        rw [hs] at h
        cases h
      | some d =>
        rw [hs] at h
        rw [entryHSetsLen_append r hs]
        dsimp only [Option.map_some] at h ⊢
        split at h
        · cases h
        · next hle =>
          rw [if_neg (by omega)]
          exact h

/-! ## Slots laid one after the other -/

/-- The slots lie in `buf` one after the other from offset `it`, each padded to an even
length. -/
def Laid (buf : List UInt8) : Nat → List (List UInt8) → Prop
  | _, [] => True
  | it, s :: ss => (buf.drop it).take s.length = s ∧ Laid buf (it + toEven s.length) ss

/-- The offset after the slots laid from `it`. -/
def slotsEnd (it : Nat) (ss : List (List UInt8)) : Nat := it + (ss.map fun s => toEven s.length).sum

/-- Where the slots laid from `it` lie. -/
def slicesFrom : Nat → List (List UInt8) → List Slice
  | _, [] => []
  | it, s :: ss => ⟨it, s.length⟩ :: slicesFrom (it + toEven s.length) ss

@[simp] theorem slotsEnd_nil (it : Nat) : slotsEnd it [] = it := rfl

theorem slotsEnd_cons (it : Nat) (s : List UInt8) (ss : List (List UInt8)) :
    slotsEnd it (s :: ss) = slotsEnd (it + toEven s.length) ss := by
  simp only [slotsEnd, List.map_cons, List.sum_cons]
  omega

theorem le_slotsEnd (it : Nat) (ss : List (List UInt8)) : it ≤ slotsEnd it ss :=
  Nat.le_add_right _ _

theorem slotsEnd_append (it : Nat) (ss ss' : List (List UInt8)) :
    slotsEnd it (ss ++ ss') = slotsEnd (slotsEnd it ss) ss' := by
  simp only [slotsEnd, List.map_append, List.sum_append]
  omega

theorem laid_append {buf : List UInt8} :
    ∀ {it : Nat} {ss ss' : List (List UInt8)},
      Laid buf it (ss ++ ss') ↔ Laid buf it ss ∧ Laid buf (slotsEnd it ss) ss'
  | _, [], _ => ⟨fun h => ⟨trivial, h⟩, fun h => h.2⟩
  | it, s :: ss, ss' => by
    rw [List.cons_append, Laid, Laid, laid_append, slotsEnd_cons, and_assoc]

theorem slicesFrom_append :
    ∀ (it : Nat) (ss ss' : List (List UInt8)),
      slicesFrom it (ss ++ ss') = slicesFrom it ss ++ slicesFrom (slotsEnd it ss) ss'
  | _, [], _ => rfl
  | it, s :: ss, ss' => by
    rw [List.cons_append, slicesFrom, slicesFrom, slicesFrom_append, slotsEnd_cons,
      List.cons_append]

/-- The slices of laid slots read back the slots. -/
theorem Laid.forall₂ {buf : List UInt8} :
    ∀ {it : Nat} {ss : List (List UInt8)}, Laid buf it ss →
      List.Forall₂ (fun s sl => sl.len = s.length ∧ (buf.drop sl.off).take sl.len = s) ss
        (slicesFrom it ss)
  | _, [], _ => .nil
  | _, _ :: _, ⟨hs, hss⟩ => .cons ⟨rfl, hs⟩ (Laid.forall₂ hss)

/-! ## `entry_list_memcpy` lays the slots out -/

/-- The copy loop over slots given by their bytes lays them from `it`, and leaves the buffer
below `it` as it was. -/
theorem memcpyLoop_ofBytes :
    ∀ (ds : List (List UInt8)) (mem : List UInt8) (it : Nat), slotsEnd it ds ≤ mem.length →
      ∃ m offs, memcpyLoop (ds.map EntryListIn.ofBytes) mem it = some (m, offs) ∧
        m.length = mem.length ∧ m.take it = mem.take it ∧ Laid m it ds
  | [], mem, _, _ => ⟨mem, [], rfl, rfl, rfl, trivial⟩
  | d :: ds, mem, it, hend => by
    rw [slotsEnd_cons] at hend
    have hnext := le_slotsEnd (it + toEven d.length) ds
    have heven := le_toEven d.length
    obtain ⟨mem₁, hw⟩ := List.writeAt_of_le (show it + d.length ≤ mem.length by omega)
    obtain ⟨m, offs, hloop, hlen, htake, hlaid⟩ :=
      memcpyLoop_ofBytes ds mem₁ (it + toEven d.length) (by rw [List.length_of_writeAt hw]; exact hend)
    refine ⟨m, none :: offs, ?_, hlen.trans (List.length_of_writeAt hw), ?_, ?_, hlaid⟩
    · simp only [List.map_cons, memcpyLoop, EntryListIn.ofBytes, List.take_length, hw,
        Option.bind_some, hloop, Option.map_some]
      rw [if_pos (Nat.le_refl _)]
    · -- the later slots lie above the first
      have htake' := congrArg (List.take it) htake
      rw [List.take_take, List.take_take, Nat.min_eq_left (by omega)] at htake'
      rw [htake', List.take_of_writeAt hw]
    · rw [List.slice_eq_of_take_eq htake (by omega), List.drop_of_writeAt hw]
      exact List.take_left' rfl

/-! ## `entry_list_parse` finds them -/

/-- An NSEC* slot as `entry_list_memcpy` expects it: empty, a 4-byte timestamp, or a timestamp
followed by NSEC3PARAM data of the length `nsec_p_rdlen` reads from it. -/
def NsecSlotOk (s : List UInt8) : Prop :=
  s = [] ∨ s.length = 4 ∨ (4 < s.length ∧ nsecPRdlen (s.drop 4) = some (s.drop 4).length)

instance : DecidablePred NsecSlotOk := fun _ => inferInstanceAs (Decidable (_ ∨ _))

/-- An NS, CNAME or DNAME slot as `entry_list_memcpy` expects it: empty, or an entry whose
`entry_h_len` is its length. -/
def EntrySlotOk (s : List UInt8) : Prop := s = [] ∨ entryHLen s = some (.ok s.length)

instance : DecidablePred EntrySlotOk := fun _ => inferInstanceAs (Decidable (_ ∨ _))

/-- The length `entry_list_parse` recovers from the kind of a laid NSEC* slot is its length. -/
theorem nsecSlotLen_of_slot {buf s : List UInt8} {it : Nat} (hs : NsecSlotOk s)
    (hslice : (buf.drop it).take s.length = s) :
    nsecSlotLen buf it (nsecKind s.length) = some (.ok s.length) := by
  rcases hs with rfl | h4 | ⟨h4, hp⟩
  · rfl
  · rw [h4]
    rfl
  · -- NSEC3: the salt length byte lies in the slot
    obtain ⟨b, hb, hlen⟩ := Option.map_eq_some_iff.1 hp
    rw [List.length_drop] at hlen
    have hbuf := List.add_le_length_of_slice hslice (by omega)
    have hkind : nsecKind s.length = 3 := by
      rw [nsecKind, if_neg (by omega), if_neg (by omega)]
    have hread : nsecPRdlen (buf.drop (it + 4)) = some (s.length - 4) := by
      rw [List.getElem?_drop] at hb
      rw [nsecPRdlen, List.getElem?_drop, show it + 4 + 4 = it + 8 by omega,
        List.getElem?_of_slice hslice (by omega), hb, Option.map_some, hlen]
    rw [hkind, nsecSlotLen, if_neg (by decide), if_neg (by decide), if_pos rfl,
      if_neg (by omega), hread, Option.map_some]
    congr 2
    omega

theorem parseNsecs_laid {buf : List UInt8} :
    ∀ (is : List Nat) (ss : List (List UInt8)) (it : Nat),
      is.map (fun i => buf[entryApexNsecsOff + i]?) = ss.map (fun s => some (nsecKind s.length)) →
      (∀ s ∈ ss, NsecSlotOk s) → Laid buf it ss → slotsEnd it ss ≤ buf.length →
      parseNsecs buf is it = some (.ok (slicesFrom it ss, slotsEnd it ss))
  | [], [], _, _, _, _, _ => rfl
  | i :: is, s :: ss, it, hk, hok, ⟨hslice, hlaid⟩, hend => by
    obtain ⟨hk₁, hk₂⟩ := List.cons.inj hk
    dsimp only at hk₁
    rw [slotsEnd_cons] at hend ⊢
    have hit := le_slotsEnd (it + toEven s.length) ss
    rw [parseNsecs, if_neg (by omega), hk₁]
    dsimp only
    rw [nsecSlotLen_of_slot (hok s List.mem_cons_self) hslice]
    dsimp only
    rw [parseNsecs_laid is ss _ hk₂ (fun s hs => hok s (List.mem_cons_of_mem _ hs)) hlaid hend]
    rfl
  | [], _ :: _, _, hk, _, _, _ => nomatch hk
  | _ :: _, [], _, hk, _, _, _ => nomatch hk

/-- `entry_h_len` of a laid entry, read up to the end of the value, is its length. -/
theorem entryHLen_of_slot {buf s : List UInt8} {it : Nat} (hs : entryHLen s = some (.ok s.length))
    (hslice : (buf.drop it).take s.length = s) :
    entryHLen (buf.drop it) = some (.ok s.length) := by
  rw [List.drop_eq_of_slice hslice]
  exact entryHLen_append hs _

theorem parseEntries_laid {buf : List UInt8} {flags : UInt8} :
    ∀ (is : List Nat) (ss : List (List UInt8)) (it : Nat),
      is.map (entryApexHas flags) = ss.map (fun s => s.length != 0) →
      (∀ s ∈ ss, EntrySlotOk s) → Laid buf it ss → slotsEnd it ss ≤ buf.length →
      parseEntries buf flags is it = some (.ok (slicesFrom it ss, slotsEnd it ss))
  | [], [], _, _, _, _, _ => rfl
  | i :: is, s :: ss, it, hk, hok, ⟨hslice, hlaid⟩, hend => by
    obtain ⟨hk₁, hk₂⟩ := List.cons.inj hk
    dsimp only at hk₁
    rw [slotsEnd_cons] at hend ⊢
    have hit := le_slotsEnd (it + toEven s.length) ss
    have hrest := parseEntries_laid is ss _ hk₂ (fun s hs => hok s (List.mem_cons_of_mem _ hs)) hlaid hend
    rcases hok s List.mem_cons_self with rfl | hs
    · -- an absent entry takes no room
      simp only [List.length_nil, toEven_zero, Nat.add_zero] at hrest ⊢
      rw [parseEntries, if_pos (by rw [hk₁]; rfl), hrest]
      rfl
    · have hpos : 0 < s.length := by
        rcases s with _ | ⟨b, s⟩
        · cases hs
        · exact Nat.succ_pos _
      have hbuf := List.add_le_length_of_slice hslice hpos
      have hhas : (s.length != 0) = true := bne_iff_ne.2 (by omega)
      rw [parseEntries, if_neg (by rw [hk₁, hhas]; decide), if_neg (by omega),
        entryHLen_of_slot hs hslice]
      dsimp only
      rw [hrest]
      rfl
  | [], _ :: _, _, hk, _, _, _ => nomatch hk
  | _ :: _, [], _, hk, _, _, _ => nomatch hk

/-! ## The round trip -/

/-- The header's bit of each entry slot is set exactly for a nonempty slot. -/
theorem entryApexHas_flags (a b c : Bool) :
    [elNs, elNs + 1, elNs + 2].map (entryApexHas (entryApexFlags a b c)) = [a, b, c] := by
  cases a <;> cases b <;> cases c <;> decide

theorem getElem_map_ofBytes (slots : Vector (List UInt8) elLength) {i : Nat} (hi : i < elLength) :
    (slots.map EntryListIn.ofBytes)[i] = EntryListIn.ofBytes (slots.toList.getD i []) := by
  rw [Vector.getElem_map, ← Vector.getElem_toList (by rw [Vector.length_toList]; exact hi),
    List.getD_eq_getElem?_getD, List.getElem?_eq_getElem (by rw [Vector.length_toList]; exact hi)]
  rfl

/-- `entry_list_memcpy` of well-formed slots into a buffer of `entry_list_serial_size` bytes, and
`entry_list_parse` of that buffer, give back every slot: its length and its bytes. -/
theorem entryListParse_memcpy (slots : Vector (List UInt8) elLength)
    (hnsecs : ∀ s ∈ slots.toList.take entryApexNsecsCnt, NsecSlotOk s)
    (hentries : ∀ s ∈ slots.toList.drop elNs, EntrySlotOk s) (mem : List UInt8)
    (hmem : mem.length = entryListSerialSize (slots.map EntryListIn.ofBytes)) :
    ∃ buf offs, entryListMemcpy mem (slots.map EntryListIn.ofBytes) = some (buf, offs) ∧
      ∃ out, entryListParse buf = some (.ok out) ∧
        List.Forall₂ (fun s sl => sl.len = s.length ∧ (buf.drop sl.off).take sl.len = s)
          slots.toList out := by
  -- the five slots
  have hl : slots.toList.length = 5 := Vector.length_toList
  obtain ⟨s0, s1, s2, s3, s4, hds⟩ : ∃ s0 s1 s2 s3 s4, slots.toList = [s0, s1, s2, s3, s4] := by
    match slots.toList, hl with
    | [s0, s1, s2, s3, s4], _ => exact ⟨s0, s1, s2, s3, s4, rfl⟩
  have hin : (slots.map EntryListIn.ofBytes).toList =
      [s0, s1, s2, s3, s4].map EntryListIn.ofBytes := by
    rw [Vector.toList_map, hds]
  have hsize : entryListSerialSize (slots.map EntryListIn.ofBytes) =
      slotsEnd entryApexHeaderSize [s0, s1, s2, s3, s4] := by
    rw [entryListSerialSize, hin]
    rfl
  have hhdr : entryApexHeader (slots.map EntryListIn.ofBytes) =
      [entryApexFlags (s2.length != 0) (s3.length != 0) (s4.length != 0), 0,
        nsecKind s0.length, nsecKind s1.length] := by
    rw [entryApexHeader, getElem_map_ofBytes _ (by decide), getElem_map_ofBytes _ (by decide),
      getElem_map_ofBytes _ (by decide), hin, hds]
    rfl
  have h4 := le_slotsEnd entryApexHeaderSize [s0, s1, s2, s3, s4]
  -- the header, then the slots after it
  obtain ⟨mem₀, hw⟩ := List.writeAt_of_le
    (show 0 + (entryApexHeader (slots.map EntryListIn.ofBytes)).length ≤ mem.length by
      rw [hhdr, hmem, hsize]
      exact h4)
  obtain ⟨buf, offs, hloop, hlen, htake, hlaid⟩ :=
    memcpyLoop_ofBytes [s0, s1, s2, s3, s4] mem₀ entryApexHeaderSize
      (Nat.le_of_eq (by rw [List.length_of_writeAt hw, hmem, hsize]))
  rw [← hds] at hlaid
  refine ⟨buf, offs, ?_, slicesFrom entryApexHeaderSize slots.toList, ?_, Laid.forall₂ hlaid⟩
  · rw [entryListMemcpy, hw, Option.bind_some, hin]
    exact hloop
  rw [hds] at hlaid ⊢
  -- the header read back
  have hread : ∀ k < entryApexHeaderSize, buf[k]? = (entryApexHeader
      (slots.map EntryListIn.ofBytes))[k]? := by
    intro k hk
    have hbufhdr : buf.take entryApexHeaderSize = entryApexHeader (slots.map EntryListIn.ofBytes) := by
      rw [htake, ← List.drop_zero (l := mem₀), List.drop_of_writeAt hw, hhdr]
      rfl
    rw [← hbufhdr, List.getElem?_take, if_pos hk]
  have hbuflen : buf.length = slotsEnd entryApexHeaderSize [s0, s1, s2, s3, s4] := by
    rw [hlen, List.length_of_writeAt hw, hmem, hsize]
  -- the NSEC* slots, then the entries
  have hsplit : [s0, s1, s2, s3, s4] = [s0, s1] ++ [s2, s3, s4] := rfl
  rw [hds, hsplit, List.take_left' (show [s0, s1].length = entryApexNsecsCnt from rfl)] at hnsecs
  rw [hds, hsplit, List.drop_left' (show [s0, s1].length = elNs from rfl)] at hentries
  rw [hsplit, laid_append] at hlaid
  rw [hsplit, slotsEnd_append] at hbuflen
  have hmid := le_slotsEnd (slotsEnd entryApexHeaderSize [s0, s1]) [s2, s3, s4]
  have hfirst := le_slotsEnd entryApexHeaderSize [s0, s1]
  have hpos : 0 < entryApexHeaderSize := by decide
  have hkinds : (List.range entryApexNsecsCnt).map (fun i => buf[entryApexNsecsOff + i]?) =
      [s0, s1].map fun s => some (nsecKind s.length) := by
    show [buf[entryApexNsecsOff + 0]?, buf[entryApexNsecsOff + 1]?] = _
    rw [hread _ (by decide), hread _ (by decide), hhdr]
    rfl
  have hflags : (List.range' elNs (elLength - elNs)).map
      (entryApexHas (entryApexFlags (s2.length != 0) (s3.length != 0) (s4.length != 0))) =
      [s2, s3, s4].map fun s => s.length != 0 :=
    entryApexHas_flags _ _ _
  have hnsec := parseNsecs_laid _ [s0, s1] entryApexHeaderSize hkinds hnsecs hlaid.1 (by omega)
  have hent := parseEntries_laid _ [s2, s3, s4] _ hflags hentries hlaid.2 (by omega)
  rw [entryListParse, if_neg (by omega), hnsec]
  dsimp only
  rw [hread 0 (by decide), hhdr, List.getElem?_cons_zero]
  dsimp only
  rw [hent]
  dsimp only
  rw [if_pos hbuflen.symm, hsplit, slicesFrom_append]

/-- A timestamp, NSEC3 parameters with an empty salt, the entry of an empty packet, and no
CNAME or DNAME. -/
def apexSample : Vector (List UInt8) elLength :=
  ⟨⟨[[0, 0, 0, 1], [0, 0, 0, 1, 1, 0, 0, 0, 0], [0, 0, 0, 0, 0, 0, 0, 0, 0x40, 0, 0, 0], [], []]⟩, rfl⟩

theorem entryListParse_memcpy_apexSample :
    (∀ s ∈ apexSample.toList.take entryApexNsecsCnt, NsecSlotOk s) ∧
      (∀ s ∈ apexSample.toList.drop elNs, EntrySlotOk s) ∧
      (List.replicate 30 0).length = entryListSerialSize (apexSample.map EntryListIn.ofBytes) ∧
      ∃ buf offs, entryListMemcpy (List.replicate 30 0) (apexSample.map EntryListIn.ofBytes) =
          some (buf, offs) ∧
        ∃ out, entryListParse buf = some (.ok out) ∧
          List.Forall₂ (fun s sl => sl.len = s.length ∧ (buf.drop sl.off).take sl.len = s)
            apexSample.toList out := by
  have hnsecs : ∀ s ∈ apexSample.toList.take entryApexNsecsCnt, NsecSlotOk s := by decide
  have hentries : ∀ s ∈ apexSample.toList.drop elNs, EntrySlotOk s := by decide
  have hmem : (List.replicate 30 0).length = entryListSerialSize (apexSample.map EntryListIn.ofBytes) := by
    rw [entryListSerialSize, Vector.toList_map]
    decide
  exact ⟨hnsecs, hentries, hmem, entryListParse_memcpy apexSample hnsecs hentries _ hmem⟩

/-! ## What `entry_list_parse` returns lies in the value -/

/-- The slices lie one after the other from offset `it`, each padded to an even length, and end
at offset `e`. -/
def Tiles : Nat → List Slice → Nat → Prop
  | it, [], e => it = e
  | it, sl :: sls, e => sl.off = it ∧ Tiles (it + toEven sl.len) sls e

theorem Tiles.append :
    ∀ {it m e : Nat} {sls sls' : List Slice}, Tiles it sls m → Tiles m sls' e →
      Tiles it (sls ++ sls') e
  | _, _, _, [], _, rfl, h' => h'
  | _, _, _, _ :: _, _, ⟨hoff, h⟩, h' => ⟨hoff, Tiles.append h h'⟩

/-- The NSEC3 branch of the first loop: past its guard, the length of the slot comes from the byte
`it + 8`, the salt length of the NSEC3PARAM data. The guard only asks for `it + 8 ≤ it_bound`. -/
theorem nsecSlotLen_nsec3 {val : List UInt8} {it : Nat} (hguard : ¬it + 4 + 4 > val.length) :
    nsecSlotLen val it 3 = val[it + 8]?.map fun b => .ok (4 + (5 + b.toNat)) := by
  rw [nsecSlotLen, if_neg (by decide), if_neg (by decide), if_pos rfl, if_neg hguard, nsecPRdlen,
    List.getElem?_drop, show it + 4 + 4 = it + 8 by omega, Option.map_map]
  rfl

/-- A 12-byte apex value whose first NSEC* slot is NSEC3 and nothing more. -/
def saltPastEnd : List UInt8 := [0, 0, 3, 0, 0, 0, 0, 0, 0, 0, 0, 0]

/-- On `saltPastEnd` the guard of the NSEC3 branch passes at `it = 4`, and the salt length is read
at offset 12, one past the end of the value; the first loop has no assertion, so its `none` is
that read. -/
theorem entryListParse_salt_past_end :
    ¬(entryApexHeaderSize + 4 + 4 > saltPastEnd.length) ∧
      saltPastEnd.length ≤ entryApexHeaderSize + 8 ∧
      parseNsecs saltPastEnd (List.range entryApexNsecsCnt) entryApexHeaderSize = none ∧
      entryListParse saltPastEnd = none := by
  -- the length of the first slot is read from offset 12
  have hslot : nsecSlotLen saltPastEnd entryApexHeaderSize 3 = none := by
    rw [nsecSlotLen_nsec3 (by decide)]
    rfl
  refine ⟨by decide, by decide, ?_, rfl⟩
  rw [show List.range entryApexNsecsCnt = [0, 1] from rfl, parseNsecs, if_neg (by decide),
    show saltPastEnd[entryApexNsecsOff + 0]? = some 3 from rfl]
  dsimp only
  rw [hslot]

end KnotResolver.Cache.EntryList
