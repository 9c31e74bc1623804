import KnotResolver.Rrset

/-!
# Length-prefixed packs (`lib/generic/pack.h`)

A `pack_t` is an array of bytes holding objects one after the other, each preceded by its length
as a `pack_objlen_t`: 16 bits, stored by `memcpy` in the byte order of the target, little-endian
here. A pointer into the pack is an offset, `none` for NULL; `pack_head` and `pack_tail` are NULL
while the pack is empty. The capacity grows by `array_next_count` through `kr_memreserve`.
Allocation succeeds, and the bytes past the used length are not modelled: a read of them is
`none`, as is a loop out of fuel.

A pack holds a list of objects when its bytes are their encoding and each is shorter than
`2 ^ 16` (`PackT.Holds`). Then the walk from `pack_head` over `pack_obj_next` meets every object
and stops at `pack_tail` (`packWalk_eq`), `pack_last` stops at the last object
(`packLast_spec`), `pack_obj_find` finds the first object equal to the one
sought (`packObjFind_of_first`, `packObjFind_of_forall`), `pack_obj_del` cuts it out
(`packObjDel_of_first`), and a push after a reservation appends (`packObjPush_holds`).
-/

namespace KnotResolver.Generic

/-- `pack_t`: the used bytes (`len` is their number) and the capacity. -/
structure PackT where
  bytes : List UInt8
  cap : Nat

/-- `pack.len`. -/
def PackT.len (p : PackT) : Nat := p.bytes.length

/-- `pack_init`. -/
def packInit : PackT := ⟨[], 0⟩

/-- `array_next_count`: the growth of a reservation. -/
def arrayNextCount (want : Nat) : Nat :=
  if want < 2048 then (if want < 20 then want + 4 else want * 2) else want + 2048

/-- `pack_reserve_mm` with `kr_memreserve`: room for `objsCount` more objects of `objsLen` bytes in
all, by a reallocation to `array_next_count` bytes when the capacity is short. -/
def packReserve (p : PackT) (objsCount objsLen : Nat) : PackT :=
  let want := p.len + (2 * objsCount + objsLen)
  if p.cap ≥ want then p else { p with cap := arrayNextCount want }

/-- The two bytes `memcpy` stores for a `pack_objlen_t`. -/
def packObjlenBytes (len : Nat) : List UInt8 := [(len % 256).toUInt8, (len / 256 % 256).toUInt8]

/-- `pack_head`: the first object, NULL in an empty pack. -/
def packHead (p : PackT) : Option Nat := if p.len > 0 then some 0 else none

/-- `pack_tail`: the end of the used bytes, NULL in an empty pack. -/
def packTail (p : PackT) : Option Nat := if p.len > 0 then some p.len else none

/-- `pack_obj_len` of the object at `it`. -/
def packObjLen (p : PackT) (it : Nat) : Option Nat :=
  match p.bytes[it]?, p.bytes[it + 1]? with
  | some lo, some hi => some (lo.toNat + 256 * hi.toNat)
  | _, _ => none

/-- The loop of `pack_obj_find` from `it`, for at most `fuel` objects: the first object of length
`len` whose bytes `memcmp` finds equal to those of `obj`, or `some none` at `pack_tail`. -/
def packObjFindFrom (p : PackT) (obj : List UInt8) (len : UInt16) :
    Nat → Option Nat → Option (Option Nat)
  | 0, _ => none
  | fuel + 1, it =>
    if it = packTail p then some none
    else
      match it with
      | none => none
      | some off =>
        match packObjLen p off with
        | none => none
        | some l =>
          if l = len.toNat then
            -- `memcmp` reads the `len` bytes of the object
            if off + 2 + len.toNat ≤ p.len then
              if memcmp obj (p.bytes.drop (off + 2)) len.toNat = .eq then some (some off)
              else packObjFindFrom p obj len fuel (some (off + 2 + l))
            else none
          else packObjFindFrom p obj len fuel (some (off + 2 + l))

/-- `pack_obj_find`; no pack has more objects than bytes. -/
def packObjFind (p : PackT) (obj : List UInt8) (len : UInt16) : Option (Option Nat) :=
  packObjFindFrom p obj len (p.len + 1) (packHead p)

/-- `pack_obj_del`: the object found is cut out by `memmove`; -1 when there is none. -/
def packObjDel (p : PackT) (obj : List UInt8) (len : UInt16) : Option (Int × PackT) :=
  match packObjFind p obj len with
  | none => none
  | some none => some (-1, p)
  | some (some off) =>
    let packedLen := len.toNat + 2
    -- `memmove(it, it + packed_len, endp - it - packed_len)`
    if off + packedLen ≤ p.len then
      some (0, { p with bytes := p.bytes.take off ++ p.bytes.drop (off + packedLen) })
    else none

/-- `pack_obj_push`: the length and the first `len` bytes of `obj` after the used bytes, when the
capacity has room. -/
def packObjPush (p : PackT) (obj : List UInt8) (len : UInt16) : Except Int PackT :=
  let packedLen := len.toNat + 2
  if p.len + packedLen > p.cap then .error (krError ENOSPC)
  else .ok { p with bytes := p.bytes ++ packObjlenBytes len.toNat ++ obj.take len.toNat }

/-- The loop `for (it = pack_head(pack); it != pack_tail(pack); it = pack_obj_next(it))` of the
callers from `it`, for at most `fuel` objects: the objects it reads (`pack_obj_val` and
`pack_obj_len` of each). -/
def packWalkFrom (p : PackT) : Nat → Option Nat → Option (List (List UInt8))
  | 0, _ => none
  | fuel + 1, it =>
    if it = packTail p then some []
    else
      match it with
      | none => none
      | some off =>
        match packObjLen p off with
        | none => none
        | some l =>
          if off + 2 + l ≤ p.len then
            ((p.bytes.drop (off + 2)).take l :: ·) <$> packWalkFrom p fuel (some (off + 2 + l))
          else none

/-- The callers' walk over a whole pack. -/
def packWalk (p : PackT) : Option (List (List UInt8)) := packWalkFrom p (p.len + 1) (packHead p)

/-- The loop of `pack_last` from the object at `it`, for at most `fuel` objects: the object whose
`pack_obj_next` is `pack_tail`. -/
def packLastFrom (p : PackT) : Nat → Nat → Option Nat
  | 0, _ => none
  | fuel + 1, it =>
    match packObjLen p it with
    | none => none
    | some l => if some (it + 2 + l) = packTail p then some it else packLastFrom p fuel (it + 2 + l)

/-- `pack_last`: the last object, NULL in an empty pack. -/
def packLast (p : PackT) : Option (Option Nat) :=
  if p.len = 0 then some none else some <$> packLastFrom p (p.len + 1) 0

/-- `pack_obj_val` and `pack_obj_len` of the object at `it`: its bytes. -/
def packObjRead (p : PackT) (it : Nat) : Option (List UInt8) :=
  (fun l => (p.bytes.drop (it + 2)).take l) <$> packObjLen p it

/-! ## Packs holding a list of objects -/

/-- The bytes of a pack holding `objs`: each object after its length. -/
def packEncode (objs : List (List UInt8)) : List UInt8 :=
  objs.flatMap fun o => packObjlenBytes o.length ++ o

/-- A pack holding the objects `objs`, each shorter than `2 ^ 16`, within its capacity. -/
structure PackT.Holds (p : PackT) (objs : List (List UInt8)) : Prop where
  bytes : p.bytes = packEncode objs
  short : ∀ o ∈ objs, o.length < 2 ^ 16
  room : p.len ≤ p.cap

/-- The test `pack_obj_find` makes of an object `o` against `obj` of length `len`. -/
def PackMatch (obj : List UInt8) (len : Nat) (o : List UInt8) : Prop :=
  o.length = len ∧ obj.take len = o

instance (obj : List UInt8) (len : Nat) (o : List UInt8) : Decidable (PackMatch obj len o) :=
  inferInstanceAs (Decidable (_ ∧ _))

@[simp] theorem length_packObjlenBytes (len : Nat) : (packObjlenBytes len).length = 2 := rfl

@[simp] theorem packEncode_nil : packEncode [] = [] := rfl

@[simp] theorem packEncode_cons (o : List UInt8) (objs : List (List UInt8)) :
    packEncode (o :: objs) = packObjlenBytes o.length ++ o ++ packEncode objs := by
  simp [packEncode]

@[simp] theorem packEncode_append (objs objs' : List (List UInt8)) :
    packEncode (objs ++ objs') = packEncode objs ++ packEncode objs' := by
  simp [packEncode]

theorem length_packEncode_ge (objs : List (List UInt8)) : 2 * objs.length ≤ (packEncode objs).length := by
  induction objs with
  | nil => simp
  | cons o objs ih =>
    simp only [packEncode_cons, List.length_append, length_packObjlenBytes, List.length_cons]
    omega

theorem packEncode_eq_nil_iff {objs : List (List UInt8)} : packEncode objs = [] ↔ objs = [] := by
  cases objs with
  | nil => simp
  | cons o objs => simp [packObjlenBytes]

/-- An object with fewer than `2 ^ 16` bytes matches exactly itself. -/
theorem packMatch_iff {obj : List UInt8} {len : UInt16} (hlen : obj.length = len.toNat)
    (o : List UInt8) : PackMatch obj len.toNat o ↔ o = obj := by
  rw [PackMatch, ← hlen, List.take_length]
  constructor
  · exact fun h => h.2.symm
  · rintro rfl
    exact ⟨rfl, rfl⟩

/-- The two bytes of a length read back. -/
theorem decode_packObjlenBytes {n : Nat} (hn : n < 2 ^ 16) :
    (n % 256).toUInt8.toNat + 256 * (n / 256 % 256).toUInt8.toNat = n := by
  have hlo : (n % 256).toUInt8.toNat = n % 256 := by simp
  have hhi : (n / 256 % 256).toUInt8.toNat = n / 256 % 256 := by simp
  omega

/-! ## One object at a time -/

section Object

variable {p : PackT} {pre o : List UInt8} {objs : List (List UInt8)}

/-- Where the bytes from offset `pre.length` are the encoding of `o` and more, the object there
is `o`. -/
theorem packObjLen_of_bytes (h : p.bytes = pre ++ packEncode (o :: objs)) (ho : o.length < 2 ^ 16) :
    packObjLen p pre.length = some o.length := by
  have hlo : p.bytes[pre.length]? = some (o.length % 256).toUInt8 := by
    rw [h, packEncode_cons, List.getElem?_append_right (Nat.le_refl _), Nat.sub_self]
    rfl
  have hhi : p.bytes[pre.length + 1]? = some (o.length / 256 % 256).toUInt8 := by
    rw [h, packEncode_cons, List.getElem?_append_right (by omega),
      show pre.length + 1 - pre.length = 1 by omega]
    rfl
  rw [packObjLen, hlo, hhi]
  dsimp only
  rw [decode_packObjlenBytes ho]

theorem take_drop_of_bytes (h : p.bytes = pre ++ packEncode (o :: objs)) :
    (p.bytes.drop (pre.length + 2)).take o.length = o := by
  rw [h, packEncode_cons, List.append_assoc, List.drop_length_add_append,
    List.drop_left' (length_packObjlenBytes _), List.take_left]

theorem len_of_bytes (h : p.bytes = pre ++ packEncode (o :: objs)) :
    pre.length + 2 + o.length + (packEncode objs).length = p.len := by
  rw [PackT.len, h]
  simp only [packEncode_cons, List.length_append, length_packObjlenBytes]
  omega

theorem bytes_of_cons (h : p.bytes = pre ++ packEncode (o :: objs)) :
    p.bytes = (pre ++ packObjlenBytes o.length ++ o) ++ packEncode objs := by
  rw [h, packEncode_cons]
  simp only [List.append_assoc]

theorem length_after (pre o : List UInt8) :
    (pre ++ packObjlenBytes o.length ++ o).length = pre.length + 2 + o.length := by
  simp only [List.length_append, length_packObjlenBytes]

theorem some_ne_packTail_of_bytes (h : p.bytes = pre ++ packEncode (o :: objs)) :
    some pre.length ≠ packTail p := by
  have hlen := len_of_bytes h
  rw [packTail, if_pos (by omega)]
  intro heq
  have := Option.some.inj heq
  omega

theorem packTail_of_bytes (h : p.bytes = pre) (hpos : 0 < p.len) : some pre.length = packTail p := by
  rw [packTail, if_pos hpos, PackT.len, h]

/-- One object of the walk of `pack_obj_find`: it stops at a match, and goes on after any other
object. -/
theorem packObjFindFrom_cons (h : p.bytes = pre ++ packEncode (o :: objs)) (ho : o.length < 2 ^ 16)
    (obj : List UInt8) (len : UInt16) (fuel : Nat) :
    packObjFindFrom p obj len (fuel + 1) (some pre.length) =
      if PackMatch obj len.toNat o then some (some pre.length)
      else packObjFindFrom p obj len fuel (some (pre ++ packObjlenBytes o.length ++ o).length) := by
  have hlen := len_of_bytes h
  rw [packObjFindFrom, if_neg (some_ne_packTail_of_bytes h)]
  rw [packObjLen_of_bytes h ho, length_after]
  dsimp only
  by_cases hl : o.length = len.toNat
  · rw [if_pos hl, if_pos (by omega)]
    -- `memcmp` compares `obj` with the object's bytes
    have hcmp : memcmp obj (p.bytes.drop (pre.length + 2)) len.toNat = .eq ↔ obj.take len.toNat = o := by
      rw [memcmp, ← hl, take_drop_of_bytes h]
      exact Std.LawfulEqCmp.compare_eq_iff_eq
    by_cases hm : obj.take len.toNat = o
    · rw [if_pos (hcmp.2 hm), if_pos ⟨hl, hm⟩]
    · rw [if_neg (mt hcmp.1 hm), if_neg (fun hmatch => hm hmatch.2), hl]
  · rw [if_neg hl, if_neg (fun hmatch => hl hmatch.1)]

/-- One object of the callers' walk: it reads the object and goes on after it. -/
theorem packWalkFrom_cons (h : p.bytes = pre ++ packEncode (o :: objs)) (ho : o.length < 2 ^ 16)
    (fuel : Nat) :
    packWalkFrom p (fuel + 1) (some pre.length) =
      (o :: ·) <$> packWalkFrom p fuel (some (pre ++ packObjlenBytes o.length ++ o).length) := by
  have hlen := len_of_bytes h
  rw [packWalkFrom, if_neg (some_ne_packTail_of_bytes h)]
  rw [packObjLen_of_bytes h ho, length_after]
  dsimp only
  rw [if_pos (by omega), take_drop_of_bytes h]

end Object

/-! ## Whole walks -/

section Walks

variable {p : PackT}

/-- From the offset of a suffix of objects, the callers' walk reads them all and stops at
`pack_tail`. -/
theorem packWalkFrom_spec (hpos : 0 < p.len) :
    ∀ (ws : List (List UInt8)) (pre : List UInt8) (fuel : Nat), p.bytes = pre ++ packEncode ws →
      (∀ o ∈ ws, o.length < 2 ^ 16) → ws.length < fuel →
      packWalkFrom p fuel (some pre.length) = some ws
  | [], pre, fuel + 1, h, _, _ => by
    rw [packWalkFrom, if_pos (packTail_of_bytes (by simpa using h) hpos)]
  | o :: ws, pre, fuel + 1, h, hshort, hfuel => by
    rw [packWalkFrom_cons h (hshort o List.mem_cons_self),
      packWalkFrom_spec hpos ws _ fuel (bytes_of_cons h) (fun w hw => hshort w (.tail _ hw))
        (by simpa using hfuel)]
    rfl

/-- The walk from `pack_head` meets every object and stops at `pack_tail`. -/
theorem packWalk_eq {objs : List (List UInt8)} (h : p.Holds objs) : packWalk p = some objs := by
  unfold packWalk
  by_cases hlen : p.len = 0
  · -- an empty pack: head and tail are both NULL
    have hnil : objs = [] := by
      rw [← packEncode_eq_nil_iff, ← h.bytes]
      exact List.eq_nil_of_length_eq_zero hlen
    rw [packHead, if_neg (by omega), hnil, packWalkFrom, if_pos (by rw [packTail, if_neg (by omega)])]
  · rw [packHead, if_pos (by omega)]
    have hfuel : objs.length < p.len + 1 := by
      have := length_packEncode_ge objs
      rw [← h.bytes] at this
      unfold PackT.len
      omega
    exact packWalkFrom_spec (by omega) objs [] _ (by rw [h.bytes]; rfl) h.short hfuel

/-- From the offset of a nonempty suffix of objects, `pack_last` stops at the last of them. -/
theorem packLastFrom_spec (hpos : 0 < p.len) :
    ∀ (o : List UInt8) (ws : List (List UInt8)) (pre : List UInt8) (fuel : Nat),
      p.bytes = pre ++ packEncode (o :: ws) → (∀ w ∈ o :: ws, w.length < 2 ^ 16) → ws.length < fuel →
      ∃ it, packLastFrom p fuel pre.length = some it ∧ packObjRead p it = (o :: ws).getLast?
  | o, [], pre, fuel + 1, h, hshort, _ => by
    have hlen := len_of_bytes h
    have hobj := packObjLen_of_bytes h (hshort o List.mem_cons_self)
    refine ⟨pre.length, ?_, ?_⟩
    · -- the object ends at `pack_tail`
      rw [packLastFrom, hobj]
      dsimp only
      have htail : some (pre.length + 2 + o.length) = packTail p := by
        rw [packTail, if_pos hpos, Option.some.injEq]
        simp only [packEncode_nil, List.length_nil] at hlen
        omega
      rw [if_pos htail]
    · rw [packObjRead, hobj, Option.map_eq_map, Option.map_some, take_drop_of_bytes h]
      rfl
  | o, o' :: ws, pre, fuel + 1, h, hshort, hfuel => by
    obtain ⟨it, hit, hread⟩ := packLastFrom_spec hpos o' ws _ fuel (bytes_of_cons h)
      (fun w hw => hshort w (.tail _ hw)) (by simpa using hfuel)
    refine ⟨it, ?_, by rw [hread, List.getLast?_cons_cons]⟩
    rw [packLastFrom, packObjLen_of_bytes h (hshort o List.mem_cons_self)]
    dsimp only
    rw [← length_after, if_neg (some_ne_packTail_of_bytes (bytes_of_cons h)), hit]

/-- From the offset of a suffix of objects none of which matches, `pack_obj_find` reaches
`pack_tail`. -/
theorem packObjFindFrom_of_forall (hpos : 0 < p.len) (obj : List UInt8) (len : UInt16) :
    ∀ (ws : List (List UInt8)) (pre : List UInt8) (fuel : Nat), p.bytes = pre ++ packEncode ws →
      (∀ o ∈ ws, o.length < 2 ^ 16) → (∀ o ∈ ws, ¬PackMatch obj len.toNat o) → ws.length < fuel →
      packObjFindFrom p obj len fuel (some pre.length) = some none
  | [], pre, fuel + 1, h, _, _, _ => by
    rw [packObjFindFrom, if_pos (packTail_of_bytes (by simpa using h) hpos)]
  | o :: ws, pre, fuel + 1, h, hshort, hnot, hfuel => by
    rw [packObjFindFrom_cons h (hshort o List.mem_cons_self), if_neg (hnot o List.mem_cons_self)]
    exact packObjFindFrom_of_forall hpos obj len ws _ fuel (bytes_of_cons h)
      (fun w hw => hshort w (.tail _ hw)) (fun w hw => hnot w (.tail _ hw)) (by simpa using hfuel)

/-- From the offset of a suffix of objects, `pack_obj_find` stops at the first match. -/
theorem packObjFindFrom_of_first (obj : List UInt8) (len : UInt16) {o : List UInt8}
    (hm : PackMatch obj len.toNat o) (ho : o.length < 2 ^ 16) {ws₂ : List (List UInt8)} :
    ∀ (ws₁ : List (List UInt8)) (pre : List UInt8) (fuel : Nat),
      p.bytes = pre ++ packEncode (ws₁ ++ o :: ws₂) → (∀ w ∈ ws₁, w.length < 2 ^ 16) →
      (∀ w ∈ ws₁, ¬PackMatch obj len.toNat w) → ws₁.length < fuel →
      packObjFindFrom p obj len fuel (some pre.length) = some (some (pre.length + (packEncode ws₁).length))
  | [], pre, fuel + 1, h, _, _, _ => by
    rw [packObjFindFrom_cons h ho, if_pos hm]
    rfl
  | w :: ws₁, pre, fuel + 1, h, hshort, hnot, hfuel => by
    rw [List.cons_append] at h
    rw [packObjFindFrom_cons h (hshort w List.mem_cons_self), if_neg (hnot w List.mem_cons_self),
      packObjFindFrom_of_first obj len hm ho ws₁ _ fuel (bytes_of_cons h)
        (fun v hv => hshort v (.tail _ hv)) (fun v hv => hnot v (.tail _ hv)) (by simpa using hfuel),
      length_after]
    congr 2
    simp only [packEncode_cons, List.length_append, length_packObjlenBytes]
    omega

end Walks

/-! ## The operations on a pack holding a list -/

section Holds

variable {p : PackT} {objs : List (List UInt8)}

theorem PackT.Holds.pos_of_ne_nil (h : p.Holds objs) (hne : objs ≠ []) : 0 < p.len := by
  have := length_packEncode_ge objs
  rw [← h.bytes] at this
  have : 0 < objs.length := List.length_pos_iff.2 hne
  unfold PackT.len
  omega

theorem PackT.Holds.fuel (h : p.Holds objs) : objs.length < p.len + 1 := by
  have := length_packEncode_ge objs
  rw [← h.bytes] at this
  unfold PackT.len
  omega

/-- `pack_obj_find` of an object that matches none: NULL. -/
theorem packObjFind_of_forall (h : p.Holds objs) (obj : List UInt8) (len : UInt16)
    (hnot : ∀ o ∈ objs, ¬PackMatch obj len.toNat o) : packObjFind p obj len = some none := by
  unfold packObjFind
  by_cases hlen : p.len = 0
  · rw [packHead, if_neg (by omega), packObjFindFrom, if_pos (by rw [packTail, if_neg (by omega)])]
  · rw [packHead, if_pos (by omega)]
    exact packObjFindFrom_of_forall (by omega) obj len objs [] _ (by rw [h.bytes]; rfl) h.short hnot
      h.fuel

/-- `pack_obj_find` stops at the first match, at the offset of the objects before it. -/
theorem packObjFind_of_first (h : p.Holds objs) (obj : List UInt8) (len : UInt16)
    {ws₁ ws₂ : List (List UInt8)} {o : List UInt8} (hsplit : objs = ws₁ ++ o :: ws₂)
    (hnot : ∀ w ∈ ws₁, ¬PackMatch obj len.toNat w) (hm : PackMatch obj len.toNat o) :
    packObjFind p obj len = some (some (packEncode ws₁).length) := by
  have hpos := h.pos_of_ne_nil (by simp [hsplit])
  unfold packObjFind
  rw [packHead, if_pos hpos]
  have hfuel : ws₁.length < p.len + 1 := by
    have := h.fuel
    rw [hsplit] at this
    simp only [List.length_append, List.length_cons] at this
    omega
  have := packObjFindFrom_of_first (p := p) obj len hm (h.short o (by simp [hsplit])) ws₁ []
    (p.len + 1) (by rw [h.bytes, hsplit]; rfl) (fun w hw => h.short w (by simp [hsplit, hw])) hnot
    hfuel
  simpa using this

/-- `pack_obj_del` of an object that matches none: -1, and the pack as it was. -/
theorem packObjDel_of_forall (h : p.Holds objs) (obj : List UInt8) (len : UInt16)
    (hnot : ∀ o ∈ objs, ¬PackMatch obj len.toNat o) : packObjDel p obj len = some (-1, p) := by
  rw [packObjDel, packObjFind_of_forall h obj len hnot]

/-- `pack_obj_del` cuts out the first match. -/
theorem packObjDel_of_first (h : p.Holds objs) (obj : List UInt8) (len : UInt16)
    {ws₁ ws₂ : List (List UInt8)} {o : List UInt8} (hsplit : objs = ws₁ ++ o :: ws₂)
    (hnot : ∀ w ∈ ws₁, ¬PackMatch obj len.toNat w) (hm : PackMatch obj len.toNat o) :
    packObjDel p obj len = some (0, { p with bytes := packEncode (ws₁ ++ ws₂) }) := by
  have hbytes : p.bytes = packEncode ws₁ ++ (packObjlenBytes o.length ++ o) ++ packEncode ws₂ := by
    rw [h.bytes, hsplit, packEncode_append, packEncode_cons]
    simp only [List.append_assoc]
  have hlen : (packEncode ws₁).length + (len.toNat + 2) ≤ p.len := by
    rw [PackT.len, hbytes, ← hm.1]
    simp only [List.length_append, length_packObjlenBytes]
    omega
  rw [packObjDel, packObjFind_of_first h obj len hsplit hnot hm]
  dsimp only
  have hpacked : (packObjlenBytes o.length ++ o).length = o.length + 2 := by
    simp only [List.length_append, length_packObjlenBytes]
    omega
  rw [if_pos hlen, hbytes, ← hm.1, packEncode_append, List.append_assoc, List.take_left,
    List.drop_length_add_append, List.drop_left' hpacked]

theorem PackT.Holds.erase (h : p.Holds objs) {ws₁ ws₂ : List (List UInt8)} {o : List UInt8}
    (hsplit : objs = ws₁ ++ o :: ws₂) :
    ({ p with bytes := packEncode (ws₁ ++ ws₂) } : PackT).Holds (ws₁ ++ ws₂) := by
  refine ⟨rfl, fun w hw => h.short w (by simp [hsplit] at hw ⊢; tauto), ?_⟩
  have hroom := h.room
  unfold PackT.len at hroom ⊢
  rw [h.bytes, hsplit] at hroom
  simp only [packEncode_append, packEncode_cons, List.length_append] at hroom ⊢
  omega

theorem packInit_holds : packInit.Holds [] := ⟨rfl, nofun, Nat.le_refl _⟩

theorem PackT.Holds.len_eq_zero_iff (h : p.Holds objs) : p.len = 0 ↔ objs = [] := by
  rw [PackT.len, List.length_eq_zero_iff, h.bytes, packEncode_eq_nil_iff]

/-- `pack_last` of a pack holding objects: NULL when there are none, and otherwise the last of
them. -/
theorem packLast_spec (h : p.Holds objs) :
    ∃ r, packLast p = some r ∧ r.bind (packObjRead p) = objs.getLast? := by
  cases objs with
  | nil =>
    refine ⟨none, ?_, rfl⟩
    rw [packLast, if_pos (h.len_eq_zero_iff.2 rfl)]
  | cons o ws =>
    have hpos := h.pos_of_ne_nil (List.cons_ne_nil o ws)
    have hfuel : ws.length < p.len + 1 := by
      have := h.fuel
      rw [List.length_cons] at this
      omega
    obtain ⟨it, hit, hread⟩ := packLastFrom_spec hpos o ws [] (p.len + 1) (by rw [h.bytes]; rfl)
      h.short hfuel
    refine ⟨some it, ?_, hread⟩
    rw [packLast, if_neg (by omega), show (0 : Nat) = ([] : List UInt8).length from rfl, hit]
    rfl

/-- A list splits at the first copy of each of its members. -/
theorem eq_takeWhile_append_of_mem {a : List UInt8} :
    ∀ {l : List (List UInt8)}, a ∈ l → ∃ rest, l = l.takeWhile (· != a) ++ a :: rest
  | b :: l, hmem => by
    by_cases hb : b = a
    · subst hb
      exact ⟨l, by simp⟩
    · obtain ⟨rest, hrest⟩ := eq_takeWhile_append_of_mem
        ((List.mem_cons.1 hmem).resolve_left (Ne.symm hb))
      refine ⟨rest, ?_⟩
      rw [List.takeWhile_cons, if_pos (by simpa using hb), List.cons_append, ← hrest]

theorem ne_of_mem_takeWhile {a w : List UInt8} {l : List (List UInt8)}
    (hw : w ∈ l.takeWhile (· != a)) : w ≠ a := by
  simpa using List.mem_takeWhile_imp hw

/-- `pack_obj_find` of an object of its own length: the offset of its first copy, NULL when there
is none. -/
theorem packObjFind_eq (h : p.Holds objs) {obj : List UInt8} {len : UInt16}
    (hlen : obj.length = len.toNat) :
    packObjFind p obj len =
      some (if obj ∈ objs then some (packEncode (objs.takeWhile (· != obj))).length else none) := by
  by_cases hmem : obj ∈ objs
  · rw [if_pos hmem]
    obtain ⟨rest, hsplit⟩ := eq_takeWhile_append_of_mem hmem
    refine packObjFind_of_first h obj len hsplit (fun w hw hm => ?_) ((packMatch_iff hlen _).2 rfl)
    exact ne_of_mem_takeWhile hw ((packMatch_iff hlen w).1 hm)
  · rw [if_neg hmem]
    exact packObjFind_of_forall h obj len fun o ho hm => hmem ((packMatch_iff hlen o).1 hm ▸ ho)

/-- `pack_obj_del` of an object of its own length: 0 and the list without its first copy, or -1
and the pack as it was. -/
theorem packObjDel_eq (h : p.Holds objs) {obj : List UInt8} {len : UInt16}
    (hlen : obj.length = len.toNat) :
    ∃ p', packObjDel p obj len = some (if obj ∈ objs then 0 else -1, p') ∧ p'.Holds (objs.erase obj) := by
  by_cases hmem : obj ∈ objs
  · rw [if_pos hmem]
    obtain ⟨rest, hsplit⟩ := eq_takeWhile_append_of_mem hmem
    have hnot : ∀ w ∈ objs.takeWhile (· != obj), ¬PackMatch obj len.toNat w :=
      fun w hw hm => ne_of_mem_takeWhile hw ((packMatch_iff hlen w).1 hm)
    have herase : objs.erase obj = objs.takeWhile (· != obj) ++ rest := by
      conv => lhs; rw [hsplit]
      rw [List.erase_append_right _ (fun hin => ne_of_mem_takeWhile hin rfl), List.erase_cons_head]
    refine ⟨_, packObjDel_of_first h obj len hsplit hnot ((packMatch_iff hlen _).2 rfl), ?_⟩
    rw [herase]
    exact h.erase hsplit
  · rw [if_neg hmem, List.erase_of_not_mem hmem]
    exact ⟨p, packObjDel_of_forall h obj len fun o ho hm => hmem ((packMatch_iff hlen o).1 hm ▸ ho), h⟩

/-- A reservation keeps the bytes and makes room for what it reserves. -/
theorem packReserve_spec (p : PackT) (objsCount objsLen : Nat) :
    (packReserve p objsCount objsLen).bytes = p.bytes ∧ p.cap ≤ (packReserve p objsCount objsLen).cap ∧
      p.len + (2 * objsCount + objsLen) ≤ (packReserve p objsCount objsLen).cap := by
  unfold packReserve
  dsimp only
  split
  · next hcap => exact ⟨rfl, Nat.le_refl _, hcap⟩
  · next hcap =>
    refine ⟨rfl, ?_, ?_⟩ <;> (dsimp only; unfold arrayNextCount; split <;> (try split) <;> omega)

theorem PackT.Holds.reserve (h : p.Holds objs) (objsCount objsLen : Nat) :
    (packReserve p objsCount objsLen).Holds objs := by
  obtain ⟨hbytes, hcap, -⟩ := packReserve_spec p objsCount objsLen
  refine ⟨hbytes.trans h.bytes, h.short, ?_⟩
  have := h.room
  unfold PackT.len at this ⊢
  rw [hbytes]
  omega

/-- A push with room appends the object. -/
theorem packObjPush_holds (h : p.Holds objs) {obj : List UInt8} {len : UInt16}
    (hlen : obj.length = len.toNat) (hroom : p.len + (len.toNat + 2) ≤ p.cap) :
    packObjPush p obj len = .ok { p with bytes := packEncode (objs ++ [obj]) } ∧
      ({ p with bytes := packEncode (objs ++ [obj]) } : PackT).Holds (objs ++ [obj]) := by
  have hbytes : p.bytes ++ packObjlenBytes len.toNat ++ obj.take len.toNat = packEncode (objs ++ [obj]) := by
    rw [h.bytes, ← hlen, List.take_length]
    simp
  refine ⟨?_, rfl, fun o ho => ?_, ?_⟩
  · rw [packObjPush, if_neg (by omega), hbytes]
  · rcases List.mem_append.1 ho with ho | ho
    · exact h.short o ho
    · rw [List.mem_singleton.1 ho, hlen]
      exact len.toNat_lt
  · unfold PackT.len at hroom ⊢
    rw [← hbytes]
    simp only [List.length_append, length_packObjlenBytes, List.length_take]
    omega

end Holds

end KnotResolver.Generic
