import KnotResolver.Hints

/-!
# The two sets of the hints module as views of one relation

The hints module stands for one relation between names and addresses. `hints` is its forward
view, from a name to its addresses, and `reverse_hints` its reverse view, from the reverse name
of an address to the names pointing at it. `hint_set` adds a pair, `hint_del` with an address
removes a pair, and `hint_del` of a name alone removes every pair of the name.

The calls keep both views exact when the names they are given are in lower case
(`HintsInv.call`, run by `hintsRun_of_step`): each call answers as the relation says, and after
any run, from the empty module, an address is under a name in `hints` exactly when the pair is in
the relation, and so is the name under the reverse name of the address in `reverse_hints`. With an upper-case letter
the views part (`hintDel_mixed_case`): `add_pair` lower-cases the name and `del_pair` does not.

The argument rests on reverse names telling addresses apart (`addr2reverse_inj`): the labels of
`in-addr.arpa` names are decimal, read back by `Nat.ofDigitChars`, and those of `ip6.arpa` names
are the nibbles of the bytes.
-/

namespace KnotResolver.Hints

open Zonecut Generic Ta Straddr

/-! ## Reverse names determine their addresses -/

/-- The bytes of an ASCII label give its characters back. -/
theorem map_ofNat_asciiLabel {cs : List Char} (h : ∀ c ∈ cs, c.toNat < 256) :
    (asciiLabel cs).map (fun b => Char.ofNat b.toNat) = cs := by
  rw [asciiLabel, List.map_map]
  conv_rhs => rw [← List.map_id cs]
  apply List.map_congr_left
  intro c hc
  have hbyte : (UInt8.ofNat c.toNat).toNat = c.toNat := by
    simp [Nat.mod_eq_of_lt (h c hc)]
  simp only [Function.comp_apply, id_eq, Nat.toUInt8, hbyte]
  exact Char.ofNat_toNat c

theorem asciiLabel_inj {cs cs' : List Char} (h : ∀ c ∈ cs, c.toNat < 256)
    (h' : ∀ c ∈ cs', c.toNat < 256) (he : asciiLabel cs = asciiLabel cs') : cs = cs' := by
  rw [← map_ofNat_asciiLabel h, ← map_ofNat_asciiLabel h', he]

/-- The characters `%d` writes are ASCII digits. -/
theorem toNat_lt_of_mem_toDigits {n : Nat} {c : Char} (hc : c ∈ Nat.toDigits 10 n) :
    48 ≤ c.toNat ∧ c.toNat < 58 := by
  have hd := Nat.isDigit_of_mem_toDigits (by decide) (by decide) hc
  simp only [Char.isDigit, Bool.and_eq_true, decide_eq_true_eq] at hd
  exact ⟨hd.1, Nat.lt_succ_of_le hd.2⟩

theorem decimalLabel_inj {a b : Nat} (h : decimalLabel a = decimalLabel b) : a = b := by
  have hdigits : Nat.toDigits 10 a = Nat.toDigits 10 b :=
    asciiLabel_inj (fun c hc => by have := toNat_lt_of_mem_toDigits hc; omega)
      (fun c hc => by have := toNat_lt_of_mem_toDigits hc; omega) h
  rw [← Nat.ofDigitChars_ten_toDigits (n := a), hdigits, Nat.ofDigitChars_ten_toDigits]


/-- `%x` of a nibble is one character, and tells the nibbles apart. -/
theorem hexLabel_inj : ∀ a < 16, ∀ b < 16, hexLabel a = hexLabel b → a = b := by decide

/-- The two labels of a byte in an `ip6.arpa` name: its low nibble, then its high one. -/
def nibbleLabels (b : UInt8) : Dname := [hexLabel (b &&& 0x0f).toNat, hexLabel (b >>> 4).toNat]

theorem toNat_and_mask (b : UInt8) : (b &&& 0x0f).toNat = b.toNat % 16 := by
  rw [UInt8.toNat_and, show (0x0f : UInt8).toNat = 2 ^ 4 - 1 from rfl,
    Nat.and_two_pow_sub_one_eq_mod]

theorem toNat_shiftRight_four (b : UInt8) : (b >>> 4).toNat = b.toNat / 16 := by
  rw [UInt8.toNat_shiftRight, show (4 : UInt8).toNat % 8 = 4 from rfl, Nat.shiftRight_eq_div_pow]

theorem nibbleLabels_inj {b b' : UInt8} (h : nibbleLabels b = nibbleLabels b') : b = b' := by
  simp only [nibbleLabels, List.cons.injEq, and_true] at h
  have hb := b.toNat_lt
  have hb' := b'.toNat_lt
  -- both nibbles agree, and a byte is its two nibbles
  have hlo := hexLabel_inj _ (by rw [toNat_and_mask]; omega) _ (by rw [toNat_and_mask]; omega) h.1
  have hhi := hexLabel_inj _ (by rw [toNat_shiftRight_four]; omega) _
    (by rw [toNat_shiftRight_four]; omega) h.2
  rw [toNat_and_mask, toNat_and_mask] at hlo
  rw [toNat_shiftRight_four, toNat_shiftRight_four] at hhi
  apply UInt8.toNat_inj.mp
  omega

theorem flatten_map_nibbleLabels_inj :
    ∀ {xs ys : List UInt8}, (xs.map nibbleLabels).flatten = (ys.map nibbleLabels).flatten → xs = ys
  | [], [], _ => rfl
  | [], _ :: _, h => by simp [nibbleLabels] at h
  | _ :: _, [], h => by simp [nibbleLabels] at h
  | x :: xs, y :: ys, h => by
    rw [List.map_cons, List.map_cons, List.flatten_cons, List.flatten_cons] at h
    -- each byte gives two labels
    obtain ⟨hxy, hrest⟩ := List.append_inj h rfl
    rw [nibbleLabels_inj hxy, flatten_map_nibbleLabels_inj hrest]

/-- A loop of `some`s reads its whole list. -/
theorem mapM_eq_some {α β : Type} {f : α → Option β} {h : α → β} :
    ∀ {l : List α}, (∀ a ∈ l, f a = some (h a)) → l.mapM f = some (l.map h)
  | [], _ => rfl
  | a :: l, hf => by
    rw [List.mapM_cons, hf a List.mem_cons_self,
      mapM_eq_some fun b hb => hf b (List.mem_cons_of_mem a hb)]
    rfl

theorem map_getD_range (raw : List UInt8) : (List.range raw.length).map (raw.getD · 0) = raw := by
  apply List.ext_getElem (by simp)
  intro i h₁ h₂
  rw [List.getElem_map, List.getElem_range, List.getD_eq_getElem _ _ h₂]

/-- The reverse name of an IPv6 address: the nibble labels of its bytes, last byte first. -/
theorem rawAddr2reverse_inet6 {raw : List UInt8} (h : raw.length = 16) :
    rawAddr2reverse raw .inet6 = some ((raw.reverse.map nibbleLabels).flatten ++ ip6Arpa) := by
  have hsome : ∀ i ∈ (List.range 16).reverse,
      raw[i]?.map nibbleLabels = some (nibbleLabels (raw.getD i 0)) := by
    intro i hi
    have hi' : i < raw.length := by simp at hi; omega
    rw [List.getElem?_eq_getElem hi', Option.map_some, List.getD_eq_getElem _ _ hi']
  have hread : ((List.range 16).reverse.mapM fun i => raw[i]?.map nibbleLabels) =
      some (raw.reverse.map nibbleLabels) := by
    rw [mapM_eq_some hsome, ← h]
    congr 1
    -- the indices, last first, read the bytes in reverse
    conv_rhs => rw [← map_getD_range raw]
    rw [List.map_reverse, List.map_reverse, List.map_map]
    rfl
  show (do
    let labels ← (List.range 16).reverse.mapM fun i => raw[i]?.map nibbleLabels
    return labels.flatten ++ ip6Arpa) = _
  rw [hread]
  rfl


/-- An address as `inet_pton` leaves it: 4 or 16 bytes. -/
def ValidAddr (a : List UInt8) : Prop := a.length = 4 ∨ a.length = 16

instance (a : List UInt8) : Decidable (ValidAddr a) := inferInstanceAs (Decidable (_ ∨ _))

theorem addr2reverse_inet (b0 b1 b2 b3 : UInt8) :
    addr2reverse [b0, b1, b2, b3] = some ([decimalLabel b3.toNat, decimalLabel b2.toNat,
      decimalLabel b1.toNat, decimalLabel b0.toNat] ++ inAddrArpa) := rfl

theorem addr2reverse_inet6 {a : List UInt8} (h : a.length = 16) :
    addr2reverse a = some ((a.reverse.map nibbleLabels).flatten ++ ip6Arpa) := by
  rw [addr2reverse, addrFamily, if_neg (by omega), rawAddr2reverse_inet6 h]

theorem length_flatten_map_nibbleLabels (a : List UInt8) :
    (a.map nibbleLabels).flatten.length = 2 * a.length := by
  induction a with
  | nil => rfl
  | cons b a ih =>
    rw [List.map_cons, List.flatten_cons, List.length_append, ih, List.length_cons]
    simp only [nibbleLabels, List.length_cons, List.length_nil]
    omega

/-- An IPv4 reverse name has six labels and an IPv6 one thirty-four. -/
theorem length_of_addr2reverse {a : List UInt8} (ha : ValidAddr a) {k : Dname}
    (hk : addr2reverse a = some k) : k.length = if a.length = 4 then 6 else 34 := by
  rcases ha with ha | ha
  · obtain ⟨b0, b1, b2, b3, rfl⟩ := List.length_eq_four.mp ha
    rw [addr2reverse_inet] at hk
    rw [← Option.some.inj hk]
    rfl
  · rw [addr2reverse_inet6 ha] at hk
    rw [← Option.some.inj hk, if_neg (by omega)]
    simp only [List.length_append, length_flatten_map_nibbleLabels, List.length_reverse, ha,
      ip6Arpa, List.length_cons, List.length_nil]

/-- Reverse names tell valid addresses apart: the two families differ in length, and within a
family the labels give the bytes back. -/
theorem addr2reverse_inj {a a' : List UInt8} (ha : ValidAddr a) (ha' : ValidAddr a') {k : Dname}
    (hk : addr2reverse a = some k) (hk' : addr2reverse a' = some k) : a = a' := by
  have hlen := (length_of_addr2reverse ha hk).symm.trans (length_of_addr2reverse ha' hk')
  rcases ha with ha | ha <;> rcases ha' with ha' | ha'
  · obtain ⟨b0, b1, b2, b3, rfl⟩ := List.length_eq_four.mp ha
    obtain ⟨c0, c1, c2, c3, rfl⟩ := List.length_eq_four.mp ha'
    rw [addr2reverse_inet, ← hk', addr2reverse_inet] at hk
    simp only [Option.some.injEq, List.cons_append, List.cons.injEq] at hk
    obtain ⟨h3, h2, h1, h0, -⟩ := hk
    -- each decimal label gives its byte back
    have hbyte : ∀ {x y : UInt8}, decimalLabel x.toNat = decimalLabel y.toNat → x = y :=
      fun h => UInt8.toNat_inj.mp (decimalLabel_inj h)
    rw [hbyte h0, hbyte h1, hbyte h2, hbyte h3]
  · rw [if_pos ha, if_neg (by omega)] at hlen
    omega
  · rw [if_neg (by omega), if_pos ha'] at hlen
    omega
  · rw [addr2reverse_inet6 ha, ← hk', addr2reverse_inet6 ha'] at hk
    have hflat := List.append_cancel_right (Option.some.inj hk)
    exact List.reverse_inj.mp (flatten_map_nibbleLabels_inj hflat)


/-! ## Reverse names are valid names -/

/-- The label `%d` writes for a number below 1000: one to three ASCII digits. -/
theorem validLabel_decimalLabel {n : Nat} (hn : n < 1000) :
    0 < (decimalLabel n).length ∧ (decimalLabel n).length ≤ 63 ∧ ∀ b ∈ decimalLabel n, b ≠ 0 := by
  have hlen : (decimalLabel n).length = (Nat.toDigits 10 n).length := List.length_map _
  refine ⟨?_, ?_, ?_⟩
  · rw [hlen]
    exact List.length_pos_iff.mpr Nat.toDigits_ne_nil
  · have := Nat.toDigits_length 10 n 3 (by decide) hn
    omega
  · intro b hb h0
    obtain ⟨c, hc, rfl⟩ := List.mem_map.mp hb
    -- a digit's byte is its code, at least `'0'`
    have hd := toNat_lt_of_mem_toDigits hc
    have hcode := congrArg UInt8.toNat h0
    simp only [Nat.toUInt8, UInt8.toNat_ofNat', Nat.mod_eq_of_lt (show c.toNat < 256 by omega),
      UInt8.toNat_zero] at hcode
    omega

theorem validLabel_hexLabel :
    ∀ n < 16, 0 < (hexLabel n).length ∧ (hexLabel n).length ≤ 63 ∧ 0 ∉ hexLabel n := by
  decide

theorem validName_append {n m : Dname} (hn : ValidName n) (hm : ValidName m) : ValidName (n ++ m) :=
  fun l hl => (List.mem_append.mp hl).elim (hn l) (hm l)

/-- The reverse name of a valid address is a valid name. -/
theorem validName_addr2reverse {a : List UInt8} (ha : ValidAddr a) {k : Dname}
    (hk : addr2reverse a = some k) : ValidName k := by
  rcases ha with ha | ha
  · obtain ⟨b0, b1, b2, b3, rfl⟩ := List.length_eq_four.mp ha
    rw [addr2reverse_inet] at hk
    rw [← Option.some.inj hk]
    refine validName_append (fun l hl => ?_) (by decide)
    simp only [List.mem_cons, List.not_mem_nil, or_false] at hl
    rcases hl with rfl | rfl | rfl | rfl <;>
      exact validLabel_decimalLabel (Nat.lt_trans (UInt8.toNat_lt _) (by decide))
  · rw [addr2reverse_inet6 ha] at hk
    rw [← Option.some.inj hk]
    refine validName_append (fun l hl => ?_) (by decide)
    obtain ⟨ls, hls, hl⟩ := List.mem_flatten.mp hl
    obtain ⟨b, -, rfl⟩ := List.mem_map.mp hls
    have hb := b.toNat_lt
    -- a nibble label is one hexadecimal digit
    have hhex : ∀ x < 16, 0 < (hexLabel x).length ∧ (hexLabel x).length ≤ 63 ∧
        ∀ c ∈ hexLabel x, c ≠ 0 := fun x hx => by
      obtain ⟨h1, h2, h3⟩ := validLabel_hexLabel x hx
      exact ⟨h1, h2, fun c hc h0 => h3 (h0 ▸ hc)⟩
    simp only [nibbleLabels, List.mem_cons, List.not_mem_nil, or_false] at hl
    rcases hl with rfl | rfl
    · exact hhex _ (by rw [toNat_and_mask]; omega)
    · exact hhex _ (by rw [toNat_shiftRight_four]; omega)

/-- Wire names tell valid names apart. -/
theorem knotDnameWire_inj {n n' : Dname} (hn : ValidName n) (hn' : ValidName n')
    (h : knotDnameWire n = knotDnameWire n') : n = n' :=
  mapKey_inj hn hn' (by rw [mapKey, mapKey, h])


/-! ## Names and addresses the calls are given -/

/-- A name as `knot_dname_from_str` leaves it, at most 255 bytes on the wire, in lower case. -/
def LowerName (n : Dname) : Prop :=
  ValidName n ∧ knotDnameToLower n = n ∧ (knotDnameWire n).length ≤ 255

instance (n : Dname) : Decidable (LowerName n) := inferInstanceAs (Decidable (_ ∧ _ ∧ _))

theorem LowerName.fits {n : Dname} (h : LowerName n) : DataFits (some (knotDnameWire n)) :=
  ⟨by simp [knotDnameWire], by have := h.2.2; omega⟩

theorem LowerName.wire_inj {n n' : Dname} (h : LowerName n) (h' : LowerName n') :
    knotDnameWire n = knotDnameWire n' ↔ n = n' :=
  ⟨knotDnameWire_inj h.1 h'.1, congrArg knotDnameWire⟩

theorem ValidAddr.fits {a : List UInt8} (h : ValidAddr a) : DataFits (some a) := by
  rcases h with h | h <;> exact ⟨by omega, by omega⟩

theorem ValidAddr.reverse {a : List UInt8} (h : ValidAddr a) : ∃ k, addr2reverse a = some k := by
  rcases h with h | h
  · obtain ⟨b0, b1, b2, b3, rfl⟩ := List.length_eq_four.mp h
    exact ⟨_, addr2reverse_inet b0 b1 b2 b3⟩
  · exact ⟨_, addr2reverse_inet6 h⟩

/-- The reverse keys of two valid addresses agree only for the same address. -/
theorem reverseKey_inj {a a' : List UInt8} (ha : ValidAddr a) (ha' : ValidAddr a') {k k' : Dname}
    (hk : addr2reverse a = some k) (hk' : addr2reverse a' = some k') :
    knotDnameWire k = knotDnameWire k' ↔ a = a' := by
  constructor
  · intro hw
    have hkk : k = k' :=
      knotDnameWire_inj (validName_addr2reverse ha hk) (validName_addr2reverse ha' hk') hw
    exact addr2reverse_inj ha ha' hk (hkk ▸ hk')
  · rintro rfl
    rw [Option.some.inj (hk.symm.trans hk')]

/-! ## Deleting a name from the reverse set -/

theorem nodup_delReverseMap {m : NssetMap} (h : m.Nodup) (key a : List UInt8) :
    (delReverseMap key m a).Nodup := by
  unfold delReverseMap
  cases rawAddr2reverse a (addrFamily a) with
  | none => exact h
  | some reverseKey => exact NssetOp.apply_nodup h (.del _ (some key))

/-- The name `key` leaves the reverse set of one address, and nothing else changes. -/
theorem mem_delReverseMap {m : NssetMap} (h : m.Nodup) (key a x K : List UInt8) :
    x ∈ ((delReverseMap key m a) K).getD [] ↔
      x ∈ (m K).getD [] ∧ ¬(x = key ∧ (addr2reverse a).map knotDnameWire = some K) := by
  unfold delReverseMap addr2reverse
  cases rawAddr2reverse a (addrFamily a) with
  | none => simp
  | some reverseKey =>
    dsimp only
    rw [NssetMap.getD_del]
    by_cases hK : K = knotDnameWire reverseKey
    · rw [if_pos hK, (h.getD _).mem_erase_iff, ← hK]
      simp only [Option.map_some, hK]
      tauto
    · rw [if_neg hK]
      simp only [Option.map_some, Option.some.injEq]
      have hK' : knotDnameWire reverseKey ≠ K := fun h => hK h.symm
      tauto

/-- The loop of `del_pair` over the addresses of a name, on the maps: the name leaves the reverse
set of each of them. The induction is on the addresses. -/
theorem mem_foldl_delReverseMap (key x K : List UInt8) :
    ∀ (addrs : List (List UInt8)) {m : NssetMap}, m.Nodup →
      (x ∈ ((addrs.foldl (delReverseMap key) m) K).getD [] ↔ x ∈ (m K).getD [] ∧
        ¬(x = key ∧ ∃ a ∈ addrs, (addr2reverse a).map knotDnameWire = some K))
  | [], m, _ => by simp
  | a :: addrs, m, h => by
    rw [List.foldl_cons, mem_foldl_delReverseMap key x K addrs (nodup_delReverseMap h key a),
      mem_delReverseMap h]
    simp only [List.mem_cons, exists_eq_or_imp]
    -- the name goes at the first address's reverse name, then at those of the rest
    constructor
    · rintro ⟨⟨hm, h₁⟩, h₂⟩
      refine ⟨hm, fun hx => ?_⟩
      rcases hx.2 with h | h
      · exact h₁ ⟨hx.1, h⟩
      · exact h₂ ⟨hx.1, h⟩
    · rintro ⟨hm, h⟩
      exact ⟨⟨hm, fun hx => h ⟨hx.1, .inl hx.2⟩⟩, fun hx => h ⟨hx.1, .inr hx.2⟩⟩

theorem nodup_foldl_delReverseMap (key : List UInt8) :
    ∀ (addrs : List (List UInt8)) {m : NssetMap}, m.Nodup →
      (addrs.foldl (delReverseMap key) m).Nodup
  | [], _, h => h
  | a :: addrs, _, h => nodup_foldl_delReverseMap key addrs (nodup_delReverseMap h key a)


/-! ## The relation the module stands for -/

/-- Which names have which addresses. -/
abbrev HintsRel := Set (Dname × List UInt8)

/-- The calls of the module that change its sets: `hint_set` of a pair, and `hint_del` of a pair
or of a whole name. -/
inductive HintOp where
  | set (name : Dname) (addr : List UInt8)
  | del (name : Dname) (addr : Option (List UInt8))

/-- A call with a name in lower case and valid addresses. -/
def HintOp.Valid : HintOp → Prop
  | .set name addr => LowerName name ∧ ValidAddr addr
  | .del name (some addr) => LowerName name ∧ ValidAddr addr
  | .del name none => LowerName name

instance (op : HintOp) : Decidable op.Valid :=
  match op with
  | .set _ _ => inferInstanceAs (Decidable (_ ∧ _))
  | .del _ (some _) => inferInstanceAs (Decidable (_ ∧ _))
  | .del _ none => inferInstanceAs (Decidable (LowerName _))

/-- The call on the module's data: its JSON boolean and the data it leaves. -/
def HintOp.call (data : HintsData) : HintOp → Option (Bool × HintsData)
  | .set name addr => hintSet data name addr
  | .del name addr => hintDel data name addr

/-- A sequence of calls. -/
def hintsRun (data : HintsData) : List HintOp → Option (List Bool × HintsData)
  | [] => some ([], data)
  | op :: ops => do
    let (b, data) ← op.call data
    let (bs, data) ← hintsRun data ops
    return (b :: bs, data)

/-- What a call does to the relation. -/
def HintOp.applyRel : HintOp → HintsRel → HintsRel
  | .set name addr, R => insert (name, addr) R
  | .del name (some addr), R => R \ {(name, addr)}
  | .del name none, R => {p ∈ R | p.1 ≠ name}

/-- What a call answers, by the relation before it: `hint_set` succeeds, and `hint_del` says
whether there was anything to delete. -/
def HintOp.Answer : HintOp → HintsRel → Bool → Prop
  | .set _ _, _, b => b = true
  | .del name (some addr), R, b => (b = true ↔ (name, addr) ∈ R)
  | .del name none, R, b => (b = true ↔ ∃ addr, (name, addr) ∈ R)

/-- The relation after a sequence of calls. -/
def relRun (ops : List HintOp) (R : HintsRel) : HintsRel := ops.foldl (fun R op => op.applyRel R) R

/-- The answers of a sequence of calls, each by the relation before it. -/
def Answers : List HintOp → HintsRel → List Bool → Prop
  | [], _, bs => bs = []
  | op :: ops, R, bs => ∃ b bs', bs = b :: bs' ∧ op.Answer R b ∧ Answers ops (op.applyRel R) bs'

/-- The forward map `fwd` and the reverse map `rev` are the two views of `R`, on the names in
lower case and the valid addresses; the lists hold no copies, no name of `fwd` has an empty list,
and `fwd` and `R` hold valid addresses only. -/
structure HintsInv (fwd rev : NssetMap) (R : HintsRel) : Prop where
  fwd_nodup : fwd.Nodup
  rev_nodup : rev.Nodup
  fwd_neNil : fwd.NeNil
  addrs_valid : ∀ ns a, a ∈ (fwd ns).getD [] → ValidAddr a
  rel_valid : ∀ p ∈ R, LowerName p.1 ∧ ValidAddr p.2
  forward : ∀ n a, LowerName n → ValidAddr a →
    (a ∈ (fwd (knotDnameWire n)).getD [] ↔ (n, a) ∈ R)
  reverse : ∀ n a k, LowerName n → ValidAddr a → addr2reverse a = some k →
    (knotDnameWire n ∈ (rev (knotDnameWire k)).getD [] ↔ (n, a) ∈ R)

theorem hintsInv_empty : HintsInv (fun _ => none) (fun _ => none) ∅ where
  fwd_nodup := fun _ _ h => (Option.some_ne_none _ h.symm).elim
  rev_nodup := fun _ _ h => (Option.some_ne_none _ h.symm).elim
  fwd_neNil := fun _ h => Option.some_ne_none _ h.symm
  addrs_valid := fun _ _ h => absurd h List.not_mem_nil
  rel_valid := fun _ h => absurd h (Set.notMem_empty _)
  forward := fun _ _ _ _ => ⟨fun h => absurd h List.not_mem_nil, fun h => absurd h (Set.notMem_empty _)⟩
  reverse := fun _ _ _ _ _ _ =>
    ⟨fun h => absurd h List.not_mem_nil, fun h => absurd h (Set.notMem_empty _)⟩


/-! ## Each call keeps the views -/

section Steps

variable {fwd rev : NssetMap} {R : HintsRel}

/-- `hint_set` of a pair: the address joins the name's list, and the name the list of the
address's reverse name. -/
theorem HintsInv.set (hinv : HintsInv fwd rev R) {n : Dname} {a : List UInt8} (hn : LowerName n)
    (ha : ValidAddr a) {k : Dname} (hk : addr2reverse a = some k) :
    HintsInv (fwd.add (knotDnameWire n) (some a))
      (rev.add (knotDnameWire k) (some (knotDnameWire n))) (insert (n, a) R) where
  fwd_nodup := NssetOp.apply_nodup hinv.fwd_nodup (.add _ _)
  rev_nodup := NssetOp.apply_nodup hinv.rev_nodup (.add _ _)
  fwd_neNil := hinv.fwd_neNil.add _ _
  addrs_valid := by
    intro ns x hx
    rw [NssetMap.getD_add] at hx
    split_ifs at hx with hns
    · rcases mem_packAdd.1 hx with hx | rfl
      · exact hinv.addrs_valid _ x hx
      · exact ha
    · exact hinv.addrs_valid ns x hx
  rel_valid := by
    intro p hp
    rcases Set.mem_insert_iff.1 hp with rfl | hp
    · exact ⟨hn, ha⟩
    · exact hinv.rel_valid p hp
  forward := by
    intro n' a' hn' ha'
    rw [NssetMap.getD_add, Set.mem_insert_iff, Prod.mk.injEq]
    by_cases hnn : n' = n
    · rw [hnn, if_pos rfl, mem_packAdd, hinv.forward n a' hn ha']
      tauto
    · rw [if_neg (mt (hn'.wire_inj hn).1 hnn), hinv.forward n' a' hn' ha']
      tauto
  reverse := by
    intro n' a' k' hn' ha' hk'
    rw [NssetMap.getD_add, Set.mem_insert_iff, Prod.mk.injEq]
    by_cases haa : a' = a
    · -- the reverse name of the address added
      rw [haa] at hk' ⊢
      rw [Option.some.inj (hk'.symm.trans hk), if_pos rfl, mem_packAdd,
        hinv.reverse n' a k hn' ha hk, hn'.wire_inj hn]
      tauto
    · rw [if_neg (mt (reverseKey_inj ha' ha hk' hk).1 haa), hinv.reverse n' a' k' hn' ha' hk']
      tauto

/-- `hint_del` of a pair: the address leaves the name's list, and the name the list of the
address's reverse name. -/
theorem HintsInv.delSome (hinv : HintsInv fwd rev R) {n : Dname} {a : List UInt8}
    (hn : LowerName n) (ha : ValidAddr a) {k : Dname} (hk : addr2reverse a = some k) :
    HintsInv (fwd.del (knotDnameWire n) (some a)).2
      (rev.del (knotDnameWire k) (some (knotDnameWire n))).2 (R \ {(n, a)}) where
  fwd_nodup := NssetOp.apply_nodup hinv.fwd_nodup (.del _ _)
  rev_nodup := NssetOp.apply_nodup hinv.rev_nodup (.del _ _)
  fwd_neNil := hinv.fwd_neNil.del _ _
  addrs_valid := by
    intro ns x hx
    rw [NssetMap.getD_del] at hx
    split_ifs at hx with hns
    · exact hinv.addrs_valid _ x (List.mem_of_mem_erase hx)
    · exact hinv.addrs_valid ns x hx
  rel_valid := fun p hp => hinv.rel_valid p hp.1
  forward := by
    intro n' a' hn' ha'
    rw [NssetMap.getD_del, Set.mem_sdiff, Set.mem_singleton_iff, Prod.mk.injEq]
    by_cases hnn : n' = n
    · rw [hnn, if_pos rfl, (hinv.fwd_nodup.getD _).mem_erase_iff, hinv.forward n a' hn ha']
      tauto
    · rw [if_neg (mt (hn'.wire_inj hn).1 hnn), hinv.forward n' a' hn' ha']
      tauto
  reverse := by
    intro n' a' k' hn' ha' hk'
    rw [NssetMap.getD_del, Set.mem_sdiff, Set.mem_singleton_iff, Prod.mk.injEq]
    by_cases haa : a' = a
    · rw [haa] at hk' ⊢
      rw [Option.some.inj (hk'.symm.trans hk), if_pos rfl, (hinv.rev_nodup.getD _).mem_erase_iff,
        hinv.reverse n' a k hn' ha hk, Ne, hn'.wire_inj hn]
      tauto
    · rw [if_neg (mt (reverseKey_inj ha' ha hk' hk).1 haa), hinv.reverse n' a' k' hn' ha' hk']
      tauto

/-- The forward map after `del_pair` of a whole name: the name has no list left. -/
theorem getD_delName (K ns : List UInt8) :
    ((if (fwd K).getD [] = [] then fwd else (fwd.delAll K).2) ns).getD [] =
      if ns = K then [] else (fwd ns).getD [] := by
  by_cases hnil : (fwd K).getD [] = []
  · rw [if_pos hnil]
    by_cases hns : ns = K
    · rw [if_pos hns, hns, hnil]
    · rw [if_neg hns]
  · rw [if_neg hnil, NssetMap.getD_delAll]

/-- The addresses of a name are those the relation pairs it with, and a reverse name is that of
one of them exactly when its address is. -/
theorem HintsInv.reverseKey_mem (hinv : HintsInv fwd rev R) {n : Dname} (hn : LowerName n)
    {a : List UInt8} (ha : ValidAddr a) {k : Dname} (hk : addr2reverse a = some k) :
    (∃ b ∈ (fwd (knotDnameWire n)).getD [],
      (addr2reverse b).map knotDnameWire = some (knotDnameWire k)) ↔ (n, a) ∈ R := by
  rw [← hinv.forward n a hn ha]
  constructor
  · rintro ⟨b, hb, hbk⟩
    have hbv := hinv.addrs_valid _ b hb
    obtain ⟨kb, hkb⟩ := hbv.reverse
    rw [hkb, Option.map_some, Option.some.injEq] at hbk
    rw [← (reverseKey_inj hbv ha hkb hk).1 hbk]
    exact hb
  · intro hmem
    exact ⟨a, hmem, by rw [hk, Option.map_some]⟩

/-- `hint_del` of a whole name: the name leaves the reverse lists of its addresses, and the
forward map. -/
theorem HintsInv.delName (hinv : HintsInv fwd rev R) {n : Dname} (hn : LowerName n) :
    HintsInv (if (fwd (knotDnameWire n)).getD [] = [] then fwd
        else (fwd.delAll (knotDnameWire n)).2)
      (((fwd (knotDnameWire n)).getD []).foldl (delReverseMap (knotDnameWire n)) rev)
      {p ∈ R | p.1 ≠ n} where
  fwd_nodup := by
    split_ifs
    · exact hinv.fwd_nodup
    · exact NssetOp.apply_nodup hinv.fwd_nodup (.delAll _)
  rev_nodup := nodup_foldl_delReverseMap _ _ hinv.rev_nodup
  fwd_neNil := by
    split_ifs
    · exact hinv.fwd_neNil
    · exact hinv.fwd_neNil.delAll _
  addrs_valid := by
    intro ns x hx
    rw [getD_delName] at hx
    split_ifs at hx
    · exact absurd hx List.not_mem_nil
    · exact hinv.addrs_valid ns x hx
  rel_valid := fun p hp => hinv.rel_valid p hp.1
  forward := by
    intro n' a' hn' ha'
    rw [getD_delName, Set.mem_ofPred_eq]
    by_cases hnn : n' = n
    · rw [if_pos (congrArg knotDnameWire hnn)]
      simp [hnn]
    · rw [if_neg (mt (hn'.wire_inj hn).1 hnn), hinv.forward n' a' hn' ha']
      tauto
  reverse := by
    intro n' a' k' hn' ha' hk'
    rw [mem_foldl_delReverseMap _ _ _ _ hinv.rev_nodup, hinv.reverse n' a' k' hn' ha' hk',
      hinv.reverseKey_mem hn ha' hk', hn'.wire_inj hn, Set.mem_ofPred_eq]
    by_cases hnn : n' = n
    · rw [hnn]
      tauto
    · tauto


/-- The forward list of a name in lower case holds exactly the addresses the relation pairs it
with, valid or not: both sides hold valid addresses only. -/
theorem HintsInv.mem_getD_iff (hinv : HintsInv fwd rev R) {n : Dname} (hn : LowerName n)
    (a : List UInt8) : a ∈ (fwd (knotDnameWire n)).getD [] ↔ (n, a) ∈ R :=
  ⟨fun hl => (hinv.forward n a hn (hinv.addrs_valid _ a hl)).1 hl,
    fun hR => (hinv.forward n a hn (hinv.rel_valid _ hR).2).2 hR⟩

/-- A name in lower case has addresses in the forward map exactly when the relation pairs it with
one. -/
theorem HintsInv.getD_ne_nil_iff (hinv : HintsInv fwd rev R) {n : Dname} (hn : LowerName n) :
    (fwd (knotDnameWire n)).getD [] ≠ [] ↔ ∃ a, (n, a) ∈ R := by
  rw [Ne, List.eq_nil_iff_forall_not_mem, not_forall_not]
  exact exists_congr (hinv.mem_getD_iff hn)

/-- What a valid call does, on the maps its data holds: `hint_set` adds the pair to both maps, and
`hint_del` deletes the pair, or the name, from both. -/
theorem HintOp.call_cases {data : HintsData} (h : HintsHolds data fwd rev) {op : HintOp}
    (hop : op.Valid) :
    (∃ n a k, op = .set n a ∧ LowerName n ∧ ValidAddr a ∧ addr2reverse a = some k ∧
      ∃ data', op.call data = some (true, data') ∧
        HintsHolds data' (fwd.add (knotDnameWire n) (some a))
          (rev.add (knotDnameWire k) (some (knotDnameWire n)))) ∨
    (∃ n a k, op = .del n (some a) ∧ LowerName n ∧ ValidAddr a ∧ addr2reverse a = some k ∧
      ∃ data', op.call data = some ((fwd.del (knotDnameWire n) (some a)).1 == 0, data') ∧
        HintsHolds data' (fwd.del (knotDnameWire n) (some a)).2
          (rev.del (knotDnameWire k) (some (knotDnameWire n))).2) ∨
    (∃ n, op = .del n none ∧ LowerName n ∧
      ∃ data', op.call data = some (decide ((fwd (knotDnameWire n)).getD [] ≠ []), data') ∧
        HintsHolds data'
          (if (fwd (knotDnameWire n)).getD [] = [] then fwd else (fwd.delAll (knotDnameWire n)).2)
          (((fwd (knotDnameWire n)).getD []).foldl (delReverseMap (knotDnameWire n)) rev)) := by
  cases op with
  | set n a =>
    obtain ⟨hn, ha⟩ := hop
    obtain ⟨k, hk⟩ := ha.reverse
    obtain ⟨data', hcall, h'⟩ := hintSet_spec h hk hn.fits ha.fits
    -- `add_pair` lower-cases the name, which is already in lower case
    rw [hn.2.1] at h'
    exact .inl ⟨n, a, k, rfl, hn, ha, hk, data', hcall, h'⟩
  | del n a =>
    cases a with
    | some a =>
      obtain ⟨hn, ha⟩ := hop
      obtain ⟨k, hk⟩ := ha.reverse
      obtain ⟨data', hcall, h'⟩ := hintDel_some_spec h hk hn.fits ha.fits
      exact .inr (.inl ⟨n, a, k, rfl, hn, ha, hk, data', hcall, h'⟩)
    | none =>
      obtain ⟨data', hcall, h'⟩ := hintDel_none_spec h (LowerName.fits hop)
      exact .inr (.inr ⟨n, rfl, hop, data', hcall, h'⟩)

/-- `hint_del` of a pair answers whether the relation held it. -/
theorem HintsInv.delSome_answer (hinv : HintsInv fwd rev R) {n : Dname} {a : List UInt8}
    (hn : LowerName n) (ha : ValidAddr a) :
    ((fwd.del (knotDnameWire n) (some a)).1 == 0) = true ↔ (n, a) ∈ R := by
  rw [beq_iff_eq, NssetMap.del_fst_eq_zero_iff _ _ _ (hinv.fwd_neNil _), hinv.forward n a hn ha]

/-- `hint_del` of a name answers whether the relation paired it with an address. -/
theorem HintsInv.delName_answer (hinv : HintsInv fwd rev R) {n : Dname} (hn : LowerName n) :
    decide ((fwd (knotDnameWire n)).getD [] ≠ []) = true ↔ ∃ a, (n, a) ∈ R := by
  rw [decide_eq_true_iff]
  exact hinv.getD_ne_nil_iff hn

/-- One valid call on data that holds two views of `R`: it answers as `R` says, and leaves data
that holds the two views of the relation after it. -/
theorem HintsInv.call {data : HintsData} (h : HintsHolds data fwd rev) (hinv : HintsInv fwd rev R)
    {op : HintOp} (hop : op.Valid) :
    ∃ b data' fwd' rev', op.call data = some (b, data') ∧ op.Answer R b ∧
      HintsHolds data' fwd' rev' ∧ HintsInv fwd' rev' (op.applyRel R) := by
  rcases HintOp.call_cases h hop with ⟨n, a, k, rfl, hn, ha, hk, data', hcall, h'⟩ |
    ⟨n, a, k, rfl, hn, ha, hk, data', hcall, h'⟩ | ⟨n, rfl, hn, data', hcall, h'⟩
  · exact ⟨true, data', _, _, hcall, rfl, h', hinv.set hn ha hk⟩
  · exact ⟨_, data', _, _, hcall, hinv.delSome_answer hn ha, h', hinv.delSome hn ha hk⟩
  · exact ⟨_, data', _, _, hcall, hinv.delName_answer hn, h', hinv.delName hn⟩

/-- The run rule, for any invariant `I` of the maps and the relation that each valid call keeps:
valid calls, one after another, answer as the relation says and keep `I`. -/
theorem hintsRun_of_step (I : NssetMap → NssetMap → HintsRel → Prop)
    (step : ∀ {data : HintsData} {fwd rev R} {op : HintOp}, HintsHolds data fwd rev → I fwd rev R →
      op.Valid → ∃ b data' fwd' rev', op.call data = some (b, data') ∧ op.Answer R b ∧
        HintsHolds data' fwd' rev' ∧ I fwd' rev' (op.applyRel R))
    (ops : List HintOp) (hops : ∀ op ∈ ops, op.Valid) {data : HintsData}
    (h : HintsHolds data fwd rev) (hinv : I fwd rev R) :
    ∃ bs data', hintsRun data ops = some (bs, data') ∧ Answers ops R bs ∧
      ∃ fwd' rev', HintsHolds data' fwd' rev' ∧ I fwd' rev' (relRun ops R) := by
  induction ops generalizing data fwd rev R with
  | nil => exact ⟨[], data, rfl, rfl, fwd, rev, h, hinv⟩
  | cons op ops ih =>
    obtain ⟨b, data1, fwd1, rev1, hcall, hans, h1, hinv1⟩ := step h hinv (hops op List.mem_cons_self)
    obtain ⟨bs, data', hrun, hanss, fwd', rev', h', hinv'⟩ :=
      ih (fun op' hop' => hops op' (List.mem_cons_of_mem _ hop')) h1 hinv1
    refine ⟨b :: bs, data', ?_, ⟨b, bs, rfl, hans, hanss⟩, fwd', rev', h', hinv'⟩
    simp only [hintsRun, hcall, hrun, Option.bind_eq_bind, Option.bind_some]
    rfl

end Steps

end KnotResolver.Hints
