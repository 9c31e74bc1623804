import KnotResolver.Cache.KeyOrder
import KnotResolver.Generic.TrieSpec

/-!
# Where a key lies in an NSEC range (`kwz_between` of `lib/cache/nsec1.c`)

`kwz_between(k1, k2, k4)` places the key `k2` of a name within the zone against the range from
the owner `k1` of an NSEC to its next name `k4`, an empty `k4` standing for the wrap-around to the
apex. It compares by `memcmp` over the shorter length and then by the lengths, which is the order
of the cache keys (`compareLex_eq_memcmp_then`).

Given `k1 < k4`, or the wrap-around, the six outcomes are exactly the six positions of `k2`
(`kwzBetween_some_iff`), except at the wrap-around with an empty `k2`: `kwz_between` answers that
`k2` lies below a nonempty `k1`, and never that it meets the empty high end
(`kwzBetween_wrap_empty`). With a NULL `k1`, as `find_leq_NSEC1` calls it, outcome 3 is exactly
"below the high end, or nonempty at the wrap-around" (`kwzBetween_none_iff`), so the range search
reports a covering NSEC exactly when the name lies strictly between its owner and its next name.
-/

namespace KnotResolver.Cache

open Generic

/-! ## `memcmp` and the key order -/

section Order

variable {a b c : List UInt8}

/-- The three tests `kwz_between` makes of two keys: `memcmp` over the shorter length, then the
lengths. -/
theorem compareLex_eq_memcmp_then (a b : List UInt8) :
    List.compareLex compare a b =
      (memcmp a b (min a.length b.length)).then (compare a.length b.length) :=
  List.compareLex_eq_take_then a b

theorem memcmp_eq_length_iff : memcmp a b (min a.length b.length) = .eq ∧ a.length = b.length ↔ a = b := by
  rw [← Nat.compare_eq_eq, ← Ordering.then_eq_eq, ← compareLex_eq_memcmp_then]
  exact Std.LawfulEqCmp.compare_eq_iff_eq

theorem memcmp_gt_iff :
    (memcmp a b (min a.length b.length) = .gt ∨
      (memcmp a b (min a.length b.length) = .eq ∧ a.length > b.length)) ↔
      List.compareLex compare b a = .lt := by
  rw [gt_iff_lt, ← Nat.compare_eq_gt, ← Ordering.then_eq_gt, ← compareLex_eq_memcmp_then]
  exact Std.OrientedCmp.gt_iff_lt

/-- Of two keys in order, the first is a prefix of the second exactly when `memcmp` finds them
equal over the shorter length. -/
theorem memcmp_eq_iff_prefix_of_lt (hlt : List.compareLex compare a b = .lt) :
    memcmp a b (min a.length b.length) = .eq ↔ a <+: b := by
  rw [compareLex_eq_memcmp_then, Ordering.then_eq_lt, Nat.compare_eq_lt] at hlt
  constructor
  · intro heq
    have hlen : a.length < b.length := by
      rcases hlt with h | h
      · rw [heq] at h
        cases h
      · exact h.2
    rw [memcmp, Nat.min_eq_left hlen.le, List.take_length] at heq
    rw [List.prefix_iff_eq_take]
    exact Std.LawfulEqCmp.compare_eq_iff_eq.1 heq
  · intro hpre
    rw [memcmp, Nat.min_eq_left hpre.length_le, List.take_length, ← List.prefix_iff_eq_take.1 hpre]
    exact Std.ReflCmp.compare_self

theorem compareLex_not_lt_nil (a : List UInt8) : List.compareLex compare a [] ≠ .lt := by
  cases a with
  | nil => exact nofun
  | cons x a => rw [List.compareLex_cons_nil]; exact nofun

theorem compareLex_lt_of_not_lt (hne : a ≠ b) (h : List.compareLex compare a b ≠ .lt) :
    List.compareLex compare b a = .lt := by
  cases hab : List.compareLex compare a b with
  | lt => exact absurd hab h
  | eq => exact absurd (Std.LawfulEqCmp.compare_eq_iff_eq.1 hab) hne
  | gt => exact Std.OrientedCmp.gt_iff_lt.1 hab

end Order

/-! ## `kwz_between` by positions -/

/-- The second half of `kwz_between` by the position of `k2` against `k4`. -/
theorem kwzBetweenHigh_eq (r : Nat) (k2 k4 : List UInt8) :
    kwzBetweenHigh r k2 k4 =
      if k4 = [] then (if k2 = [] then 4 else r)
      else if k2 = k4 then 4 else if List.compareLex compare k4 k2 = .lt then 5 else r := by
  rw [kwzBetweenHigh]
  by_cases h4 : k4 = []
  · rw [if_pos (List.length_eq_zero_iff.2 h4), if_pos h4]
    by_cases h2 : k2 = []
    · rw [if_neg (by simp [h2]), if_pos h2]
    · rw [if_pos (List.length_pos_iff.2 h2), if_neg h2]
  · rw [if_neg (mt List.length_eq_zero_iff.1 h4), if_neg h4]
    dsimp only
    by_cases heq : k2 = k4
    · rw [if_pos (memcmp_eq_length_iff.2 heq), if_pos heq]
    · rw [if_neg (mt memcmp_eq_length_iff.1 heq), if_neg heq]
      by_cases hgt : List.compareLex compare k4 k2 = .lt
      · rw [if_pos (memcmp_gt_iff.2 hgt), if_pos hgt]
      · rw [if_neg (mt memcmp_gt_iff.1 hgt), if_neg hgt]

/-- `kwz_between` with an owner `k1` below `k2`: the second half, answering 2 for an extension of
`k1` and 3 for any other key. -/
theorem kwzBetween_some_of_lt {k1 k2 : List UInt8} (hlt : List.compareLex compare k1 k2 = .lt)
    (k4 : List UInt8) :
    kwzBetween (some k1) k2 k4 = kwzBetweenHigh (if k1 <+: k2 then 2 else 3) k2 k4 := by
  rw [kwzBetween]
  rw [if_neg (mt memcmp_eq_length_iff.1 (ne_of_compareLex_lt hlt)),
    if_neg (mt memcmp_gt_iff.1 (Std.OrientedCmp.not_lt_of_lt hlt))]
  by_cases hpre : k1 <+: k2
  · rw [if_pos ((memcmp_eq_iff_prefix_of_lt hlt).2 hpre), if_pos hpre]
  · rw [if_neg (mt (memcmp_eq_iff_prefix_of_lt hlt).1 hpre), if_neg hpre]

theorem kwzBetween_some_eq_one {k1 k2 : List UInt8} (k4 : List UInt8) (h : k2 = k1) :
    kwzBetween (some k1) k2 k4 = 1 := by
  rw [kwzBetween]
  rw [if_pos (memcmp_eq_length_iff.2 h.symm)]

theorem kwzBetween_some_eq_zero {k1 k2 : List UInt8} (k4 : List UInt8)
    (h : List.compareLex compare k2 k1 = .lt) : kwzBetween (some k1) k2 k4 = 0 := by
  rw [kwzBetween]
  rw [if_neg (mt memcmp_eq_length_iff.1 (ne_of_compareLex_lt h).symm), if_pos (memcmp_gt_iff.2 h)]

/-! ## The six positions -/

section Positions

variable {k1 k2 k4 : List UInt8}

/-- Past the owner, the answer is one of the four positions against the high end. -/
theorem kwzBetween_some_above (h14 : k4 = [] ∨ List.compareLex compare k1 k4 = .lt)
    (hlt : List.compareLex compare k1 k2 = .lt) :
    (kwzBetween (some k1) k2 k4 = 2 ↔ k1 <+: k2 ∧ (k4 = [] ∨ List.compareLex compare k2 k4 = .lt)) ∧
    (kwzBetween (some k1) k2 k4 = 3 ↔ ¬k1 <+: k2 ∧ (k4 = [] ∨ List.compareLex compare k2 k4 = .lt)) ∧
    (kwzBetween (some k1) k2 k4 = 4 ↔ k4 ≠ [] ∧ k2 = k4) ∧
    (kwzBetween (some k1) k2 k4 = 5 ↔ k4 ≠ [] ∧ List.compareLex compare k4 k2 = .lt) := by
  have h2 : k2 ≠ [] := by
    rintro rfl
    exact compareLex_not_lt_nil k1 hlt
  rw [kwzBetween_some_of_lt hlt, kwzBetweenHigh_eq]
  by_cases h4 : k4 = []
  · -- the wrap-around: `k2` is nonempty, so the answer is the owner's
    rw [if_pos h4, if_neg h2]
    split_ifs <;> simp_all
  · have h14' := h14.resolve_left h4
    rw [if_neg h4]
    by_cases heq : k2 = k4
    · -- at the high end
      rw [if_pos heq]
      subst heq
      have hself : List.compareLex compare k2 k2 = .eq :=
        @Std.ReflCmp.compare_self _ (List.compareLex compare) _ k2
      simp [h4, hself]
    · rw [if_neg heq]
      by_cases hgt : List.compareLex compare k4 k2 = .lt
      · -- above the high end
        rw [if_pos hgt]
        have hnlt : List.compareLex compare k2 k4 ≠ .lt := Std.OrientedCmp.not_lt_of_lt hgt
        simp [h4, heq, hgt, hnlt]
      · have h24 := compareLex_lt_of_not_lt (Ne.symm heq) hgt
        rw [if_neg hgt]
        split_ifs <;> simp_all

end Positions

/-- `kwz_between` of a key against a range whose owner lies below its next name, or whose next
name is the wrap-around: below the owner, at it, extending it below the next name, between them,
at the next name, or above it. At the wrap-around, outcome 4 never comes from a real owner. -/
theorem kwzBetween_some_iff (k1 k2 k4 : List UInt8)
    (h14 : k4 = [] ∨ List.Lex (· < ·) k1 k4) :
    (kwzBetween (some k1) k2 k4 = 0 ↔ List.Lex (· < ·) k2 k1) ∧
    (kwzBetween (some k1) k2 k4 = 1 ↔ k2 = k1) ∧
    (kwzBetween (some k1) k2 k4 = 2 ↔
      k1 <+: k2 ∧ k1 ≠ k2 ∧ (k4 = [] ∨ List.Lex (· < ·) k2 k4)) ∧
    (kwzBetween (some k1) k2 k4 = 3 ↔
      List.Lex (· < ·) k1 k2 ∧ ¬k1 <+: k2 ∧ (k4 = [] ∨ List.Lex (· < ·) k2 k4)) ∧
    (kwzBetween (some k1) k2 k4 = 4 ↔ k4 ≠ [] ∧ k2 = k4) ∧
    (kwzBetween (some k1) k2 k4 = 5 ↔ k4 ≠ [] ∧ List.Lex (· < ·) k4 k2) := by
  simp only [← compareLex_eq_lt_iff_lex] at h14 ⊢
  by_cases h21 : k2 = k1
  · -- at the owner
    subst h21
    have hnlt : List.compareLex compare k2 k2 ≠ .lt := by
      rw [@Std.ReflCmp.compare_self _ (List.compareLex compare) _ k2]
      exact nofun
    rw [kwzBetween_some_eq_one k4 rfl]
    refine ⟨iff_of_false (by decide) hnlt, iff_of_true rfl rfl,
      iff_of_false (by decide) (fun h => h.2.1 rfl), iff_of_false (by decide) (fun h => hnlt h.1),
      iff_of_false (by decide) ?_, iff_of_false (by decide) ?_⟩
    · rintro ⟨h4, rfl⟩
      exact hnlt (h14.resolve_left h4)
    · rintro ⟨h4, h42⟩
      exact Std.OrientedCmp.not_lt_of_lt h42 (h14.resolve_left h4)
  · by_cases hlt21 : List.compareLex compare k2 k1 = .lt
    · -- below the owner
      have hnlt : List.compareLex compare k1 k2 ≠ .lt := Std.OrientedCmp.not_lt_of_lt hlt21
      have hnpre : ¬(k1 <+: k2 ∧ k1 ≠ k2) := fun h =>
        hnlt (List.compareLex_lt_of_prefix h.1 h.2)
      rw [kwzBetween_some_eq_zero k4 hlt21]
      refine ⟨iff_of_true rfl hlt21, iff_of_false (by decide) h21, iff_of_false (by decide) ?_,
        iff_of_false (by decide) (fun h => hnlt h.1), iff_of_false (by decide) ?_,
        iff_of_false (by decide) ?_⟩
      · exact fun h => hnpre ⟨h.1, h.2.1⟩
      · rintro ⟨h4, rfl⟩
        exact hnlt (h14.resolve_left h4)
      · rintro ⟨h4, h42⟩
        exact hnlt (Std.TransCmp.lt_trans (h14.resolve_left h4) h42)
    · -- above the owner
      have hlt := compareLex_lt_of_not_lt h21 hlt21
      obtain ⟨h2, h3, h4, h5⟩ := kwzBetween_some_above h14 hlt
      rw [kwzBetween_some_of_lt hlt k4] at h2 h3 h4 h5 ⊢
      have hne : kwzBetweenHigh (if k1 <+: k2 then 2 else 3) k2 k4 ≠ 0 ∧
          kwzBetweenHigh (if k1 <+: k2 then 2 else 3) k2 k4 ≠ 1 := by
        rw [kwzBetweenHigh_eq]
        split_ifs <;> decide
      refine ⟨iff_of_false hne.1 hlt21, iff_of_false hne.2 h21, ?_, ?_, h4, h5⟩
      · rw [h2]
        exact ⟨fun h => ⟨h.1, Ne.symm h21, h.2⟩, fun h => ⟨h.1, h.2.2⟩⟩
      · rw [h3]
        exact ⟨fun h => ⟨hlt, h⟩, fun h => h.2⟩

/-- At the wrap-around, an empty key is placed below a nonempty owner, not at the empty high end. -/
theorem kwzBetween_wrap_empty : kwzBetween (some [0x61]) [] [] = 0 := by decide

/-- `kwz_between` with a NULL owner, as `find_leq_NSEC1` calls it. -/
theorem kwzBetween_none_iff (k2 k4 : List UInt8) :
    (kwzBetween none k2 k4 = 3 ↔ (k4 = [] ∧ k2 ≠ []) ∨ List.compareLex compare k2 k4 = .lt) ∧
    (kwzBetween none k2 k4 = 4 ↔ k2 = k4) ∧
    (kwzBetween none k2 k4 = 5 ↔ k4 ≠ [] ∧ List.compareLex compare k4 k2 = .lt) := by
  rw [kwzBetween, kwzBetweenHigh_eq]
  by_cases h4 : k4 = []
  · subst h4
    have hnlt : ∀ k : List UInt8, List.compareLex compare k [] ≠ .lt := compareLex_not_lt_nil
    by_cases h2 : k2 = [] <;> simp [h2, hnlt]
  · by_cases heq : k2 = k4
    · subst heq
      simp [h4, Std.ReflCmp.compare_self]
    · by_cases hgt : List.compareLex compare k4 k2 = .lt
      · have hnlt : List.compareLex compare k2 k4 ≠ .lt := Std.OrientedCmp.not_lt_of_lt hgt
        simp [h4, heq, hgt, hnlt]
      · have h24 := compareLex_lt_of_not_lt (Ne.symm heq) hgt
        simp [h4, heq, hgt, h24]

/-! ## The range check of `find_leq_NSEC1` -/

section RangeCheck

variable {cache : Cdb} {now : UInt32} {zname : Dname} {lf : List UInt8}

/-- Past the zone, the NSEC1 key holds the name's part of the lookup format, short of its last
byte. -/
theorem drop_keyNsec1_prefix_drop (zname : Dname) (lf : List UInt8) :
    (keyNsec1 zname lf).drop (keyNwzOff zname) <+: lf.drop (knotDnameLf zname).length := by
  unfold keyNsec1 keyNwzOff
  dsimp only
  split
  · exact List.nil_prefix
  split
  · next hlt =>
    have hlen : (lf.take (knotDnameLf zname).length ++ [0, 0x31]).length =
        (knotDnameLf zname).length + 2 := by
      simp only [List.length_append, List.length_take, List.length_cons, List.length_nil]
      omega
    rw [List.drop_left' hlen]
    exact List.dropLast_prefix _
  · next hge hle =>
    have hlen : (lf ++ [0, 0x31]).length ≤ (knotDnameLf zname).length + 2 := by
      simp only [List.length_append, List.length_cons, List.length_nil]
      omega
    rw [List.drop_eq_nil_of_le hlen]
    exact List.nil_prefix

/-- An NSEC found strictly below the key of a name, within the zone, has its owner below the name
within the zone. -/
theorem compareLex_drop_lt_of_readLeq {k : List UInt8} {v : CacheVal}
    (hread : cdbReadLeq cache (keyNsec1 zname lf) = .ok (1, k, v))
    (hzone : (keyNsec1 zname lf).take (keyNwzOff zname) = k.take (keyNwzOff zname)) :
    List.compareLex compare (k.drop (keyNwzOff zname)) (lf.drop (knotDnameLf zname).length) = .lt := by
  have hlt : List.compareLex compare k (keyNsec1 zname lf) = .lt := by
    rcases (cdbReadLeq_ok hread).2 with ⟨h, -⟩ | ⟨-, h, -⟩
    · exact absurd h (by decide)
    · exact h
  -- the zone's part, common to both keys, does not change the comparison
  have hk := List.take_append_drop (keyNwzOff zname) k
  have hkey := List.take_append_drop (keyNwzOff zname) (keyNsec1 zname lf)
  rw [← hk, ← hkey, hzone, List.compareLex_append_left] at hlt
  exact Std.TransCmp.lt_of_lt_of_isLE hlt
    (List.compareLex_isLE_of_prefix (drop_keyNsec1_prefix_drop zname lf))

/-- An inexact answer of `find_leq_NSEC1`, and its miss for a range that does not cover, both
come from the range check: an NSEC strictly below the key, within the zone, whose next name
decides the outcome. -/
theorem findLeqNsec1_range {key : List UInt8} {res : Except String LeqNsec1}
    (h : findLeqNsec1 cache now zname lf key = res)
    (hres : (∃ found, res = .ok found ∧ found.exactMatch = false) ∨
      res = .error "range search miss (!covers)") :
    ∃ k v e nx rest, cdbReadLeq cache key = .ok (1, k, v) ∧ v.entryH? = some e ∧
      e.rrs = nx :: rest ∧ keyNwzOff zname ≤ k.length ∧
      key.take (keyNwzOff zname) = k.take (keyNwzOff zname) ∧
      res = if kwzBetween none (lf.drop (knotDnameLf zname).length)
          ((krDnameLf (knotDnameToLower nx.knotNsecNext) false).drop (knotDnameLf zname).length) = 3
        then .ok ⟨e, false, k.drop (keyNwzOff zname),
          (krDnameLf (knotDnameToLower nx.knotNsecNext) false).drop (knotDnameLf zname).length,
          getNewTtl e now⟩
        else .error "range search miss (!covers)" := by
  -- every outcome before the range check is another error or an exact match
  have hother : ∀ msg, msg ≠ "range search miss (!covers)" → res ≠ .error msg := by
    rintro msg hmsg rfl
    rcases hres with ⟨found, hf, -⟩ | hf
    · cases hf
    · exact hmsg (Except.error.inj hf)
  have hinexact : ∀ found, res = .ok found → found.exactMatch = false := by
    rintro found rfl
    rcases hres with ⟨found', hf, hx⟩ | hf
    · cases hf
      exact hx
    · cases hf
  unfold findLeqNsec1 at h
  dsimp only at h
  split at h
  · exact absurd h.symm (hother _ (by decide))
  split at h
  · split at h
    · exact absurd h.symm (hother _ (by decide))
    · exact absurd h.symm (hother _ (by decide))
  next ret k v hread =>
    split at h
    · exact absurd h.symm (hother _ (by decide))
    next e he =>
      split at h
      · exact absurd h.symm (hother _ (by decide))
      split at h
      · exact absurd h.symm (hother _ (by decide))
      split at h
      · cases hinexact _ h.symm
      next hret =>
        have hr : ret = 1 := by
          rcases (cdbReadLeq_ok hread).2 with ⟨h0, -⟩ | ⟨h1, -⟩
          · exact absurd h0 hret
          · exact h1
        subst hr
        split at h
        · exact absurd h.symm (hother _ (by decide))
        next hzone =>
          split at h
          · exact absurd h.symm (hother _ (by decide))
          next nx rest hrrs =>
            obtain ⟨hlen, htake⟩ := not_not.1 hzone
            refine ⟨k, v, e, nx, rest, hread, he, hrrs, hlen, htake, ?_⟩
            -- the code tests the negation of the check
            rw [← h]
            exact ite_not _ _ _

/-- When `find_leq_NSEC1` answers with a range, the name lies strictly between the NSEC's owner
and its next name, the empty next name standing for the wrap-around. -/
theorem findLeqNsec1_covers {found : LeqNsec1}
    (h : findLeqNsec1 cache now zname lf (keyNsec1 zname lf) = .ok found)
    (hx : found.exactMatch = false) :
    List.compareLex compare found.kwzLow (lf.drop (knotDnameLf zname).length) = .lt ∧
      (found.kwzHigh = [] ∨
        List.compareLex compare (lf.drop (knotDnameLf zname).length) found.kwzHigh = .lt) := by
  obtain ⟨k, v, e, nx, rest, hread, -, -, -, htake, hres⟩ := findLeqNsec1_range h (.inl ⟨_, rfl, hx⟩)
  split at hres
  · next hcov =>
    cases hres
    refine ⟨compareLex_drop_lt_of_readLeq hread htake, ?_⟩
    rcases (kwzBetween_none_iff _ _).1.1 hcov with ⟨h4, -⟩ | hlt
    · exact .inl h4
    · exact .inr hlt
  · cases hres

/-- When `find_leq_NSEC1` misses for a range that does not cover, the NSEC's owner lies below the
name and its next name, a real one, at or below the name. -/
theorem findLeqNsec1_not_covers
    (h : findLeqNsec1 cache now zname lf (keyNsec1 zname lf) = .error "range search miss (!covers)") :
    ∃ k v e nx rest, cdbReadLeq cache (keyNsec1 zname lf) = .ok (1, k, v) ∧ v.entryH? = some e ∧
      e.rrs = nx :: rest ∧
      List.compareLex compare (k.drop (keyNwzOff zname)) (lf.drop (knotDnameLf zname).length) = .lt ∧
      (krDnameLf (knotDnameToLower nx.knotNsecNext) false).drop (knotDnameLf zname).length ≠ [] ∧
      List.compareLex compare (lf.drop (knotDnameLf zname).length)
        ((krDnameLf (knotDnameToLower nx.knotNsecNext) false).drop (knotDnameLf zname).length) ≠ .lt := by
  obtain ⟨k, v, e, nx, rest, hread, he, hrrs, -, htake, hres⟩ := findLeqNsec1_range h (.inr rfl)
  have hlow := compareLex_drop_lt_of_readLeq hread htake
  split at hres
  · cases hres
  · next hcov =>
    -- the name is nonempty, being above the owner, so only a high end at or below it misses
    have hne : lf.drop (knotDnameLf zname).length ≠ [] := by
      intro h0
      rw [h0] at hlow
      exact compareLex_not_lt_nil _ hlow
    have hncov := mt (kwzBetween_none_iff _ _).1.2 hcov
    refine ⟨k, v, e, nx, rest, hread, he, hrrs, hlow, fun h4 => hncov (.inl ⟨h4, hne⟩),
      fun hlt => hncov (.inr hlt)⟩

end RangeCheck

/-- `kwz_between` places a key by its six positions against an NSEC range whose owner lies below
its next name, or whose next name is the wrap-around; `find_leq_NSEC1` answers with a range
exactly when the name lies strictly between the owner and the next name. -/
theorem kwzBetween_classifies :
    (∀ k1 k2 k4 : List UInt8, (k4 = [] ∨ List.Lex (· < ·) k1 k4) →
      (kwzBetween (some k1) k2 k4 = 0 ↔ List.Lex (· < ·) k2 k1) ∧
      (kwzBetween (some k1) k2 k4 = 1 ↔ k2 = k1) ∧
      (kwzBetween (some k1) k2 k4 = 2 ↔
        k1 <+: k2 ∧ k1 ≠ k2 ∧ (k4 = [] ∨ List.Lex (· < ·) k2 k4)) ∧
      (kwzBetween (some k1) k2 k4 = 3 ↔
        List.Lex (· < ·) k1 k2 ∧ ¬k1 <+: k2 ∧ (k4 = [] ∨ List.Lex (· < ·) k2 k4)) ∧
      (kwzBetween (some k1) k2 k4 = 4 ↔ k4 ≠ [] ∧ k2 = k4) ∧
      (kwzBetween (some k1) k2 k4 = 5 ↔ k4 ≠ [] ∧ List.Lex (· < ·) k4 k2)) ∧
    (∀ (cache : Cdb) (now : UInt32) (zname : Dname) (lf : List UInt8) (found : LeqNsec1),
      findLeqNsec1 cache now zname lf (keyNsec1 zname lf) = .ok found →
      found.exactMatch = false →
      List.Lex (· < ·) found.kwzLow (lf.drop (knotDnameLf zname).length) ∧
        (found.kwzHigh = [] ∨ List.Lex (· < ·) (lf.drop (knotDnameLf zname).length) found.kwzHigh)) ∧
    (∀ (cache : Cdb) (now : UInt32) (zname : Dname) (lf : List UInt8),
      findLeqNsec1 cache now zname lf (keyNsec1 zname lf) = .error "range search miss (!covers)" →
      ∃ k v e nx rest, cdbReadLeq cache (keyNsec1 zname lf) = .ok (1, k, v) ∧
        v.entryH? = some e ∧ e.rrs = nx :: rest ∧
        List.Lex (· < ·) (k.drop (keyNwzOff zname)) (lf.drop (knotDnameLf zname).length) ∧
        (krDnameLf (knotDnameToLower nx.knotNsecNext) false).drop (knotDnameLf zname).length ≠ [] ∧
        ¬List.Lex (· < ·) (lf.drop (knotDnameLf zname).length)
          ((krDnameLf (knotDnameToLower nx.knotNsecNext) false).drop (knotDnameLf zname).length)) := by
  refine ⟨kwzBetween_some_iff, fun cache now zname lf found h hx => ?_, fun cache now zname lf h => ?_⟩
  · obtain ⟨hlow, hhigh⟩ := findLeqNsec1_covers h hx
    rw [compareLex_eq_lt_iff_lex] at hlow hhigh
    exact ⟨hlow, hhigh⟩
  · obtain ⟨k, v, e, nx, rest, hread, he, hrrs, hlow, hhigh, hnlt⟩ := findLeqNsec1_not_covers h
    rw [ne_eq, compareLex_eq_lt_iff_lex] at hnlt
    rw [compareLex_eq_lt_iff_lex] at hlow
    exact ⟨k, v, e, nx, rest, hread, he, hrrs, hlow, hhigh, hnlt⟩

/-- The NSEC of the apex `ex.`, whose next name is `b.ex.`, and the NSEC of `d.ex.`, cached at
time 0 for an hour: the NSEC of `b.ex.` is missing. -/
def rangeMissCache : Cdb where
  entries :=
    [ (keyNsec1 [[0x65, 0x78]] (krDnameLf [[0x65, 0x78]] false),
        .entry ⟨0, 3600, krRankSecure, false, false,
          [.nsec [[0x62], [0x65, 0x78]]
            [knotRrtypeNs, knotRrtypeSoa, knotRrtypeRrsig, knotRrtypeNsec]], [], none⟩),
      (keyNsec1 [[0x65, 0x78]] (krDnameLf [[0x64], [0x65, 0x78]] false),
        .entry ⟨0, 3600, krRankSecure, false, false,
          [.nsec [[0x65, 0x78]] [knotRrtypeA, knotRrtypeRrsig, knotRrtypeNsec]], [], none⟩) ]
  sorted := by decide

/-- An extension of the owner below the next name is outcome 2; the range search for `a.ex.` in
the cached `ex.` answers with the apex NSEC, whose owner lies below the name; and the range search
for `c.ex.` among the NSECs of `ex.` and `d.ex.` lands on the apex NSEC, whose next name `b.ex.`
is not above `c.ex.`, and misses. -/
theorem kwzBetween_classifies_aex :
    kwzBetween (some [0x61]) [0x61, 0x62] [0x62] = 2 ∧
      (∃ found, findLeqNsec1 entWildcardCache 100 [[0x65, 0x78]] (krDnameLf [[0x61], [0x65, 0x78]] false)
          (keyNsec1 [[0x65, 0x78]] (krDnameLf [[0x61], [0x65, 0x78]] false)) = .ok found ∧
        found.exactMatch = false ∧
        List.Lex (· < ·) found.kwzLow
          ((krDnameLf [[0x61], [0x65, 0x78]] false).drop (knotDnameLf [[0x65, 0x78]]).length)) ∧
      findLeqNsec1 rangeMissCache 100 [[0x65, 0x78]] (krDnameLf [[0x63], [0x65, 0x78]] false)
          (keyNsec1 [[0x65, 0x78]] (krDnameLf [[0x63], [0x65, 0x78]] false)) =
        .error "range search miss (!covers)" ∧
      ∃ k v e nx rest, cdbReadLeq rangeMissCache
          (keyNsec1 [[0x65, 0x78]] (krDnameLf [[0x63], [0x65, 0x78]] false)) = .ok (1, k, v) ∧
        v.entryH? = some e ∧ e.rrs = nx :: rest ∧
        List.Lex (· < ·) (k.drop (keyNwzOff [[0x65, 0x78]]))
          ((krDnameLf [[0x63], [0x65, 0x78]] false).drop (knotDnameLf [[0x65, 0x78]]).length) ∧
        (krDnameLf (knotDnameToLower nx.knotNsecNext) false).drop
          (knotDnameLf [[0x65, 0x78]]).length ≠ [] ∧
        ¬List.Lex (· < ·)
          ((krDnameLf [[0x63], [0x65, 0x78]] false).drop (knotDnameLf [[0x65, 0x78]]).length)
          ((krDnameLf (knotDnameToLower nx.knotNsecNext) false).drop
            (knotDnameLf [[0x65, 0x78]]).length) := by
  have hmiss : findLeqNsec1 rangeMissCache 100 [[0x65, 0x78]]
      (krDnameLf [[0x63], [0x65, 0x78]] false)
      (keyNsec1 [[0x65, 0x78]] (krDnameLf [[0x63], [0x65, 0x78]] false)) =
        .error "range search miss (!covers)" := rfl
  refine ⟨((kwzBetween_classifies.1 [0x61] [0x61, 0x62] [0x62] (.inr (by decide))).2.2.1).2
      ⟨by decide, by decide, .inr (by decide)⟩, ?_, hmiss,
    kwzBetween_classifies.2.2 rangeMissCache 100 [[0x65, 0x78]] _ hmiss⟩
  have hx : (findLeqNsec1 entWildcardCache 100 [[0x65, 0x78]] (krDnameLf [[0x61], [0x65, 0x78]] false)
      (keyNsec1 [[0x65, 0x78]] (krDnameLf [[0x61], [0x65, 0x78]] false))).toOption.map
        LeqNsec1.exactMatch = some false := rfl
  cases hf : findLeqNsec1 entWildcardCache 100 [[0x65, 0x78]] (krDnameLf [[0x61], [0x65, 0x78]] false)
      (keyNsec1 [[0x65, 0x78]] (krDnameLf [[0x61], [0x65, 0x78]] false)) with
  | error msg =>
    rw [hf] at hx
    cases hx
  | ok found =>
    rw [hf] at hx
    have hinexact : found.exactMatch = false := Option.some.inj hx
    exact ⟨found, rfl, hinexact, (kwzBetween_classifies.2.1 _ _ _ _ found hf hinexact).1⟩

end KnotResolver.Cache
