import KnotResolver.Lex

/-!
# Domain names

A domain name is the list of its labels, leftmost first, and a label the list of its bytes; the
root is the empty list. The functions below are the libknot name primitives the resolver calls
(`knot_dname_labels`, `knot_wire_next_label`, `knot_dname_cmp`, `knot_dname_in_bailiwick`,
`knot_dname_matched_labels`, `knot_dname_is_wildcard`, `knot_dname_to_lower`), with the
behaviour libknot documents for them: comparisons are byte-exact (libknot 2.7 and later) and
`knot_dname_cmp` is the canonical order of RFC 4034 section 6.1, which compares names label by
label from the right and labels as byte strings, a label sorting before its extensions.

Ancestry is the suffix relation of label lists: `a <:+ n` says that `a` is `n` or an ancestor of
`n`.
-/

namespace KnotResolver

/-- A label: its bytes, without the length octet. -/
abbrev Label := List UInt8

/-- A domain name: its labels, leftmost first; the root is `[]`. -/
abbrev Dname := List Label

/-- The label `*` of a wildcard name. -/
def asteriskLabel : Label := [0x2a]

/-- `knot_dname_labels`: the number of labels. -/
def knotDnameLabels (n : Dname) : Nat := n.length

/-- `knot_wire_next_label`: the name without its leftmost label (the parent). -/
def knotWireNextLabel (n : Dname) : Dname := n.tail

/-- `knot_dname_is_wildcard`: the leftmost label is `*`. -/
def knotDnameIsWildcard (n : Dname) : Bool := n.head? == some asteriskLabel

/-- `knot_dname_cmp`: canonical order, comparing from the rightmost label, each label as a byte
string (memcmp on the common length, then the shorter first). -/
def knotDnameCmp (a b : Dname) : Ordering :=
  List.compareLex (List.compareLex compare) a.reverse b.reverse

/-- libknot's `KNOT_EOUTOFZONE`; the resolver only tests its sign. -/
def knotEOutOfZone : Int := -1

/-- `knot_dname_in_bailiwick`: how many labels `name` lies below `bailiwick`, or a negative code
when it is not at or below it. -/
def knotDnameInBailiwick (name bailiwick : Dname) : Int :=
  if bailiwick.length ≤ name.length ∧ name.drop (name.length - bailiwick.length) = bailiwick then
    (name.length - bailiwick.length : Nat)
  else knotEOutOfZone

/-- The number of equal leading elements of two lists. -/
def commonPrefixLength : List Label → List Label → Nat
  | x :: xs, y :: ys => if x = y then commonPrefixLength xs ys + 1 else 0
  | _, _ => 0

/-- `knot_dname_matched_labels`: the number of equal labels counted from the right. -/
def knotDnameMatchedLabels (a b : Dname) : Nat := commonPrefixLength a.reverse b.reverse

/-- ASCII lower-casing of one byte, as `knot_tolower`. -/
def knotTolower (c : UInt8) : UInt8 := if 0x41 ≤ c ∧ c ≤ 0x5a then c + 0x20 else c

/-- `knot_dname_to_lower`. -/
def knotDnameToLower (n : Dname) : Dname := n.map (·.map knotTolower)

/-! ## The canonical order -/

/-- The byte-string order of labels, extended lexicographically to reversed names. -/
abbrev reversedCmp : List Label → List Label → Ordering := List.compareLex (List.compareLex compare)

instance : Std.ReflCmp knotDnameCmp where
  compare_self {a} := @Std.ReflCmp.compare_self _ reversedCmp _ a.reverse

instance : Std.OrientedCmp knotDnameCmp where
  eq_swap {a b} := @Std.OrientedCmp.eq_swap _ reversedCmp _ a.reverse b.reverse

instance : Std.TransCmp knotDnameCmp where
  isLE_trans {a b c} := @Std.TransCmp.isLE_trans _ reversedCmp _ a.reverse b.reverse c.reverse

instance : Std.LawfulEqCmp knotDnameCmp where
  eq_of_compare h := List.reverse_injective (Std.LawfulEqCmp.eq_of_compare h)

/-! ## Bailiwick and matched labels -/

theorem knotDnameInBailiwick_nonneg_iff {name bailiwick : Dname} :
    0 ≤ knotDnameInBailiwick name bailiwick ↔ bailiwick <:+ name := by
  unfold knotDnameInBailiwick knotEOutOfZone
  split
  · next hc =>
    refine ⟨fun _ => ?_, fun _ => by omega⟩
    rw [← hc.2]
    exact List.drop_suffix _ _
  · next hc =>
    refine ⟨fun h => by omega, fun h => absurd ⟨h.length_le, ?_⟩ hc⟩
    obtain ⟨t, rfl⟩ := h
    simp

theorem knotDnameInBailiwick_pos_iff {name bailiwick : Dname} :
    0 < knotDnameInBailiwick name bailiwick ↔ bailiwick <:+ name ∧ bailiwick ≠ name := by
  constructor
  · intro h
    have hs := knotDnameInBailiwick_nonneg_iff.mp (Int.le_of_lt h)
    refine ⟨hs, fun heq => ?_⟩
    subst heq
    simp [knotDnameInBailiwick] at h
  · rintro ⟨hs, hne⟩
    have hlen : bailiwick.length < name.length := by
      rcases Nat.lt_or_eq_of_le hs.length_le with hlt | heq
      · exact hlt
      · exact absurd (List.IsSuffix.eq_of_length hs heq) hne
    have hdrop : name.drop (name.length - bailiwick.length) = bailiwick := by
      obtain ⟨t, rfl⟩ := hs
      simp
    have hc : bailiwick.length ≤ name.length ∧
        name.drop (name.length - bailiwick.length) = bailiwick := ⟨Nat.le_of_lt hlen, hdrop⟩
    rw [knotDnameInBailiwick, if_pos hc]
    omega

end KnotResolver
