import Mathlib

/-!
# Arcs of a sorted cyclic chain

A strictly increasing list `l` (under a total comparison `cmp`) read as a cycle, each element
followed by the next one and the last by the first, cuts the order into arcs: the arc after
position `i` runs from `l[i]` to its successor `l[(i + 1) % l.length]`. `ArcContains cmp lo hi x`
is the membership test of such an arc as chains of signed denial records compute it: strictly
between `lo` and `hi` when `lo < hi`, and otherwise strictly above `lo` or strictly below `hi`.

The fact denial-of-existence arguments need is proved here: a value inside an arc is not an
element of the chain (`not_mem_of_arcContains`).
-/

namespace List

variable {β : Type u} {cmp : β → β → Ordering}

/-- `x` lies strictly inside the arc from `lo` to `hi` of a cyclic order. -/
def ArcContains (cmp : β → β → Ordering) (lo hi x : β) : Prop :=
  if cmp lo hi = .lt then cmp lo x = .lt ∧ cmp x hi = .lt else cmp lo x = .lt ∨ cmp x hi = .lt

instance (lo hi x : β) : Decidable (ArcContains cmp lo hi x) := by
  unfold ArcContains; infer_instance

/-- The element after position `i` of `l` read as a cycle. -/
def succAt (l : List β) (i : Nat) (hi : i < l.length) : β :=
  l.get ⟨(i + 1) % l.length, Nat.mod_lt _ (by omega)⟩

section Sorted

variable {l : List β}

theorem cmp_getElem_lt (hl : l.Pairwise (cmp · · = .lt)) {a b : Nat} (hab : a < b)
    (hb : b < l.length) : cmp l[a] l[b] = .lt :=
  List.pairwise_iff_getElem.mp hl a b (by omega) hb hab

variable [Std.TransCmp cmp]

theorem cmp_getElem_isLE (hl : l.Pairwise (cmp · · = .lt)) {a b : Nat} (hab : a ≤ b)
    (hb : b < l.length) : (cmp l[a] l[b]).isLE := by
  rcases Nat.lt_or_eq_of_le hab with h | rfl
  · simp [cmp_getElem_lt hl h hb]
  · exact Std.ReflCmp.isLE_rfl

/-- In a sorted list, an element strictly above `l[a]` sits at a later position. -/
theorem lt_index_of_cmp_lt (hl : l.Pairwise (cmp · · = .lt)) {a k : Nat} (ha : a < l.length)
    (hk : k < l.length) (h : cmp l[a] l[k] = .lt) : a < k := by
  by_contra hle
  have := cmp_getElem_isLE hl (Nat.le_of_not_lt hle) ha
  exact Std.OrientedCmp.not_isLE_of_lt h this

/-- The arc after position `i` starts and ends where the sorted order says: for `i + 1 < n`
it is the ordinary interval `(l[i], l[i + 1])`, and after the last element it wraps. -/
theorem arcContains_iff (hl : l.Pairwise (cmp · · = .lt)) {i : Nat} (hi : i < l.length) (x : β) :
    ArcContains cmp l[i] (succAt l i hi) x ↔
      if h : i + 1 < l.length then cmp l[i] x = .lt ∧ cmp x l[i + 1] = .lt
      else cmp l[i] x = .lt ∨ cmp x (l.get ⟨0, by omega⟩) = .lt := by
  unfold ArcContains succAt
  by_cases h : i + 1 < l.length
  · have hmod : (i + 1) % l.length = i + 1 := Nat.mod_eq_of_lt h
    simp only [hmod, List.get_eq_getElem, dif_pos h, cmp_getElem_lt hl (Nat.lt_succ_self i) h,
      if_true]
  · have hmod : (i + 1) % l.length = 0 := by
      rw [show i + 1 = l.length by omega, Nat.mod_self]
    have h0 : 0 < l.length := by omega
    have hwrap : cmp l[i] l[0] ≠ .lt := fun hlt =>
      absurd (lt_index_of_cmp_lt hl hi h0 hlt) (Nat.not_lt_zero i)
    simp only [hmod, List.get_eq_getElem, dif_neg h, if_neg hwrap]

/-- A value inside an arc of the chain is not an element of the chain. -/
theorem not_mem_of_arcContains (hl : l.Pairwise (cmp · · = .lt)) {i : Nat} (hi : i < l.length)
    {x : β} (h : ArcContains cmp l[i] (succAt l i hi) x) : x ∉ l := by
  intro hx
  obtain ⟨k, hk, rfl⟩ := List.mem_iff_getElem.mp hx
  rw [arcContains_iff hl hi] at h
  split at h
  · next hnext =>
    have h1 := lt_index_of_cmp_lt hl hi hk h.1
    have h2 := lt_index_of_cmp_lt hl hk hnext h.2
    omega
  · next hlast =>
    rcases h with h1 | h1
    · have := lt_index_of_cmp_lt hl hi hk h1
      omega
    · have := lt_index_of_cmp_lt hl hk (by omega) h1
      omega

end Sorted

end List
