import Mathlib

/-!
# Writing into a list of pairs sorted by key

A key-value store kept as a list of pairs strictly increasing in key under a total comparison
`cmp`. `List.upsert cmp k v l` writes `v` at `k`: it replaces the pair of key `k`, or inserts one
where the order puts it. The write keeps the list sorted, `lookup` then reads `v` at `k` and what
it read before at every other key, and each pair of the result is the new one or an old one.
-/

namespace List

variable {κ : Type u} {ν : Type v} {cmp : κ → κ → Ordering}

/-- Writes `v` at `k` into a list of pairs sorted by key. -/
def upsert (cmp : κ → κ → Ordering) (k : κ) (v : ν) : List (κ × ν) → List (κ × ν)
  | [] => [(k, v)]
  | p :: l =>
    match cmp k p.1 with
    | .lt => (k, v) :: p :: l
    | .eq => (k, v) :: l
    | .gt => p :: upsert cmp k v l

theorem mem_upsert {k : κ} {v : ν} {q : κ × ν} :
    ∀ {l : List (κ × ν)}, q ∈ l.upsert cmp k v → q = (k, v) ∨ q ∈ l
  | [], h => .inl (List.mem_singleton.1 h)
  | p :: l, h => by
    unfold upsert at h
    split at h
    · exact List.mem_cons.1 h
    · rcases List.mem_cons.1 h with h | h
      · exact .inl h
      · exact .inr (List.mem_cons_of_mem _ h)
    · rcases List.mem_cons.1 h with h | h
      · exact .inr (h ▸ List.mem_cons_self)
      · exact (mem_upsert h).imp_right (List.mem_cons_of_mem _)

theorem upsert_pairwise [Std.TransCmp cmp] {k : κ} {v : ν} :
    ∀ {l : List (κ × ν)}, l.Pairwise (fun a b => cmp a.1 b.1 = .lt) →
      (l.upsert cmp k v).Pairwise (fun a b => cmp a.1 b.1 = .lt)
  | [], _ => List.pairwise_singleton _ _
  | p :: l, hl => by
    obtain ⟨hp, hl⟩ := List.pairwise_cons.1 hl
    unfold upsert
    split
    next hlt =>
      refine List.Pairwise.cons (fun b hb => ?_) (List.Pairwise.cons hp hl)
      rcases List.mem_cons.1 hb with rfl | hb
      · exact hlt
      · exact Std.TransCmp.lt_trans hlt (hp b hb)
    next heq => exact List.Pairwise.cons (fun b hb => Std.TransCmp.lt_of_eq_of_lt heq (hp b hb)) hl
    next hgt =>
      refine List.Pairwise.cons (fun b hb => ?_) (upsert_pairwise hl)
      rcases mem_upsert hb with rfl | hb
      · exact Std.OrientedCmp.lt_of_gt hgt
      · exact hp b hb

section Lookup

variable [BEq κ] [LawfulBEq κ] [Std.LawfulEqCmp cmp]

theorem lookup_upsert_self (k : κ) (v : ν) :
    ∀ l : List (κ × ν), (l.upsert cmp k v).lookup k = some v
  | [] => List.lookup_cons_self
  | p :: l => by
    unfold upsert
    split
    · exact List.lookup_cons_self
    · exact List.lookup_cons_self
    next hgt =>
      have hne : (k == p.1) = false := by
        rw [beq_eq_false_iff_ne]
        intro h
        have heq : cmp k p.1 = .eq := Std.LawfulEqCmp.compare_eq_iff_eq.2 h
        rw [heq] at hgt
        cases hgt
      rw [List.lookup_cons, hne]
      exact lookup_upsert_self k v l

theorem lookup_upsert_of_ne {k k' : κ} (v : ν) (hne : k' ≠ k) :
    ∀ l : List (κ × ν), (l.upsert cmp k v).lookup k' = l.lookup k'
  | [] => by
    rw [upsert, List.lookup_cons, beq_eq_false_iff_ne.2 hne]
  | p :: l => by
    have hk : (k' == k) = false := beq_eq_false_iff_ne.2 hne
    unfold upsert
    split
    · rw [List.lookup_cons, hk]
    next heq =>
      have hp : k = p.1 := Std.LawfulEqCmp.compare_eq_iff_eq.1 heq
      rw [List.lookup_cons, hk, List.lookup_cons, ← hp, hk]
    · rw [List.lookup_cons, List.lookup_cons, lookup_upsert_of_ne v hne l]

/-- Dropping the pairs of key `k` leaves `k` absent and every other key as it was. -/
theorem lookup_filter_fst_ne (k k' : κ) :
    ∀ l : List (κ × ν), (l.filter (·.1 != k)).lookup k' = if k' == k then none else l.lookup k'
  | [] => by split <;> rfl
  | (a, b) :: l => by
    have ih := lookup_filter_fst_ne k k' l
    by_cases ha : a = k
    · -- the pair goes
      subst ha
      rw [List.filter_cons_of_neg (by simp), ih]
      split
      · rfl
      · next hne =>
        rw [Bool.not_eq_true] at hne
        rw [List.lookup_cons, hne]
    · rw [List.filter_cons_of_pos (by simpa using ha), List.lookup_cons, List.lookup_cons, ih]
      by_cases hk : k' = a
      · subst hk
        rw [beq_self_eq_true, beq_eq_false_iff_ne.2 ha]
        rfl
      · rw [beq_eq_false_iff_ne.2 hk]

end Lookup

section Framing

variable [Std.OrientedCmp cmp]

/-- A key absent from a sorted list is written where the order puts it. -/
theorem upsert_append_of_pairwise {k : κ} {v : ν} :
    ∀ {A B : List (κ × ν)}, (A ++ (k, v) :: B).Pairwise (fun a b => cmp a.1 b.1 = .lt) →
      (A ++ B).upsert cmp k v = A ++ (k, v) :: B
  | [], [], _ => rfl
  | [], p :: B, h => by
    have hlt : cmp k p.1 = .lt := List.rel_of_pairwise_cons h List.mem_cons_self
    rw [List.nil_append, upsert, hlt]
    rfl
  | a :: A, B, h => by
    obtain ⟨ha, h⟩ := List.pairwise_cons.1 h
    have hgt : cmp k a.1 = .gt := Std.OrientedCmp.gt_of_lt (ha (k, v) (by simp))
    rw [List.cons_append, upsert, hgt]
    exact congrArg (a :: ·) (upsert_append_of_pairwise h)

/-- A key present in a sorted list is overwritten in place. -/
theorem upsert_append_cons_of_pairwise [Std.ReflCmp cmp] {k : κ} {v v' : ν} :
    ∀ {A B : List (κ × ν)}, (A ++ (k, v') :: B).Pairwise (fun a b => cmp a.1 b.1 = .lt) →
      (A ++ (k, v') :: B).upsert cmp k v = A ++ (k, v) :: B
  | [], B, _ => by
    rw [List.nil_append, upsert, show cmp k (k, v').1 = .eq from Std.ReflCmp.compare_self]
    rfl
  | a :: A, B, h => by
    obtain ⟨ha, h⟩ := List.pairwise_cons.1 h
    have hgt : cmp k a.1 = .gt := Std.OrientedCmp.gt_of_lt (ha (k, v') (by simp))
    rw [List.cons_append, upsert, hgt]
    exact congrArg (a :: ·) (upsert_append_cons_of_pairwise h)

end Framing

end List
