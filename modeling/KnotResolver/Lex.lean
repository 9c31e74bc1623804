import Mathlib

/-!
# Lexicographic comparison and prefixes

Facts about `List.compareLex cmp` for a total comparison `cmp` (`Std.TransCmp` and
`Std.LawfulEqCmp`): a list compares below each of its proper extensions, a common prefix does not
change a comparison, and the extensions of a list form an interval, i.e. whatever lies between a
list and one of its extensions extends it too.

The interval lemma is what makes orders on hierarchical keys useful: when the key of a node is
the list of its ancestors' labels, a subtree is a contiguous range of keys. In a list sorted by
key, a search for the first key not below `p` followed by a walk while the keys extend `p` finds
every element whose key extends `p` (`takeWhile_dropWhile_eq_filter`).
-/

theorem Nat.compare_succ_succ (n m : Nat) : compare (n + 1) (m + 1) = compare n m := by
  rcases Nat.lt_trichotomy n m with h | rfl | h
  · rw [Nat.compare_eq_lt.2 h, Nat.compare_eq_lt.2 (Nat.succ_lt_succ h)]
  · rw [Nat.compare_eq_eq.2 rfl, Nat.compare_eq_eq.2 rfl]
  · rw [Nat.compare_eq_gt.2 h, Nat.compare_eq_gt.2 (Nat.succ_lt_succ h)]

namespace List

variable {α : Type u} {cmp : α → α → Ordering}

theorem compareLex_append_left [Std.ReflCmp cmp] (p a b : List α) :
    (p ++ a).compareLex cmp (p ++ b) = a.compareLex cmp b := by
  induction p with
  | nil => rfl
  | cons x p ih => simp [List.compareLex_cons_cons, Std.ReflCmp.compare_self, ih]

theorem compareLex_isLE_of_prefix [Std.ReflCmp cmp] {p x : List α} (h : p <+: x) :
    (p.compareLex cmp x).isLE := by
  obtain ⟨t, rfl⟩ := h
  have := @compareLex_append_left _ cmp _ p [] t
  rw [List.append_nil] at this
  rw [this]
  exact List.isLE_compareLex_nil_left

theorem compareLex_lt_of_prefix [Std.ReflCmp cmp] {p x : List α} (h : p <+: x) (hne : p ≠ x) :
    p.compareLex cmp x = .lt := by
  obtain ⟨t, rfl⟩ := h
  cases t with
  | nil => simp at hne
  | cons y t =>
    have := @compareLex_append_left _ cmp _ p [] (y :: t)
    rw [List.append_nil] at this
    rw [this]
    rfl

/-- The lexicographic comparison compares the first `min` elements, then the lengths: `memcmp`
over the shorter length followed by a test of the lengths computes it. -/
theorem compareLex_eq_take_then [Std.ReflCmp cmp] :
    ∀ a b : List α, a.compareLex cmp b =
      ((a.take (min a.length b.length)).compareLex cmp (b.take (min a.length b.length))).then
        (compare a.length b.length)
  | [], [] => rfl
  | [], _ :: _ => rfl
  | _ :: _, [] => rfl
  | x :: a, y :: b => by
    rw [List.compareLex_cons_cons, compareLex_eq_take_then a b, List.length_cons, List.length_cons,
      Nat.succ_min_succ, List.take_succ_cons, List.take_succ_cons, List.compareLex_cons_cons,
      Ordering.then_assoc, Nat.compare_succ_succ]

/-- Blocks of equal length compare first, then what follows them. -/
theorem compareLex_append_of_length_eq :
    ∀ {p q : List α} (x y : List α), p.length = q.length →
      (p ++ x).compareLex cmp (q ++ y) = (p.compareLex cmp q).then (x.compareLex cmp y)
  | [], [], _, _, _ => rfl
  | [], _ :: _, _, _, h => absurd h (by simp)
  | _ :: _, [], _, _, h => absurd h (by simp)
  | a :: p, b :: q, x, y, h => by
    rw [List.cons_append, List.cons_append, List.compareLex_cons_cons, List.compareLex_cons_cons,
      compareLex_append_of_length_eq x y (by simpa using h), Ordering.then_assoc]

/-- Writing each element as a block of one fixed length keeps the order, when the blocks compare
as their elements do. -/
theorem compareLex_flatMap {β : Type v} {cmp' : β → β → Ordering} {f : α → List β} {n : Nat}
    (hlen : ∀ x, (f x).length = n) (hf : ∀ x y, (f x).compareLex cmp' (f y) = cmp x y) :
    ∀ {l l' : List α}, l.length = l'.length →
      (l.flatMap f).compareLex cmp' (l'.flatMap f) = l.compareLex cmp l'
  | [], [], _ => rfl
  | [], _ :: _, h => absurd h (by simp)
  | _ :: _, [], h => absurd h (by simp)
  | x :: l, y :: l', h => by
    rw [List.flatMap_cons, List.flatMap_cons,
      compareLex_append_of_length_eq _ _ (by rw [hlen, hlen]), hf,
      compareLex_flatMap hlen hf (by simpa using h), List.compareLex_cons_cons]

/-- Whatever lies between a list and an extension of it is an extension of it too. -/
theorem prefix_of_compareLex_between [Std.TransCmp cmp] [Std.LawfulEqCmp cmp] :
    ∀ {p x z : List α}, p <+: z → (p.compareLex cmp x).isLE → (x.compareLex cmp z).isLE →
      p <+: x
  | [], _, _, _, _, _ => List.nil_prefix
  | _ :: _, [], _, _, hpx, _ => by simp [List.compareLex_cons_nil] at hpx
  | _ :: _, _ :: _, [], hpz, _, _ => by simp at hpz
  | a :: p, b :: x, c :: z, hpz, hpx, hxz => by
    obtain ⟨rfl, hpz'⟩ := List.cons_prefix_cons.mp hpz
    simp only [List.compareLex_cons_cons, Ordering.isLE_then_iff_and] at hpx hxz
    -- `a < b` would force `b < a` back through the right-hand comparison
    have hab : cmp a b = .eq := by
      rcases Ordering.isLE_iff_eq_lt_or_eq_eq.mp hpx.1 with hlt | heq
      · have hgt : cmp b a = .gt := Std.OrientedCmp.gt_of_lt hlt
        simp [hgt] at hxz
      · exact heq
    obtain rfl := Std.LawfulEqCmp.eq_of_compare hab
    have hba : cmp a a = .eq := Std.ReflCmp.compare_self
    have hpx' : (p.compareLex cmp x).isLE := hpx.2.resolve_left (by simp [hba])
    have hxz' : (x.compareLex cmp z).isLE := hxz.2.resolve_left (by simp [hba])
    exact List.cons_prefix_cons.mpr ⟨rfl, prefix_of_compareLex_between hpz' hpx' hxz'⟩

section Block

variable [Std.TransCmp cmp] [Std.LawfulEqCmp cmp] [BEq α] [LawfulBEq α] {γ : Type v}
  (key : γ → List α)

/-- In a list sorted by key whose keys are all at least `p`, the elements whose keys extend `p`
come first. -/
theorem takeWhile_prefix_eq_filter (p : List α) :
    ∀ {l : List γ}, l.Pairwise (fun a b => (key a).compareLex cmp (key b) = .lt) →
      (∀ q ∈ l, (p.compareLex cmp (key q)).isLE) →
      l.takeWhile (fun q => p.isPrefixOf (key q)) = l.filter (fun q => p.isPrefixOf (key q))
  | [], _, _ => rfl
  | q :: rest, hs, hge => by
    obtain ⟨hlt, hrest⟩ := List.pairwise_cons.1 hs
    rw [List.takeWhile_cons, List.filter_cons]
    by_cases hq : p.isPrefixOf (key q) = true
    · rw [if_pos hq, if_pos hq,
        takeWhile_prefix_eq_filter p hrest fun q' hq' => hge q' (mem_cons_of_mem _ hq')]
    · -- a later key extending `p` would put `key q` between `p` and it
      rw [if_neg hq, if_neg hq, eq_comm, List.filter_eq_nil_iff]
      intro q' hq' hpre
      have hbetween : ((key q).compareLex cmp (key q')).isLE := by rw [hlt q' hq']; rfl
      exact hq (List.isPrefixOf_iff_prefix.2 (prefix_of_compareLex_between
        (List.isPrefixOf_iff_prefix.1 hpre) (hge q mem_cons_self) hbetween))

/-- In a list sorted by key, the elements from the first whose key is not below `p` on, as long
as their keys extend `p`, are all those whose keys extend `p`. -/
theorem takeWhile_dropWhile_eq_filter (p : List α) :
    ∀ {l : List γ}, l.Pairwise (fun a b => (key a).compareLex cmp (key b) = .lt) →
      (l.dropWhile fun q => (key q).compareLex cmp p == .lt).takeWhile
          (fun q => p.isPrefixOf (key q)) = l.filter (fun q => p.isPrefixOf (key q))
  | [], _ => rfl
  | q :: rest, hs => by
    obtain ⟨hlt, hrest⟩ := List.pairwise_cons.1 hs
    rw [List.dropWhile_cons]
    by_cases hq : ((key q).compareLex cmp p == .lt) = true
    · -- a key below `p` does not extend it
      have hnot : p.isPrefixOf (key q) = false := by
        rw [Bool.eq_false_iff]
        intro hpre
        have hle : (p.compareLex cmp (key q)).isLE :=
          compareLex_isLE_of_prefix (List.isPrefixOf_iff_prefix.1 hpre)
        rw [@Std.OrientedCmp.eq_swap _ (List.compareLex cmp) _ p (key q), beq_iff_eq.1 hq] at hle
        exact absurd hle (by decide)
      rw [if_pos hq, List.filter_cons_of_neg (by simp [hnot]), takeWhile_dropWhile_eq_filter p hrest]
    · -- from the first key not below `p` on, every key is at least `p`
      rw [if_neg hq]
      have hpq : (p.compareLex cmp (key q)).isLE := by
        rw [@Std.OrientedCmp.eq_swap _ (List.compareLex cmp) _ p (key q)]
        cases hc : (key q).compareLex cmp p <;> simp_all
      apply takeWhile_prefix_eq_filter key p hs
      intro q' hq'
      rcases List.mem_cons.1 hq' with rfl | hq'
      · exact hpq
      · have hqq' : ((key q).compareLex cmp (key q')).isLE := by rw [hlt q' hq']; rfl
        exact Std.TransCmp.isLE_trans hpq hqq'

end Block

end List
