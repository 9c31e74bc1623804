import Mathlib

/-!
# Selection sort in place, with a companion array

The sort of an array of keys by selection, as C code writes it: round `i` finds the first
smallest key at `i` or after (`minIdxLoop`), and swaps it into place. A second array is swapped
in the same way, so each key stays beside the value it belongs to. The keys come out sorted, and
the pairs of a key and its value are a permutation of the pairs given (`selectSort_spec`). Values
past the keys are left alone.

The proof carries `SelectInv` through the rounds. After round `i`, the first `i + 1` keys are
sorted, and none of them is above a key after them. A swap inside the unsorted part is a swap
of a suffix (`swap_append_left`), and it permutes the pairs (`zip_swap`).
-/

namespace KnotResolver.Generic

open List

/-! ## Swaps -/

section Swap

variable {α γ : Type*}

/-- A swap at two positions past a prefix swaps inside the suffix. -/
theorem swap_append_left (p xs : List α) (i j : Nat) :
    (p ++ xs).swap (p.length + i) (p.length + j) = p ++ xs.swap i j := by
  induction p with
  | nil => simp
  | cons y p ih =>
    rw [List.cons_append, List.length_cons, Nat.add_right_comm, Nat.add_right_comm _ 1 j,
      List.swap_cons, ih]
    rfl

/-- Swapping two arrays at the same positions swaps their pairs. -/
theorem zip_swap {a : List α} {b : List γ} {i j : Nat} (hi : i < a.length) (hj : j < a.length)
    (hab : a.length ≤ b.length) : (a.swap i j).zip (b.swap i j) = (a.zip b).swap i j := by
  apply List.ext_getElem
  · simp only [List.length_zip, List.length_swap]
  · intro k h1 h2
    have hib : i < b.length := by omega
    have hjb : j < b.length := by omega
    -- the three arrays swap under the same conditions, `k = i` and `k = j`
    simp only [List.getElem_zip, List.getElem_swap, List.length_zip, Nat.min_eq_left hab, hi, hj,
      hib, hjb, and_true]
    split_ifs <;> rfl

/-- A swap before `n` leaves the elements from `n` on as they were. -/
theorem drop_swap {xs : List α} {i j n : Nat} (hi : i < n) (hj : j < n) :
    (xs.swap i j).drop n = xs.drop n := by
  apply List.ext_getElem
  · simp only [List.length_drop, List.length_swap]
  · intro k h1 h2
    rw [List.getElem_drop, List.getElem_drop, List.getElem_swap_of_ne (by omega) (by omega)]

/-- A list of at most one element is sorted. -/
theorem pairwise_of_length_le_one {R : α → α → Prop} :
    ∀ {l : List α}, l.length ≤ 1 → l.Pairwise R
  | [], _ => List.Pairwise.nil
  | [a], _ => List.pairwise_singleton R a
  | _ :: _ :: _, h => absurd h (by simp)

end Swap

/-! ## The loops -/

section Loops

variable {α β : Type*} [LinearOrder β] [Inhabited β]

/-- The inner loop: starting from `minI`, each index `j` in turn becomes the minimum when its key
is below the minimum's. -/
def minIdxLoop (keys : List β) : Nat → List Nat → Nat
  | minI, [] => minI
  | minI, j :: js =>
    minIdxLoop keys (if keys.getD j default < keys.getD minI default then j else minI) js

/-- Round `i` of the outer loop: the first smallest key from `i` on, up to `count`, is swapped
into `i`, in both arrays. -/
def selectRound (count : Nat) (st : List β × List α) (i : Nat) : List β × List α :=
  let minI := minIdxLoop st.1 i (List.range' (i + 1) (count - (i + 1)))
  if minI ≠ i then (st.1.swap minI i, st.2.swap minI i) else st

/-- The selection sort of the first `count` keys, with the values swapped beside them. -/
def selectSort (count : Nat) (keys : List β) (vals : List α) : List β × List α :=
  (List.range (count - 1)).foldl (selectRound count) (keys, vals)

/-- The loop returns its start or one of the indices it went over. -/
theorem minIdxLoop_mem (keys : List β) :
    ∀ (minI : Nat) (js : List Nat), minIdxLoop keys minI js ∈ minI :: js
  | minI, [] => List.mem_singleton_self minI
  | minI, j :: js => by
    rw [minIdxLoop]
    split_ifs
    · -- `j` became the minimum
      rcases List.mem_cons.1 (minIdxLoop_mem keys j js) with h | h
      · rw [h]
        exact List.mem_cons_of_mem _ List.mem_cons_self
      · exact List.mem_cons_of_mem _ (List.mem_cons_of_mem _ h)
    · rcases List.mem_cons.1 (minIdxLoop_mem keys minI js) with h | h
      · rw [h]
        exact List.mem_cons_self
      · exact List.mem_cons_of_mem _ (List.mem_cons_of_mem _ h)

/-- The key at the index the loop returns is at most every key it went over. -/
theorem minIdxLoop_le (keys : List β) :
    ∀ (minI : Nat) (js : List Nat), ∀ k ∈ minI :: js,
      keys.getD (minIdxLoop keys minI js) default ≤ keys.getD k default
  | minI, [], k, hk => by
    rw [List.mem_singleton.1 hk]
    exact le_refl _
  | minI, j :: js, k, hk => by
    rw [minIdxLoop]
    -- the new minimum is at most both the old one and `j`
    have hmin : keys.getD (if keys.getD j default < keys.getD minI default then j else minI)
          default ≤ keys.getD minI default ∧
        keys.getD (if keys.getD j default < keys.getD minI default then j else minI)
          default ≤ keys.getD j default := by
      split_ifs with h
      · exact ⟨le_of_lt h, le_refl _⟩
      · exact ⟨le_refl _, le_of_not_gt h⟩
    generalize (if keys.getD j default < keys.getD minI default then j else minI) = m at hmin ⊢
    have ih := minIdxLoop_le keys m js
    rcases List.mem_cons.1 hk with rfl | hk
    · exact le_trans (ih m List.mem_cons_self) hmin.1
    · rcases List.mem_cons.1 hk with rfl | hk
      · exact le_trans (ih m List.mem_cons_self) hmin.2
      · exact ih k (List.mem_cons_of_mem m hk)

/-- Round `i` always swaps: when the minimum is at `i`, the swap is the identity. -/
theorem selectRound_eq (count : Nat) (st : List β × List α) (i : Nat) :
    selectRound count st i =
      let minI := minIdxLoop st.1 i (List.range' (i + 1) (count - (i + 1)))
      (st.1.swap minI i, st.2.swap minI i) := by
  unfold selectRound
  dsimp only
  split_ifs with h
  · rfl
  · rw [Decidable.of_not_not h, List.swap_self, List.swap_self]

/-- The index round `i` picks lies in `[i, count)`, and its key is at most every key there. -/
theorem minIdxLoop_range (keys : List β) {count i : Nat} (hi : i < count) :
    let m := minIdxLoop keys i (List.range' (i + 1) (count - (i + 1)))
    i ≤ m ∧ m < count ∧
      ∀ k, i ≤ k → k < count → keys.getD m default ≤ keys.getD k default := by
  intro m
  have hmem : m ∈ i :: List.range' (i + 1) (count - (i + 1)) := minIdxLoop_mem keys _ _
  have hbound : i ≤ m ∧ m < count := by
    rcases List.mem_cons.1 hmem with h | h
    · rw [h]
      exact ⟨Nat.le_refl i, hi⟩
    · rw [List.mem_range'_1] at h
      omega
  refine ⟨hbound.1, hbound.2, fun k hik hk => minIdxLoop_le keys i _ k ?_⟩
  rcases Nat.eq_or_lt_of_le hik with rfl | hlt
  · exact List.mem_cons_self
  · exact List.mem_cons_of_mem _ (List.mem_range'_1.2 (by omega))

/-- Every key from `i` on is at least the key at the index round `i` picks. -/
theorem getD_le_of_mem_drop {keys : List β} {i m : Nat}
    (hmin : ∀ k, i ≤ k → k < keys.length → keys.getD m default ≤ keys.getD k default) :
    ∀ b ∈ keys.drop i, keys.getD m default ≤ b := by
  intro b hb
  obtain ⟨k, hk, rfl⟩ := List.mem_iff_getElem.1 hb
  rw [List.length_drop] at hk
  have h := hmin (i + k) (by omega) (by omega)
  rwa [@List.getD_eq_getElem?_getD _ keys (i + k) default, List.getElem?_eq_getElem (by omega),
    Option.getD_some, ← List.getElem_drop] at h

end Loops

/-! ## The rounds keep the invariant -/

/-- A property that each round keeps holds after the first `n` rounds. -/
theorem foldl_range_induction {γ : Type*} (f : γ → Nat → γ) (P : Nat → γ → Prop) {x : γ} :
    ∀ {n : Nat}, P 0 x → (∀ i y, i < n → P i y → P (i + 1) (f y i)) →
      P n ((List.range n).foldl f x)
  | 0, h0, _ => h0
  | n + 1, h0, hs => by
    rw [List.range_succ, List.foldl_append, List.foldl_cons, List.foldl_nil]
    exact hs n _ (Nat.lt_succ_self n)
      (foldl_range_induction f P h0 fun i y hi => hs i y (Nat.lt_succ_of_lt hi))

section Invariant

variable {α β : Type*} [LinearOrder β] (keys₀ : List β) (vals₀ : List α)

/-- What holds after the rounds before `i`: the pairs are those given, the values past the keys
are as they were, and the first `i` keys are sorted and at most every key after them. -/
structure SelectInv (i : Nat) (keys : List β) (vals : List α) : Prop where
  length_keys : keys.length = keys₀.length
  length_vals : vals.length = vals₀.length
  perm : (keys.zip vals).Perm (keys₀.zip vals₀)
  drop_vals : vals.drop keys₀.length = vals₀.drop keys₀.length
  sorted : (keys.take i).Pairwise (· ≤ ·)
  le_drop : ∀ a ∈ keys.take i, ∀ b ∈ keys.drop i, a ≤ b

theorem selectInv_zero : SelectInv keys₀ vals₀ 0 keys₀ vals₀ where
  length_keys := rfl
  length_vals := rfl
  perm := List.Perm.refl _
  drop_vals := rfl
  sorted := List.Pairwise.nil
  le_drop := fun _ ha => absurd ha List.not_mem_nil

variable {keys₀ vals₀} [Inhabited β]

/-- Round `i` puts the smallest key of the unsorted part at `i`. -/
theorem SelectInv.round (hlen : keys₀.length ≤ vals₀.length) {i : Nat} {keys : List β}
    {vals : List α} (inv : SelectInv keys₀ vals₀ i keys vals) (hi : i < keys₀.length) :
    SelectInv keys₀ vals₀ (i + 1) (selectRound keys₀.length (keys, vals) i).1
      (selectRound keys₀.length (keys, vals) i).2 := by
  rw [selectRound_eq]
  obtain ⟨him, hmc, hmin⟩ := minIdxLoop_range keys hi
  dsimp only
  generalize minIdxLoop keys i (List.range' (i + 1) (keys₀.length - (i + 1))) = m at him hmc hmin ⊢
  have hk := inv.length_keys
  rw [← hk] at hmin
  -- the swap happens inside the unsorted part, and brings its smallest key `y` to its head
  obtain ⟨y, t, hyt⟩ : ∃ y t, (keys.drop i).swap (m - i) 0 = y :: t :=
    List.exists_cons_of_ne_nil (List.ne_nil_of_length_pos (by
      rw [List.length_swap, List.length_drop]
      omega))
  have hswap : keys.swap m i = keys.take i ++ y :: t := by
    have h := swap_append_left (keys.take i) (keys.drop i) (m - i) 0
    rwa [List.take_append_drop, List.length_take, Nat.min_eq_left (by omega),
      Nat.add_sub_cancel' him, Nat.add_zero, hyt] at h
  have hy : y = keys.getD m default := by
    have h := congrArg (·[0]?) hyt
    simp only [List.getElem?_cons_zero] at h
    rw [List.getElem?_eq_getElem (by rw [List.length_swap, List.length_drop]; omega),
      List.getElem_swap_right_of_lt (by rw [List.length_drop]; omega), List.getElem_drop] at h
    rw [show m = i + (m - i) by omega, List.getD_eq_getElem?_getD,
      List.getElem?_eq_getElem (by omega), Option.getD_some]
    exact (Option.some.inj h).symm
  have hmem : ∀ b ∈ y :: t, b ∈ keys.drop i := fun b hb => by
    rw [← hyt] at hb
    exact (List.mem_swap _ _).1 hb
  have hyle : ∀ b ∈ keys.drop i, y ≤ b := hy ▸ getD_le_of_mem_drop hmin
  have htake : (keys.take i).length = i := by
    rw [List.length_take]
    omega
  -- after the swap, the sorted part is followed by `y`, then by the rest `t`
  have htake1 : (keys.take i ++ y :: t).take (i + 1) = keys.take i ++ [y] := by
    have h := @List.take_length_add_append _ (keys.take i) (y :: t) 1
    rw [htake] at h
    exact h
  have hdrop1 : (keys.take i ++ y :: t).drop (i + 1) = t := by
    have h := @List.drop_length_add_append _ (keys.take i) (y :: t) 1
    rw [htake] at h
    exact h
  have hv := inv.length_vals
  refine ⟨by rw [List.length_swap, hk], by rw [List.length_swap, hv], ?_, ?_, ?_, ?_⟩
  · rw [zip_swap (by omega) (by omega) (by omega)]
    exact (List.swap_perm _ _ _).trans inv.perm
  · rw [drop_swap hmc hi, inv.drop_vals]
  · -- the sorted part grows by `y`, which is at least every key before it
    rw [hswap, htake1]
    exact List.pairwise_append.2 ⟨inv.sorted, List.pairwise_singleton _ y,
      fun a ha b hb => List.mem_singleton.1 hb ▸ inv.le_drop a ha y (hmem y List.mem_cons_self)⟩
  · rw [hswap, htake1, hdrop1]
    intro a ha b hb
    rcases List.mem_append.1 ha with ha | ha
    · exact inv.le_drop a ha b (hmem b (List.mem_cons_of_mem y hb))
    · rw [List.mem_singleton.1 ha]
      exact hyle b (hmem b (List.mem_cons_of_mem y hb))

end Invariant

section Sorting

variable {α β : Type*} [LinearOrder β] [Inhabited β]

/-- The selection sort of all the keys: they come out sorted, the pairs of a key and its value are
a permutation of those given, and the values past the keys stay. -/
theorem selectSort_spec (keys : List β) (vals : List α) (hlen : keys.length ≤ vals.length) :
    let r := selectSort keys.length keys vals
    r.1.Pairwise (· ≤ ·) ∧ (r.1.zip r.2).Perm (keys.zip vals) ∧
      r.2.drop keys.length = vals.drop keys.length ∧ r.1.length = keys.length ∧
      r.2.length = vals.length := by
  intro r
  -- after the `keys.length - 1` rounds, at most one key is left unsorted
  have inv : SelectInv keys vals (keys.length - 1) r.1 r.2 :=
    foldl_range_induction (selectRound keys.length)
      (fun i st => SelectInv keys vals i st.1 st.2) (selectInv_zero keys vals)
      (fun i st hi h => h.round hlen (by omega))
  refine ⟨?_, inv.perm, inv.drop_vals, inv.length_keys, inv.length_vals⟩
  rw [← List.take_append_drop (keys.length - 1) r.1]
  exact List.pairwise_append.2 ⟨inv.sorted,
    pairwise_of_length_le_one (by rw [List.length_drop, inv.length_keys]; omega), inv.le_drop⟩

end Sorting

end KnotResolver.Generic
