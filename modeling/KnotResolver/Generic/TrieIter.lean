import KnotResolver.Generic.TrieOps

/-!
# Walking a well-formed qp-trie

An iterator is a stack: the path to a leaf and the leaf. `ns_first_leaf` goes down the first
twigs, so the leaves left of its path are those left of where it started; `ns_next_leaf` climbs
to the nearest branch with a twig on the right and goes down that twig, so the leaves right of
the new path are those right of the old one, less the new leaf. An iteration from
`trie_it_begin` thus reads the contents in twig order, which is key order (`trieItems_eq`), and
`trie_apply` calls its function on the values in that order (`trieApply_eq`).
-/

namespace KnotResolver.Generic

variable {α : Type u}

/-! ## The iterator -/

/-- `ns_first_leaf` reaches the first leaf below the node. -/
theorem nsFirstLeaf_spec {t : TrieNode α} (ht : t.Wf) :
    ∀ path : List (TrieFrame α), ∃ ext k v, nsFirstLeaf path t = some (ext ++ path, .leaf k v) ∧
      plugAll ext (.leaf k v) = t ∧ pathBefore ext = [] := by
  induction ht with
  | leaf k v => exact fun path => ⟨[], k, v, rfl, rfl, rfl⟩
  | @branch flags bitmap index twigs _ _ htwo _ _ ih =>
    intro path
    obtain ⟨t₀, ts, rfl⟩ :=
      List.exists_cons_of_ne_nil (List.ne_nil_of_length_pos (show 0 < twigs.length by omega))
    obtain ⟨ext, k, v, hf, hplug, hbefore⟩ :=
      ih t₀ List.mem_cons_self (⟨flags, bitmap, index, [], ts⟩ :: path)
    refine ⟨ext ++ [⟨flags, bitmap, index, [], ts⟩], k, v, ?_, ?_, ?_⟩
    · rw [nsFirstLeaf, hf, List.append_assoc]
      rfl
    · rw [plugAll_append, hplug]
      rfl
    · simp [pathBefore_append, hbefore, pathBefore]

/-- The leaves under a node whose first leaf is at the end of `ext`. -/
theorem leaves_of_first {ext : List (TrieFrame α)} {t : TrieNode α} {k : List UInt8}
    {v : Option α} (hplug : plugAll ext (.leaf k v) = t) (hbefore : pathBefore ext = []) :
    t.leaves = (k, v) :: pathAfter ext := by
  rw [← hplug, leaves_plugAll, hbefore]
  simp

/-- The climb of `ns_next_leaf` reaches the first leaf right of the current node, or finds
none left. -/
theorem nsNextUp_spec : ∀ {path : List (TrieFrame α)} {t : TrieNode α}, (plugAll path t).Wf →
    (pathAfter path = [] ∧ nsNextUp path t = some none) ∨
      ∃ path' k v, nsNextUp path t = some (some (path', .leaf k v)) ∧
        plugAll path' (.leaf k v) = plugAll path t ∧ (k, v) :: pathAfter path' = pathAfter path
  | [], _, _ => .inl ⟨rfl, rfl⟩
  | p :: path, t, h => by
    have h' : (plugAll path (p.plug t)).Wf := h
    have hp := TrieNode.Wf.of_plugAll h'
    have hcount := TrieNode.Wf.plug_weight hp
    rw [nsNextUp]
    cases hafter : p.after with
    | nil =>
      -- the last twig: climb on
      rw [if_neg (by rw [hcount, hafter]; simp)]
      have hnext := nsNextUp_spec h'
      simpa [pathAfter, hafter] using hnext
    | cons t' after =>
      -- the next twig on the right
      rw [if_pos (by rw [hcount, hafter]; simp)]
      dsimp only
      have ht' : t'.Wf := TrieNode.Wf.sub hp t' (by rw [hafter]; simp)
      obtain ⟨ext, k, v, hf, hplug, hbefore⟩ :=
        nsFirstLeaf_spec ht' (⟨p.flags, p.bitmap, p.index, p.before ++ [t], after⟩ :: path)
      refine .inr ⟨_, k, v, by rw [hf]; rfl, ?_, ?_⟩
      · rw [plugAll_append, hplug, plugAll_cons, plugAll_cons]
        simp [TrieFrame.plug, hafter]
      · simp [pathAfter_append, pathAfter, hafter, leaves_of_first hplug hbefore]

theorem trieItCollect_none (fuel : Nat) : trieItCollect fuel (none : TrieIt α) = some [] := by
  cases fuel <;> rfl

theorem trieItCollect_leaf (fuel : Nat) (path : List (TrieFrame α)) (k : List UInt8) (v : Option α) :
    trieItCollect (fuel + 1) (some (path, .leaf k v)) =
      (nsNextUp path (.leaf k v)).bind fun it =>
        (trieItCollect fuel it).bind fun rest => some ((k, v) :: rest) := rfl

/-- The iterator at a leaf reads it and every leaf right of it, given the fuel. -/
theorem trieItCollect_spec : ∀ (fuel : Nat) {path : List (TrieFrame α)} {k : List UInt8}
    {v : Option α}, (plugAll path (.leaf k v)).Wf → (pathAfter path).length < fuel →
    trieItCollect fuel (some (path, .leaf k v)) = some ((k, v) :: pathAfter path)
  | 0, _, _, _, _, hfuel => absurd hfuel (Nat.not_lt_zero _)
  | fuel + 1, path, k, v, h, hfuel => by
    rw [trieItCollect_leaf]
    rcases nsNextUp_spec h with ⟨hnil, hnext⟩ | ⟨path', k', v', hnext, hplug, hafter⟩
    · rw [hnext, Option.bind_some, trieItCollect_none, hnil]
      rfl
    · have hlen : (pathAfter path').length < fuel := by
        rw [← hafter, List.length_cons] at hfuel
        omega
      rw [hnext, Option.bind_some, trieItCollect_spec fuel (hplug ▸ h) hlen, hafter]
      rfl

/-- An iteration from `trie_it_begin` reads the contents: every key once, in key order. -/
theorem trieItems_eq {tbl : Trie α} (h : tbl.Wf) : trieItems tbl = some tbl.contents := by
  unfold trieItems trieItBegin
  by_cases hw : tbl.weight = 0
  · rw [if_pos hw, Trie.contents, if_pos hw, hw]
    rfl
  · rw [if_neg hw]
    obtain ⟨ext, k, v, hf, hplug, hbefore⟩ := nsFirstLeaf_spec (h.root hw) []
    rw [List.append_nil] at hf
    have hc : tbl.contents = (k, v) :: pathAfter ext := by
      rw [Trie.contents_of_weight_ne hw, leaves_of_first hplug hbefore]
    rw [hf]
    show trieItCollect tbl.weight (some (ext, .leaf k v)) = some tbl.contents
    rw [hc]
    exact trieItCollect_spec tbl.weight (hplug ▸ h.root hw) (by rw [h.weight_eq, hc]; simp)

/-! ## `trie_apply` -/

section Apply

variable {σ : Type v} (f : Option α → σ → Int × σ)

/-- `f` on each value in turn, stopping at the first error it returns. -/
def applyList : List (Option α) → σ → Int × σ
  | [], d => (knotEok, d)
  | v :: vs, d =>
    let r := f v d
    if r.1 ≠ knotEok then r else applyList vs r.2

theorem applyList_append (l₁ l₂ : List (Option α)) (d : σ) :
    applyList f (l₁ ++ l₂) d =
      let r := applyList f l₁ d
      if r.1 ≠ knotEok then r else applyList f l₂ r.2 := by
  induction l₁ generalizing d with
  | nil => simp [applyList]
  | cons v vs ih =>
    simp only [List.cons_append, applyList]
    by_cases hr : (f v d).1 ≠ knotEok
    · simp [hr]
    · simp only [hr, if_false]
      exact ih (f v d).2

mutual
theorem applyTrie_eq : ∀ (t : TrieNode α) (d : σ), applyTrie f t d = applyList f (t.leaves.map (·.2)) d
  | .leaf k v, d => by
    rw [applyTrie, TrieNode.leaves_leaf, List.map_singleton, applyList, applyList]
    by_cases hr : (f v d).1 ≠ knotEok
    · simp [hr]
    · simp only [hr, if_false]
      exact Prod.ext (not_not.1 hr) rfl
  | .branch _ _ _ twigs, d => by
    rw [applyTrie, TrieNode.leaves_branch, applyTwigs_eq twigs d]

theorem applyTwigs_eq : ∀ (ts : List (TrieNode α)) (d : σ),
    applyTwigs f ts d = applyList f ((TrieNode.leavesOf ts).map (·.2)) d
  | [], d => by
    rw [applyTwigs, TrieNode.leavesOf_nil]
    rfl
  | t :: ts, d => by
    rw [applyTwigs, TrieNode.leavesOf_cons, List.map_append, applyList_append, applyTrie_eq t d,
      applyTwigs_eq ts]
end

/-- `trie_apply` calls `f` on the values in key order, until it returns an error. -/
theorem trieApply_eq {tbl : Trie α} (d : σ) : trieApply tbl f d = applyList f (tbl.contents.map (·.2)) d := by
  unfold trieApply Trie.contents
  split
  · rfl
  · exact applyTrie_eq f tbl.root d

end Apply

end KnotResolver.Generic
