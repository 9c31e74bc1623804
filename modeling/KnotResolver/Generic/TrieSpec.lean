import KnotResolver.Generic.TrieIns
import KnotResolver.Generic.TrieIter

/-!
# The qp-trie is a sorted map

What a trie is for: a finite map from byte strings to value slots, kept as the list of its pairs
in key order. Each call of a run changes that list as `TrieOp.apply` says, and every call on a
well-formed trie gives a well-formed trie whose contents are the list changed so
(`trieStep_spec`). From `trie_create` the weight, the lookups, the iteration, `trie_apply` and
the first key all read the map a run builds (`trieRun_refines`). The key order is the
lexicographic order of unsigned bytes, where a proper prefix comes first.
-/

namespace KnotResolver.Generic

variable {α : Type u}

/-- The key order is the lexicographic order of unsigned bytes, a proper prefix first. -/
theorem compareLex_eq_lt_iff_lex : ∀ k k' : List UInt8,
    k.compareLex compare k' = .lt ↔ List.Lex (· < ·) k k'
  | [], [] => by
    rw [List.compareLex_nil_nil]
    exact ⟨nofun, nofun⟩
  | [], _ :: _ => ⟨fun _ => .nil, fun _ => List.compareLex_nil_cons⟩
  | _ :: _, [] => by
    rw [List.compareLex_cons_nil]
    exact ⟨nofun, nofun⟩
  | a :: as, b :: bs => by
    rw [List.compareLex_cons_cons, Ordering.then_eq_lt, Std.compare_eq_lt,
      compareLex_eq_lt_iff_lex as bs]
    constructor
    · rintro (hlt | ⟨heq, hl⟩)
      · exact .rel hlt
      · rw [Std.LawfulEqCmp.compare_eq_iff_eq.1 heq]
        exact .cons hl
    · intro h
      cases h with
      | cons h => exact .inr ⟨Std.ReflCmp.compare_self, h⟩
      | rel h => exact .inl h

/-! ## The map each call leaves -/

/-- A call on the map as the list of its pairs in key order: `trie_get_ins` adds an absent key
with no value, a write through its slot sets the key's value, `trie_del` drops the key,
`trie_del_first` the first pair and `trie_clear` all of them. -/
def TrieOp.apply : TrieOp α → List (List UInt8 × Option α) → List (List UInt8 × Option α)
  | .getIns key, m => if (m.lookup key).isSome then m else m.upsert (List.compareLex compare) key none
  | .set key val, m => m.upsert (List.compareLex compare) key val
  | .del key, m => m.filter (·.1 != key)
  | .delFirst, m => m.tail
  | .clear, _ => []

/-- The map a run of calls builds from the empty one. -/
def TrieOp.run (ops : List (TrieOp α)) : List (List UInt8 × Option α) :=
  ops.foldl (fun m op => op.apply m) []

theorem filter_key_ne_of_lookup {m : List (List UInt8 × Option α)} {key : List UInt8}
    (h : m.lookup key = none) : m.filter (·.1 != key) = m := by
  refine List.filter_eq_self.2 fun kv hkv => ?_
  have hne := List.lookup_eq_none_iff.1 h kv hkv
  rw [bne_iff_ne]
  intro heq
  simp [heq] at hne

/-- Every call on a well-formed trie succeeds, keeps it well formed and changes its contents as
the map changes. -/
theorem trieStep_spec {tbl : Trie α} (h : tbl.Wf) (op : TrieOp α) :
    ∃ tbl', trieStep tbl op = some tbl' ∧ tbl'.Wf ∧ tbl'.contents = op.apply tbl.contents := by
  cases op with
  | getIns key =>
    obtain ⟨tbl', slot, hget, hs⟩ := trieGetIns_spec h key
    refine ⟨tbl', by rw [trieStep, hget]; rfl, hs.wf, ?_⟩
    rw [TrieOp.apply]
    cases hl : tbl.contents.lookup key with
    | none =>
      rw [if_neg (by simp)]
      exact hs.of_lookup_none hl
    | some v =>
      rw [if_pos (show (some v).isSome = true from rfl), (hs.of_lookup hl).1]
  | set key val =>
    obtain ⟨tbl', slot, hget, hs⟩ := trieGetIns_spec h key
    obtain ⟨hwf, hc⟩ := hs.write h val
    exact ⟨_, by rw [trieStep, hget]; rfl, hwf, hc⟩
  | del key =>
    obtain ⟨r, hr, herr, hok⟩ := trieDel_spec h key
    cases r with
    | error e =>
      -- an absent key: `KNOT_ENOENT`, and the trie as it was
      obtain ⟨_, hnone⟩ := herr e rfl
      exact ⟨tbl, by rw [trieStep, hr]; rfl, h, (filter_key_ne_of_lookup hnone).symm⟩
    | ok r =>
      obtain ⟨_, hwf, hc⟩ := hok r.1 r.2 rfl
      exact ⟨r.1, by rw [trieStep, hr]; rfl, hwf, hc⟩
  | delFirst =>
    obtain ⟨r, hr, hnil, hcons⟩ := trieDelFirst_spec h false none
    cases hc : tbl.contents with
    | nil =>
      rw [hnil hc] at hr
      exact ⟨tbl, by rw [trieStep, hr]; rfl, h, hc⟩
    | cons kv rest =>
      rcases hcons kv.1 kv.2 rest hc with ⟨hk, _⟩ | ⟨hk, _⟩ | ⟨_, tbl', hr', hwf, hrest⟩
      · cases hk
      · cases hk
      · rw [hr'] at hr
        exact ⟨tbl', by rw [trieStep, hr]; rfl, hwf, hrest⟩
  | clear =>
    refine ⟨trieClear tbl, rfl, ?_, ?_⟩
    · unfold trieClear
      split
      · exact h
      · exact .inl rfl
    · unfold trieClear
      split
      · next hw => rw [TrieOp.apply, Trie.contents, if_pos hw]
      · rfl

theorem trieRun_spec : ∀ (ops : List (TrieOp α)) {tbl : Trie α}, tbl.Wf →
    ∃ tbl', trieRun tbl ops = some tbl' ∧ tbl'.Wf ∧
      tbl'.contents = ops.foldl (fun m op => op.apply m) tbl.contents
  | [], tbl, h => ⟨tbl, rfl, h, rfl⟩
  | op :: ops, tbl, h => by
    obtain ⟨tbl₁, hstep, hwf₁, hc₁⟩ := trieStep_spec h op
    obtain ⟨tbl', hrun, hwf, hc⟩ := trieRun_spec ops hwf₁
    refine ⟨tbl', by rw [trieRun, hstep, Option.bind_some, hrun], hwf, ?_⟩
    rw [hc, hc₁]
    rfl

theorem trieCreate_wf : (trieCreate : Trie α).Wf := .inl rfl

theorem trieCreate_contents : (trieCreate : Trie α).contents = [] := rfl

/-! ## What a run shows -/

/-- From `trie_create`, every run of calls leaves a trie that reads as the map the run builds:
its weight is the map's size and the map's keys ascend strictly; `trie_get_try` reads a key's
slot exactly when the key is present; `trie_get_ins` on a present key returns the key's slot and
the trie as it was; an iteration and `trie_apply` visit the pairs in key order; and
`trie_get_first` and `trie_del_first` take the first pair, the one of the least key. -/
theorem trieRun_refines (ops : List (TrieOp α)) :
    ∃ tbl, trieRun trieCreate ops = some tbl ∧
      trieWeight tbl = (TrieOp.run ops).length ∧
      (TrieOp.run ops).Pairwise (fun a b => List.Lex (· < ·) a.1 b.1) ∧
      (∀ key, trieGetTry tbl key = some ((TrieOp.run ops).lookup key)) ∧
      (∀ key v, (TrieOp.run ops).lookup key = some v → ∃ slot,
        trieGetIns tbl key = some (tbl, slot) ∧ slot.key = key ∧ slot.val = v ∧
          plugAll slot.path (.leaf key v) = tbl.root) ∧
      trieItems tbl = some (TrieOp.run ops) ∧
      (∀ (σ : Type) (f : Option α → σ → Int × σ) (d : σ),
        trieApply tbl f d = applyList f ((TrieOp.run ops).map (·.2)) d) ∧
      trieGetFirst tbl = some (TrieOp.run ops).head? ∧
      (TrieOp.run ops = [] → trieDelFirst tbl true (some 0) = some (.error knotEnoent)) ∧
      ∀ k v rest, TrieOp.run ops = (k, v) :: rest → ∀ room, k.length ≤ room →
        ∃ tbl', trieDelFirst tbl true (some room) = some (.ok (tbl', k, v)) ∧
          tbl'.contents = rest := by
  obtain ⟨tbl, hrun, h, hm⟩ := trieRun_spec ops (trieCreate_wf : (trieCreate : Trie α).Wf)
  rw [trieCreate_contents] at hm
  change tbl.contents = TrieOp.run ops at hm
  refine ⟨tbl, hrun, ?_, ?_, ?_, ?_, ?_, ?_, ?_, ?_, ?_⟩
  · rw [← hm]
    exact h.weight_eq
  · rw [← hm]
    exact h.pairwise.imp fun hlt => (compareLex_eq_lt_iff_lex _ _).1 hlt
  · intro key
    rw [← hm]
    exact trieGetTry_eq h key
  · intro key v hv
    rw [← hm] at hv
    obtain ⟨tbl', slot, hget, hs⟩ := trieGetIns_spec h key
    obtain ⟨rfl, hval⟩ := hs.of_lookup hv
    refine ⟨slot, hget, hs.key_eq, hval, ?_⟩
    rw [← hval]
    exact hs.plug
  · rw [← hm]
    exact trieItems_eq h
  · intro σ f d
    rw [← hm]
    exact trieApply_eq f d
  · rw [← hm]
    exact trieGetFirst_eq h
  · intro hnil
    obtain ⟨r, hr, hempty, _⟩ := trieDelFirst_spec h true (some 0)
    rw [hempty (hm.trans hnil)] at hr
    exact hr
  · intro k v rest hkv room hroom
    obtain ⟨r, hr, _, hcons⟩ := trieDelFirst_spec h true (some room)
    rcases hcons k v rest (hm.trans hkv) with
      ⟨_, hlen, _⟩ | ⟨_, ⟨room', hroom', hlt⟩, _⟩ | ⟨_, tbl', hr', _, hrest⟩
    · cases hlen
    · cases hroom'
      omega
    · exact ⟨tbl', hr' ▸ hr, hrest⟩

end KnotResolver.Generic
