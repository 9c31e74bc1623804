import KnotResolver.Generic.TrieSpec

/-!
# Predecessor search in a well-formed qp-trie

`trie_get_leq` finds the key, or else the greatest key below it. `ns_find_branch` leaves the stack
at the fork where the key leaves the trie (`TrieBranchPoint.Fork`); every branch above tests an
earlier position, so the leaves left of the path are below the key and those right of it are
above (`TrieNode.Wf.path_order`). At the fork the search goes into the twig before the key's and
down its last twigs (`ns_last_leaf`), or, with no twig before it, climbs to the nearest twig on the
left (`ns_prev_leaf`). Either way it reaches the last leaf below the key of a cut of the leaves
into those below the key and those above (`LeqCut`), which is what `leqLookup`, the search on the
map as a sorted list, reads off any such cut (`trieGetLeq_spec`).

The prefix leaf that `ns_prev_leaf` tries first is never taken from `trie_get_leq`: a branch it is
called on has no twig before the key's, so no twig for the end of a key unless the key ends there,
and then the key would have been found.
-/

namespace KnotResolver.Generic

variable {α : Type u}

/-! ## What the search is for -/

/-- The answer when the pairs below the key are `A`: the last of them with 1, or `KNOT_ENOENT`. -/
def leqLast (A : List (List UInt8 × Option α)) : Int × Option (List UInt8 × Option α) :=
  match A.getLast? with
  | some kv => (1, some kv)
  | none => (knotEnoent, none)

/-- What `trie_get_leq` is for, on the map as the list of its pairs in key order: the key's own
pair with 0, or else the last pair of a smaller key with 1, or `KNOT_ENOENT` when there is none. -/
def leqLookup (m : List (List UInt8 × Option α)) (key : List UInt8) :
    Int × Option (List UInt8 × Option α) :=
  match m.lookup key with
  | some v => (knotEok, some (key, v))
  | none => leqLast (m.filter fun kv => kv.1.compareLex compare key == .lt)

/-- Pairs cut at a key that none of them has: those below it, then those above. -/
structure LeqCut (key : List UInt8) (m A B : List (List UInt8 × Option α)) : Prop where
  eq : m = A ++ B
  below : ∀ kv ∈ A, kv.1.compareLex compare key = .lt
  above : ∀ kv ∈ B, key.compareLex compare kv.1 = .lt

/-- Across a cut the answer is the last pair below the key. -/
theorem leqLookup_of_cut {key : List UInt8} {m A B : List (List UInt8 × Option α)}
    (h : LeqCut key m A B) : leqLookup m key = leqLast A := by
  have hself : key.compareLex compare key = .eq := Std.ReflCmp.compare_self
  have hne : ∀ kv ∈ m, kv.1 ≠ key := by
    intro kv hkv heq
    rw [h.eq, List.mem_append] at hkv
    rcases hkv with hkv | hkv
    · have hlt := h.below kv hkv
      rw [heq, hself] at hlt
      cases hlt
    · have hlt := h.above kv hkv
      rw [heq, hself] at hlt
      cases hlt
  have hfilter : (m.filter fun kv => kv.1.compareLex compare key == .lt) = A := by
    rw [h.eq, List.filter_append, List.filter_eq_self.2 fun kv hkv => by simp [h.below kv hkv],
      List.filter_eq_nil_iff.2 fun kv hkv => ?_, List.append_nil]
    simp [Std.OrientedCmp.gt_of_lt (h.above kv hkv)]
  rw [leqLookup, lookup_eq_none_of_forall_ne hne, hfilter]

theorem leqLookup_of_lookup {m : List (List UInt8 × Option α)} {key : List UInt8} {v : Option α}
    (hv : m.lookup key = some v) : leqLookup m key = (knotEok, some (key, v)) := by
  rw [leqLookup, hv]

/-- In a sorted list, a key that is absent but has smaller keys gets the greatest of them. -/
theorem leqLookup_of_below {m : List (List UInt8 × Option α)} (hm : m.Pairwise KeyLt)
    {key : List UInt8} (hnone : m.lookup key = none) {kv : List UInt8 × Option α} (hkv : kv ∈ m)
    (hlt : kv.1.compareLex compare key = .lt) :
    ∃ kv₀ ∈ m, leqLookup m key = (1, some kv₀) ∧ kv₀.1.compareLex compare key = .lt ∧
      ∀ kv ∈ m, kv.1.compareLex compare key = .lt → kv = kv₀ ∨ KeyLt kv kv₀ := by
  have hF : kv ∈ m.filter fun kv => kv.1.compareLex compare key == .lt :=
    List.mem_filter.2 ⟨hkv, by simp [hlt]⟩
  obtain ⟨F, kv₀, hsplit⟩ := (List.eq_nil_or_concat'
    (m.filter fun kv => kv.1.compareLex compare key == .lt)).resolve_left (List.ne_nil_of_mem hF)
  have hmem₀ : kv₀ ∈ m.filter fun kv => kv.1.compareLex compare key == .lt := by
    rw [hsplit]
    simp
  have hsorted := hm.filter fun kv => kv.1.compareLex compare key == .lt
  rw [hsplit, List.pairwise_append] at hsorted
  refine ⟨kv₀, (List.mem_filter.1 hmem₀).1, ?_, by simpa using (List.mem_filter.1 hmem₀).2,
    fun kv' hkv' hlt' => ?_⟩
  · rw [leqLookup, hnone]
    dsimp only
    rw [hsplit, leqLast, List.getLast?_concat]
  · have hF' : kv' ∈ F ++ [kv₀] := by
      rw [← hsplit]
      exact List.mem_filter.2 ⟨hkv', by simp [hlt']⟩
    rcases List.mem_append.1 hF' with hkv' | hkv'
    · exact .inr (hsorted.2.2 kv' hkv' kv₀ (List.mem_singleton_self _))
    · exact .inl (List.mem_singleton.1 hkv')

/-- `KNOT_ENOENT` exactly when every key is above the key. -/
theorem leqLookup_eq_enoent_iff {m : List (List UInt8 × Option α)} {key : List UInt8} :
    leqLookup m key = (knotEnoent, none) ↔ ∀ kv ∈ m, key.compareLex compare kv.1 = .lt := by
  constructor
  · intro h kv hkv
    unfold leqLookup at h
    split at h
    · simp at h
    · next hnone =>
      have hnil : (m.filter fun kv => kv.1.compareLex compare key == .lt) = [] := by
        unfold leqLast at h
        split at h
        · simp at h
        · next hl => exact List.getLast?_eq_none_iff.1 hl
      have hnlt : kv.1.compareLex compare key ≠ .lt := fun hlt => by
        have := List.filter_eq_nil_iff.1 hnil kv hkv
        simp [hlt] at this
      have hne : kv.1 ≠ key := fun heq => by
        have := List.lookup_eq_none_iff.1 hnone kv hkv
        simp [heq] at this
      -- neither below nor equal: above
      cases hc : kv.1.compareLex compare key with
      | lt => exact absurd hc hnlt
      | eq => exact absurd (Std.LawfulEqCmp.eq_of_compare hc) hne
      | gt => exact Std.OrientedCmp.lt_of_gt hc
  · intro h
    rw [leqLookup_of_cut ⟨(List.nil_append m).symm, nofun, h⟩]
    rfl

/-! ## Keys around a path -/

theorem keyNib_eq_zero_iff : ∀ {key : List UInt8} {p : Nat}, keyNib key p = 0 ↔ 2 * key.length ≤ p
  | [], p => by simp
  | a :: as, 0 => by simp only [keyNib, List.length_cons]; omega
  | a :: as, 1 => by simp only [keyNib, List.length_cons]; omega
  | a :: as, p + 2 => by
    rw [keyNib_cons_add_two, keyNib_eq_zero_iff, List.length_cons]
    omega

/-- Keys that have both ended at a position agree from there on. -/
theorem keyNib_eq_of_ended {k k' : List UInt8} {p q : Nat} (hpq : p ≤ q) (hk : keyNib k p = 0)
    (hk' : keyNib k' p = 0) : keyNib k q = keyNib k' q := by
  rw [keyNib_eq_zero_iff] at hk hk'
  rw [keyNib_eq_zero_iff.2 (by omega), keyNib_eq_zero_iff.2 (by omega)]

theorem keyNib_two_mul_eq_getD (key : List UInt8) (i : Nat) :
    keyNib key (2 * i) = (key[i]?.map fun c => c.toNat / 16 + 1).getD 0 := by
  rw [keyNib_two_mul]
  split
  · next h => simp [List.getElem?_eq_getElem h]
  · next h => simp [List.getElem?_eq_none (Nat.le_of_not_lt h)]

theorem keyNib_two_mul_add_one_eq_getD (key : List UInt8) (i : Nat) :
    keyNib key (2 * i + 1) = (key[i]?.map fun c => c.toNat % 16 + 1).getD 0 := by
  rw [keyNib_two_mul_add_one]
  split
  · next h => simp [List.getElem?_eq_getElem h]
  · next h => simp [List.getElem?_eq_none (Nat.le_of_not_lt h)]

/-- `un_key < un_leaf` at the byte of the first mismatch says which key has the smaller nibble
there. -/
theorem unmatchedChar_lt_iff {flags index : Nat} (hf : flags = 1 ∨ flags = 2) {k k' : List UInt8}
    (hagree : AgreeBelow (nibPos flags index) k k')
    (hne : keyNib k (nibPos flags index) ≠ keyNib k' (nibPos flags index)) :
    unmatchedChar k[index]? < unmatchedChar k'[index]? ↔
      keyNib k (nibPos flags index) < keyNib k' (nibPos flags index) := by
  rcases hf with rfl | rfl
  · -- the more important half: the bytes compare as their high nibbles
    rw [show nibPos 1 index = 2 * index by simp [nibPos]] at hne ⊢
    rw [keyNib_two_mul_eq_getD, keyNib_two_mul_eq_getD] at hne ⊢
    generalize k[index]? = x at hne ⊢
    generalize k'[index]? = y at hne ⊢
    rcases x with _ | a <;> rcases y with _ | b <;>
      simp only [unmatchedChar, Option.map_none, Option.map_some, Option.getD_none,
        Option.getD_some] at hne ⊢ <;> omega
  · -- the other half: the high nibbles agree, and the bytes compare as their low nibbles
    have hhi := hagree (2 * index) (by simp [nibPos])
    rw [show nibPos 2 index = 2 * index + 1 by simp [nibPos]] at hne ⊢
    rw [keyNib_two_mul_add_one_eq_getD, keyNib_two_mul_add_one_eq_getD] at hne ⊢
    rw [keyNib_two_mul_eq_getD, keyNib_two_mul_eq_getD] at hhi
    generalize k[index]? = x at hne hhi ⊢
    generalize k'[index]? = y at hne hhi ⊢
    rcases x with _ | a <;> rcases y with _ | b <;>
      simp only [unmatchedChar, Option.map_none, Option.map_some, Option.getD_none,
        Option.getD_some] at hne hhi ⊢ <;> omega

namespace TrieNode.Wf

/-- The keys left of a twig are below a key that has the twig's nibble at the branch and agrees
with the twig's keys before it; those right of it are above. -/
theorem plug_order {f : TrieFrame α} {t : TrieNode α} (h : (f.plug t).Wf) {key k₀ : List UInt8}
    {v₀ : Option α} (hk₀ : (k₀, v₀) ∈ t.leaves)
    (hagree : AgreeBelow (nibPos f.flags f.index + 1) key k₀) :
    (∀ kv ∈ TrieNode.leavesOf f.before, kv.1.compareLex compare key = .lt) ∧
      ∀ kv ∈ TrieNode.leavesOf f.after, key.compareLex compare kv.1 = .lt := by
  have hb : (TrieNode.branch f.flags f.bitmap f.index (f.before ++ t :: f.after)).Wf := h
  -- the keys of the branch agree with `key` before its position
  have hkey : ∀ kv ∈ (f.plug t).leaves, AgreeBelow (nibPos f.flags f.index) kv.1 key :=
    fun kv hkv => (plug_agree h kv hkv (k₀, v₀) (by simp [hk₀])).trans
      (hagree.mono (Nat.le_succ _)).symm
  obtain ⟨l₁, n, l₂, hbits, -, h₁, hn, h₂⟩ := Bitmap.forall₂_append_cons_right hb.nib
  have hsorted := Bitmap.bits_pairwise 17 f.bitmap
  rw [hbits, List.pairwise_append] at hsorted
  have hnk : keyNib key (nibPos f.flags f.index) = n :=
    (hagree _ (Nat.lt_succ_self _)).trans (hn _ hk₀)
  refine ⟨fun kv hkv => compareLex_eq_lt_of_keyNib (hkey kv (by simp [hkv])) ?_,
    fun kv hkv => compareLex_eq_lt_of_keyNib (hkey kv (by simp [hkv])).symm ?_⟩
  · rw [hnk]
    exact hsorted.2.2 _ (keyNib_mem_of_forall₂ h₁ kv hkv) n List.mem_cons_self
  · rw [hnk]
    exact List.rel_of_pairwise_cons hsorted.2.1 (keyNib_mem_of_forall₂ h₂ kv hkv)

/-- A key with the nibble of a frame's twig at the branch finds the twig there, at its offset. -/
theorem twigbit_plug {f : TrieFrame α} {t : TrieNode α} (h : (f.plug t).Wf) {key k₀ : List UInt8}
    {v₀ : Option α} (hk₀ : (k₀, v₀) ∈ t.leaves)
    (hagree : AgreeBelow (nibPos f.flags f.index + 1) key k₀) :
    hastwig f.bitmap (twigbit f.flags f.index key) = true ∧
      twigoff f.bitmap (twigbit f.flags f.index key) = f.before.length := by
  have hb : (TrieNode.branch f.flags f.bitmap f.index (f.before ++ t :: f.after)).Wf := h
  obtain ⟨l₁, n, l₂, hbits, hlen, -, hn, -⟩ := Bitmap.forall₂_append_cons_right hb.nib
  have hnk : keyNib key (nibPos f.flags f.index) = n :=
    (hagree _ (Nat.lt_succ_self _)).trans (hn _ hk₀)
  have hsorted := Bitmap.bits_pairwise 17 f.bitmap
  rw [hbits] at hsorted
  constructor
  · rw [twigbit_eq hb.flags, hnk, hastwig_two_pow]
    exact (Bitmap.mem_bits.1 (by rw [hbits]; simp)).2
  · rw [twigbit_eq hb.flags, hnk, twigoff_two_pow, hbits, (Bitmap.filter_of_pairwise hsorted).1,
      hlen]

/-- The first twig of a branch with a twig for the end of a key is that twig: its keys have ended
at the branch. -/
theorem plug_first_of_testBit_zero {f : TrieFrame α} {t : TrieNode α} (h : (f.plug t).Wf)
    (hfirst : f.before = []) (h0 : f.bitmap.testBit 0 = true) :
    TwigNib (nibPos f.flags f.index) 0 t := by
  obtain ⟨_, n, hn, hnib⟩ := plug_nib h
  have hbits : (Bitmap.bits 17 f.bitmap)[0]? = some 0 := by
    simp [Bitmap.bits, List.range_succ_eq_map, h0]
  rw [hfirst, List.length_nil, hbits, Option.some.injEq] at hn
  rw [hn]
  exact hnib

/-- Below a path of branches that all test positions before `Q`, a key that agrees before `Q`
with a key of the node is above every leaf left of the path and below every leaf right of it. -/
theorem path_order {Q : Nat} {key k₀ : List UInt8} {v₀ : Option α} :
    ∀ {path : List (TrieFrame α)} {t : TrieNode α}, (plugAll path t).Wf → (k₀, v₀) ∈ t.leaves →
      (∀ f ∈ path, nibPos f.flags f.index < Q) → AgreeBelow Q key k₀ →
      (∀ kv ∈ pathBefore path, kv.1.compareLex compare key = .lt) ∧
        ∀ kv ∈ pathAfter path, key.compareLex compare kv.1 = .lt
  | [], _, _, _, _, _ => ⟨by simp [pathBefore], by simp [pathAfter]⟩
  | f :: fs, t, h, hk₀, hpos, hagree => by
    have h' : (plugAll fs (f.plug t)).Wf := h
    have hf := plug_order (of_plugAll h') hk₀ (hagree.mono (hpos f List.mem_cons_self))
    obtain ⟨hb, ha⟩ := path_order h' (show (k₀, v₀) ∈ (f.plug t).leaves by simp [hk₀])
      (fun g hg => hpos g (List.mem_cons_of_mem _ hg)) hagree
    refine ⟨fun kv hkv => ?_, fun kv hkv => ?_⟩
    · simp only [pathBefore, List.mem_append] at hkv
      rcases hkv with hkv | hkv
      · exact hb kv hkv
      · exact hf.1 kv hkv
    · simp only [pathAfter, List.mem_append] at hkv
      rcases hkv with hkv | hkv
      · exact hf.2 kv hkv
      · exact ha kv hkv

end TrieNode.Wf

/-! ## Down the last twigs, and to the left -/

/-- `ns_last_leaf` reaches the last leaf below the node. -/
theorem nsLastLeaf_spec {t : TrieNode α} (ht : t.Wf) :
    ∀ path : List (TrieFrame α), ∃ ext k v, nsLastLeaf path t = some (ext ++ path, .leaf k v) ∧
      plugAll ext (.leaf k v) = t ∧ pathAfter ext = [] := by
  induction ht with
  | leaf k v => exact fun path => ⟨[], k, v, by rw [nsLastLeaf]; rfl, rfl, rfl⟩
  | @branch flags bitmap index twigs _ hnib htwo _ _ ih =>
    intro path
    obtain ⟨ts, tl, rfl⟩ : ∃ ts tl, twigs = ts ++ [tl] := by
      rcases List.eq_nil_or_concat' twigs with rfl | h
      · simp at htwo
      · exact h
    have hw : bitmapWeight bitmap = ts.length + 1 := by
      rw [bitmapWeight, Bitmap.weight, hnib.length_eq]
      simp
    obtain ⟨ext, k, v, hl, hplug, hafter⟩ :=
      ih tl (by simp) (⟨flags, bitmap, index, ts, []⟩ :: path)
    refine ⟨ext ++ [⟨flags, bitmap, index, ts, []⟩], k, v, ?_, ?_, ?_⟩
    · rw [nsLastLeaf]
      split
      · next hzero => omega
      · next lasti hlast =>
        obtain rfl : lasti = ts.length := by omega
        rw [dif_pos (by simp), getElem_append_length, ofTwig_append, hl, List.append_assoc]
        rfl
    · rw [plugAll_append, hplug]
      rfl
    · simp [pathAfter_append, hafter, pathAfter]

/-- The leaves under a node whose last leaf is at the end of `ext`. -/
theorem leaves_of_last {ext : List (TrieFrame α)} {t : TrieNode α} {k : List UInt8}
    {v : Option α} (hplug : plugAll ext (.leaf k v) = t) (hafter : pathAfter ext = []) :
    t.leaves = pathBefore ext ++ [(k, v)] := by
  rw [← hplug, leaves_plugAll, hafter]
  simp

/-- The climb of `ns_prev_leaf` reaches the last leaf left of the current node, or finds none
left. -/
theorem nsPrevUp_spec : ∀ {path : List (TrieFrame α)} {t : TrieNode α}, (plugAll path t).Wf →
    (pathBefore path = [] ∧ nsPrevUp path t = some none) ∨
      ∃ path' k v, nsPrevUp path t = some (some (path', .leaf k v)) ∧
        plugAll path' (.leaf k v) = plugAll path t ∧ pathBefore path' ++ [(k, v)] = pathBefore path
  | [], _, _ => .inl ⟨rfl, rfl⟩
  | p :: path, t, h => by
    have h' : (plugAll path (p.plug t)).Wf := h
    have hp := TrieNode.Wf.of_plugAll h'
    rw [nsPrevUp]
    rcases List.eq_nil_or_concat' p.before with hnil | ⟨before, t', hbefore⟩
    · -- the first twig: climb on
      rw [hnil]
      have hprev := nsPrevUp_spec h'
      simpa [pathBefore, hnil] using hprev
    · -- the twig on the left
      rw [hbefore, List.getLast?_concat, List.dropLast_concat]
      dsimp only
      have ht' : t'.Wf := TrieNode.Wf.sub hp t' (by simp [hbefore])
      obtain ⟨ext, k, v, hl, hplug, hafter⟩ :=
        nsLastLeaf_spec ht' (⟨p.flags, p.bitmap, p.index, before, t :: p.after⟩ :: path)
      refine .inr ⟨_, k, v, by rw [hl]; rfl, ?_, ?_⟩
      · rw [plugAll_append, hplug, plugAll_cons, plugAll_cons]
        simp [TrieFrame.plug, hbefore]
      · simp [pathBefore_append, pathBefore, hbefore, leaves_of_last hplug hafter]

/-- Where the branch has no twig for the end of a key, `ns_prev_leaf` climbs at once. -/
theorem nsPrevLeaf_branch (path : List (TrieFrame α)) {flags bitmap index : Nat}
    {twigs : List (TrieNode α)} (h0 : bitmap.testBit 0 = false) :
    nsPrevLeaf path (.branch flags bitmap index twigs) =
      nsPrevUp path (.branch flags bitmap index twigs) := by
  have hno : hastwig bitmap (1 <<< 0) = false := by
    rw [show (1 <<< 0 : Nat) = 2 ^ 0 from rfl, hastwig_two_pow, h0]
  rw [nsPrevLeaf.eq_def]
  dsimp only
  rw [hno, if_neg Bool.false_ne_true]

/-! ## `trie_get_leq` -/

/-- What `trie_get_leq` answers, read through the slot it points to. -/
def leqAnswer (r : Int × Option (TrieSlot α)) : Int × Option (List UInt8 × Option α) :=
  (r.1, r.2.map fun s => (s.key, s.val))

/-- `trie_get_leq`'s answer `r` in the trie at `root`: read through its slot it is `ans`, and the
slot is the leaf's in `root`. -/
structure LeqAt (root : TrieNode α) (r : Int × Option (TrieSlot α))
    (ans : Int × Option (List UInt8 × Option α)) : Prop where
  answer : leqAnswer r = ans
  slot : ∀ s ∈ r.2, plugAll s.path (.leaf s.key s.val) = root

/-- The answer for a key absent from the trie at `root`: the last of the leaves below the key, for
a cut of the leaves at the key. -/
def LeqBelow (key : List UInt8) (root : TrieNode α) (r : Int × Option (TrieSlot α)) : Prop :=
  ∃ A B, LeqCut key root.leaves A B ∧ LeqAt root r (leqLast A)

theorem leqAnswer_eq_some {r : Int × Option (TrieSlot α)} {c : Int} {kv : List UInt8 × Option α}
    (h : leqAnswer r = (c, some kv)) : ∃ s : TrieSlot α, r = (c, some s) ∧ (s.key, s.val) = kv := by
  obtain ⟨c', _ | s⟩ := r
  · simp [leqAnswer] at h
  · simp only [leqAnswer, Option.map_some, Prod.mk.injEq, Option.some.injEq] at h
    exact ⟨s, by rw [h.1], h.2⟩

theorem leqAnswer_eq_none_iff {r : Int × Option (TrieSlot α)} {c : Int} :
    leqAnswer r = (c, none) ↔ r = (c, none) := by
  obtain ⟨c', _ | s⟩ := r <;> simp [leqAnswer]

/-- `ns_last_leaf` and the end of `trie_get_leq`: the last leaf below the node, after every leaf
left of the path. -/
theorem leqSuccess_nsLastLeaf {path : List (TrieFrame α)} {t : TrieNode α}
    (h : (plugAll path t).Wf) :
    ∃ r, leqSuccess (nsLastLeaf path t) = some r ∧
      LeqAt (plugAll path t) r (leqLast (pathBefore path ++ t.leaves)) := by
  obtain ⟨ext, k, v, hl, hplug, hafter⟩ := nsLastLeaf_spec (TrieNode.Wf.of_plugAll h) path
  refine ⟨(1, some ⟨ext ++ path, k, v⟩), by rw [hl]; rfl, ⟨?_, ?_⟩⟩
  · rw [leaves_of_last hplug hafter, ← List.append_assoc, leqLast, List.getLast?_concat]
    rfl
  · intro s hs
    cases hs
    show plugAll (ext ++ path) (.leaf k v) = plugAll path t
    rw [plugAll_append, hplug]

/-- The second half of `trie_get_leq` at a branch under `path`, going for the last leaf of its
first `j` twigs: with `j` 0, and no twig for the end of a key, the last leaf left of the path. -/
theorem leqFrom_spec {path : List (TrieFrame α)} {flags bitmap index : Nat}
    {twigs : List (TrieNode α)} (h : (plugAll path (.branch flags bitmap index twigs)).Wf)
    {key : List UInt8} {less : Bool} {j : Nat} (hi : leqIndex key less flags bitmap index = (j : Int) - 1)
    (hj : j ≤ twigs.length) (h0 : j = 0 → bitmap.testBit 0 = false) :
    ∃ r, leqFrom key less path (.branch flags bitmap index twigs) = some r ∧
      LeqAt (plugAll path (.branch flags bitmap index twigs)) r
        (leqLast (pathBefore path ++ TrieNode.leavesOf (twigs.take j))) := by
  rw [leqFrom, hi]
  cases j with
  | zero =>
    -- no twig before: the leaf before the branch
    rw [if_neg (by omega), nsPrevLeaf_branch path (h0 rfl)]
    rcases nsPrevUp_spec h with ⟨hnil, hprev⟩ | ⟨path', k, v, hprev, hplug, hbefore⟩
    · rw [hprev]
      refine ⟨_, rfl, ⟨?_, nofun⟩⟩
      simp [hnil, leqAnswer, leqLast]
    · rw [hprev]
      refine ⟨_, rfl, ⟨?_, ?_⟩⟩
      · rw [List.take_zero, TrieNode.leavesOf_nil, List.append_nil, ← hbefore, leqLast,
          List.getLast?_concat]
        rfl
      · intro s hs
        cases hs
        exact hplug
  | succ j =>
    -- the last leaf of twig `j`
    have hlt : j < twigs.length := hj
    have hij : ((j + 1 : Nat) : Int) - 1 = (j : Int) := by omega
    rw [hij, if_pos (Int.natCast_nonneg j), Int.toNat_natCast, dif_pos hlt]
    have hplug : (TrieFrame.ofTwig flags bitmap index twigs j).plug twigs[j] =
        .branch flags bitmap index twigs := by
      simp [TrieFrame.ofTwig, TrieFrame.plug, List.getElem_cons_drop]
    have hwf : (plugAll (TrieFrame.ofTwig flags bitmap index twigs j :: path) twigs[j]).Wf := by
      rw [plugAll_cons, hplug]
      exact h
    obtain ⟨r, hr, hat⟩ := leqSuccess_nsLastLeaf hwf
    have hA : pathBefore (TrieFrame.ofTwig flags bitmap index twigs j :: path) ++ twigs[j].leaves =
        pathBefore path ++ TrieNode.leavesOf (twigs.take (j + 1)) := by
      rw [List.take_add_one, List.getElem?_eq_getElem hlt]
      simp only [pathBefore, TrieFrame.ofTwig, Option.toList_some, TrieNode.leavesOf_append,
        TrieNode.leavesOf_cons, TrieNode.leavesOf_nil, List.append_nil, List.append_assoc]
    rw [plugAll_cons, hplug, hA] at hat
    exact ⟨r, hr, hat⟩

namespace TrieBranchPoint.Fork

variable {bp : TrieBranchPoint α} {key lkey : List UInt8}

/-- `un_key < un_leaf` says whether the key's nibble at the fork is below `lkey`'s. -/
theorem less_iff (hfork : bp.Fork key lkey) :
    unmatchedChar key[bp.index]? < unmatchedChar bp.first ↔
      keyNib key (nibPos bp.flags bp.index) < keyNib lkey (nibPos bp.flags bp.index) := by
  rw [hfork.first]
  exact unmatchedChar_lt_iff hfork.flags hfork.agree hfork.ne

/-- A key that agrees with `lkey` through the fork is on the side of the key that `lkey` is. -/
theorem order_of_agree (hfork : bp.Fork key lkey) {k : List UInt8}
    (hk : AgreeBelow (nibPos bp.flags bp.index + 1) k lkey) :
    (keyNib key (nibPos bp.flags bp.index) < keyNib lkey (nibPos bp.flags bp.index) →
        key.compareLex compare k = .lt) ∧
      (keyNib lkey (nibPos bp.flags bp.index) < keyNib key (nibPos bp.flags bp.index) →
        k.compareLex compare key = .lt) := by
  have hag : AgreeBelow (nibPos bp.flags bp.index) key k :=
    hfork.agree.trans (hk.mono (Nat.le_succ _)).symm
  have hnib : keyNib k (nibPos bp.flags bp.index) = keyNib lkey (nibPos bp.flags bp.index) :=
    hk _ (Nat.lt_succ_self _)
  constructor
  · intro hlt
    exact compareLex_eq_lt_of_keyNib hag (by rw [hnib]; exact hlt)
  · intro hlt
    exact compareLex_eq_lt_of_keyNib hag.symm (by rw [hnib]; exact hlt)


end TrieBranchPoint.Fork

/-- A node on top whose keys agree with one key through the branching point is not a branch
testing it. -/
theorem TrieBranchPoint.atBranch_eq_false {bp : TrieBranchPoint α} {lkey : List UInt8}
    (hwf : bp.top.Wf)
    (htop : ∀ kv ∈ bp.top.leaves, AgreeBelow (nibPos bp.flags bp.index + 1) kv.1 lkey) :
    bp.atBranch = false := by
  rw [TrieBranchPoint.atBranch]
  cases hb : bp.top with
  | leaf k v => rfl
  | branch fl bm ix tw =>
    -- a branch testing the fork's position has keys that differ there
    refine Bool.eq_false_iff.2 fun heq => ?_
    simp only [Bool.and_eq_true, beq_iff_eq] at heq
    obtain ⟨rfl, rfl⟩ := heq
    rw [hb] at hwf htop
    obtain ⟨kv, hkv, kv', hkv', hne⟩ := hwf.exists_keyNib_ne
    rw [TrieNode.leaves_branch] at htop
    exact hne ((htop kv hkv _ (Nat.lt_succ_self _)).trans (htop kv' hkv' _ (Nat.lt_succ_self _)).symm)

/-- At a branch testing the fork, where the key's nibble has no twig: the last leaf of the twigs
of smaller nibbles, or else the leaf before the branch. -/
theorem leqFrom_fork_branch {bp : TrieBranchPoint α} {key lkey : List UInt8}
    (hfork : bp.Fork key lkey) (hwf : (plugAll bp.path bp.top).Wf) {bitmap : Nat}
    {twigs : List (TrieNode α)} (htop : bp.top = .branch bp.flags bitmap bp.index twigs)
    (hbit : bitmap.testBit (keyNib key (nibPos bp.flags bp.index)) = false) (less : Bool) :
    ∃ r, leqFrom key less bp.path bp.top = some r ∧ LeqBelow key (plugAll bp.path bp.top) r := by
  obtain ⟨lval, hmem⟩ := hfork.mem
  obtain ⟨hbefore, hafter⟩ := TrieNode.Wf.path_order hwf hmem hfork.above hfork.agree
  rw [htop] at hwf hmem ⊢
  rw [TrieNode.leaves_branch] at hmem
  have htw : (TrieNode.branch bp.flags bitmap bp.index twigs).Wf := TrieNode.Wf.of_plugAll hwf
  have hv : keyNib key (nibPos bp.flags bp.index) < 17 := Nat.lt_succ_of_le (keyNib_le _ _)
  obtain ⟨h₁, h₂⟩ := Bitmap.forall₂_split_of_not_testBit htw.nib hv hbit
  have hi : leqIndex key less bp.flags bitmap bp.index =
      (twigoff bitmap (2 ^ keyNib key (nibPos bp.flags bp.index)) : Int) - 1 := by
    rw [leqIndex, twigbit_eq hfork.flags, hastwig_two_pow, hbit, if_neg Bool.false_ne_true]
  have hle : twigoff bitmap (2 ^ keyNib key (nibPos bp.flags bp.index)) ≤ twigs.length := by
    rw [twigoff_two_pow, ← htw.nib.length_eq]
    exact List.length_filter_le _ _
  have h0 : twigoff bitmap (2 ^ keyNib key (nibPos bp.flags bp.index)) = 0 →
      bitmap.testBit 0 = false := by
    intro hzero
    rw [twigoff_two_pow, List.length_eq_zero_iff, List.filter_eq_nil_iff] at hzero
    cases hb0 : bitmap.testBit 0 with
    | false => rfl
    | true =>
      -- bit 0 is set and the key's is not, so bit 0 is below the key's and counts
      have hN0 : 0 < keyNib key (nibPos bp.flags bp.index) :=
        Nat.pos_of_ne_zero fun hz => by rw [hz, hb0] at hbit; cases hbit
      have := hzero 0 (Bitmap.mem_bits.2 ⟨by omega, hb0⟩)
      simp [hN0] at this
  obtain ⟨r, hr, hat⟩ := leqFrom_spec hwf hi hle h0
  change List.Forall₂ _ _ (twigs.take (twigoff bitmap (2 ^ keyNib key (nibPos bp.flags bp.index))))
    at h₁
  change List.Forall₂ _ _ (twigs.drop (twigoff bitmap (2 ^ keyNib key (nibPos bp.flags bp.index))))
    at h₂
  generalize twigoff bitmap (2 ^ keyNib key (nibPos bp.flags bp.index)) = j at h₁ h₂ hat
  have hsplit : TrieNode.leavesOf twigs =
      TrieNode.leavesOf (twigs.take j) ++ TrieNode.leavesOf (twigs.drop j) := by
    rw [← TrieNode.leavesOf_append, List.take_append_drop]
  refine ⟨r, hr, _, TrieNode.leavesOf (twigs.drop j) ++ pathAfter bp.path, ⟨?_, ?_, ?_⟩, hat⟩
  · rw [leaves_plugAll, TrieNode.leaves_branch, hsplit]
    simp only [List.append_assoc]
  · intro kv hkv
    rcases List.mem_append.1 hkv with hkv | hkv
    · exact hbefore kv hkv
    · have hin : kv ∈ TrieNode.leavesOf twigs := by
        rw [hsplit]
        exact List.mem_append_left _ hkv
      refine compareLex_eq_lt_of_keyNib ((htw.agree kv hin _ hmem).trans hfork.agree.symm) ?_
      simpa using (List.mem_filter.1 (keyNib_mem_of_forall₂ h₁ kv hkv)).2
  · intro kv hkv
    rcases List.mem_append.1 hkv with hkv | hkv
    · have hin : kv ∈ TrieNode.leavesOf twigs := by
        rw [hsplit]
        exact List.mem_append_right _ hkv
      refine compareLex_eq_lt_of_keyNib (hfork.agree.trans (htw.agree kv hin _ hmem).symm) ?_
      simpa using (List.mem_filter.1 (keyNib_mem_of_forall₂ h₂ kv hkv)).2
    · exact hafter kv hkv

/-- Where the keys on top agree with `lkey` through the fork, under a parent `p`: the last leaf
of the twigs before the node, or of the node too when the key is above its keys, or else the
leaf before the parent. -/
theorem leqFrom_fork_parent {bp : TrieBranchPoint α} {key lkey : List UInt8}
    (hfork : bp.Fork key lkey) {p : TrieFrame α} {path : List (TrieFrame α)}
    (hpath : bp.path = p :: path) (hwf : (plugAll bp.path bp.top).Wf)
    (htop : ∀ kv ∈ bp.top.leaves, AgreeBelow (nibPos bp.flags bp.index + 1) kv.1 lkey) :
    ∃ r, leqFrom key (decide (keyNib key (nibPos bp.flags bp.index) <
        keyNib lkey (nibPos bp.flags bp.index))) path (p.plug bp.top) = some r ∧
      LeqBelow key (plugAll bp.path bp.top) r := by
  obtain ⟨lval, hmem⟩ := hfork.mem
  obtain ⟨hbefore, hafter⟩ := TrieNode.Wf.path_order hwf hmem hfork.above hfork.agree
  have hPQ : nibPos p.flags p.index < nibPos bp.flags bp.index :=
    hfork.above p (by rw [hpath]; exact List.mem_cons_self)
  rw [hpath] at hwf hbefore hafter ⊢
  have hwf' : (plugAll path (.branch p.flags p.bitmap p.index (p.before ++ bp.top :: p.after))).Wf :=
    hwf
  have hp : (p.plug bp.top).Wf := TrieNode.Wf.of_plugAll hwf'
  obtain ⟨hhas, hoff⟩ := TrieNode.Wf.twigbit_plug hp hmem (hfork.agree.mono hPQ)
  have hleaves : (plugAll (p :: path) bp.top).leaves =
      pathBefore (p :: path) ++ bp.top.leaves ++ pathAfter (p :: path) := leaves_plugAll _ _
  show ∃ r, leqFrom key _ path (.branch p.flags p.bitmap p.index (p.before ++ bp.top :: p.after)) =
    some r ∧ _
  by_cases hNL : keyNib key (nibPos bp.flags bp.index) < keyNib lkey (nibPos bp.flags bp.index)
  · -- the key is below the node's keys: the twigs before the node, or the leaf before `p`
    have hi : leqIndex key (decide (keyNib key (nibPos bp.flags bp.index) <
        keyNib lkey (nibPos bp.flags bp.index))) p.flags p.bitmap p.index =
        (p.before.length : Int) - 1 := by
      rw [leqIndex, if_pos hhas, hoff, decide_eq_true hNL, if_pos rfl]
    have h0 : p.before.length = 0 → p.bitmap.testBit 0 = false := by
      intro hlen
      cases hb0 : p.bitmap.testBit 0 with
      | false => rfl
      | true =>
        -- with a twig for the end of a key first, `lkey` and then the key would have ended
        -- before the fork
        have hend : keyNib lkey (nibPos p.flags p.index) = 0 :=
          TrieNode.Wf.plug_first_of_testBit_zero hp (List.length_eq_zero_iff.1 hlen) hb0 _ hmem
        have hkend : keyNib key (nibPos p.flags p.index) = 0 := (hfork.agree _ hPQ).trans hend
        exact absurd (keyNib_eq_of_ended (Nat.le_of_lt hPQ) hkend hend) hfork.ne
    obtain ⟨r, hr, hat⟩ := leqFrom_spec hwf' hi (by simp) h0
    refine ⟨r, hr, pathBefore (p :: path), bp.top.leaves ++ pathAfter (p :: path),
      ⟨by rw [hleaves, List.append_assoc], hbefore, fun kv hkv => ?_⟩, ?_⟩
    · rcases List.mem_append.1 hkv with hkv | hkv
      · exact (hfork.order_of_agree (htop kv hkv)).1 hNL
      · exact hafter kv hkv
    · simpa [pathBefore, TrieFrame.plug] using hat
  · -- the key is above the node's keys: down the node itself to its last leaf
    have hLN : keyNib lkey (nibPos bp.flags bp.index) < keyNib key (nibPos bp.flags bp.index) :=
      Nat.lt_of_le_of_ne (Nat.le_of_not_lt hNL) (Ne.symm hfork.ne)
    have hi : leqIndex key (decide (keyNib key (nibPos bp.flags bp.index) <
        keyNib lkey (nibPos bp.flags bp.index))) p.flags p.bitmap p.index =
        ((p.before.length + 1 : Nat) : Int) - 1 := by
      rw [leqIndex, if_pos hhas, hoff, decide_eq_false hNL]
      simp
    obtain ⟨r, hr, hat⟩ := leqFrom_spec hwf' hi (by simp) (fun h => absurd h (Nat.succ_ne_zero _))
    rw [List.take_length_add_append] at hat
    refine ⟨r, hr, pathBefore (p :: path) ++ bp.top.leaves, pathAfter (p :: path),
      ⟨hleaves, fun kv hkv => ?_, hafter⟩, ?_⟩
    · rcases List.mem_append.1 hkv with hkv | hkv
      · exact hbefore kv hkv
      · exact (hfork.order_of_agree (htop kv hkv)).2 hLN
    · simpa [pathBefore, TrieFrame.plug] using hat

/-- At a fork, `trie_get_leq` answers with the last leaf below the key. -/
theorem trieGetLeq_fork {tbl : Trie α} (h : tbl.Wf) (hw : tbl.weight ≠ 0) {key lkey : List UInt8}
    {bp : TrieBranchPoint α} (hbp : nsFindBranch tbl.root key = some bp)
    (hroot : plugAll bp.path bp.top = tbl.root) (hfork : bp.Fork key lkey) :
    ∃ r, trieGetLeq tbl key = some r ∧ LeqBelow key tbl.root r := by
  have hwf : (plugAll bp.path bp.top).Wf := hroot ▸ h.root hw
  have htw : bp.top.Wf := TrieNode.Wf.of_plugAll hwf
  have hless : decide (unmatchedChar key[bp.index]? < unmatchedChar bp.first) =
      decide (keyNib key (nibPos bp.flags bp.index) < keyNib lkey (nibPos bp.flags bp.index)) :=
    decide_eq_decide.2 hfork.less_iff
  unfold trieGetLeq
  rw [if_neg hw, hbp]
  dsimp only
  rw [if_neg (by rcases hfork.flags with hf | hf <;> omega), hless, ← hroot]
  rcases hfork.top with htop | ⟨bitmap, twigs, htop, hbit⟩
  · -- the keys on top agree with `lkey` through the fork: it lies on the edge above the node
    rw [TrieBranchPoint.atBranch_eq_false htw htop, if_neg Bool.false_ne_true]
    split
    · next hnil =>
      -- the root was unmatched already: every key is on the side of `lkey`
      rw [hnil] at hwf ⊢
      by_cases hNL : keyNib key (nibPos bp.flags bp.index) < keyNib lkey (nibPos bp.flags bp.index)
      · rw [if_pos (decide_eq_true hNL)]
        exact ⟨_, rfl, [], bp.top.leaves,
          ⟨rfl, nofun, fun kv hkv => (hfork.order_of_agree (htop kv hkv)).1 hNL⟩, ⟨rfl, nofun⟩⟩
      · have hLN : keyNib lkey (nibPos bp.flags bp.index) < keyNib key (nibPos bp.flags bp.index) :=
          Nat.lt_of_le_of_ne (Nat.le_of_not_lt hNL) (Ne.symm hfork.ne)
        rw [if_neg (by simpa using hNL)]
        obtain ⟨r, hr, hat⟩ := leqSuccess_nsLastLeaf hwf
        refine ⟨r, hr, bp.top.leaves, [], ⟨(List.append_nil _).symm,
          fun kv hkv => (hfork.order_of_agree (htop kv hkv)).2 hLN, nofun⟩, ?_⟩
        simpa [pathBefore] using hat
    · next p path hpath =>
      exact leqFrom_fork_parent hfork hpath hwf htop
  · -- the branch on top tests the fork
    have hat : bp.atBranch = true := by
      rw [TrieBranchPoint.atBranch, htop]
      simp
    rw [hat, if_pos rfl]
    exact leqFrom_fork_branch hfork hwf htop hbit _

/-- On a well-formed trie `trie_get_leq` answers as the search on its contents: the key's own slot
with 0, or the slot of the greatest key below it with 1, or `KNOT_ENOENT` and NULL; a slot it
returns is the leaf's in the trie. -/
theorem trieGetLeq_spec {tbl : Trie α} (h : tbl.Wf) (key : List UInt8) :
    ∃ r, trieGetLeq tbl key = some r ∧ LeqAt tbl.root r (leqLookup tbl.contents key) := by
  by_cases hw : tbl.weight = 0
  · refine ⟨(knotEnoent, none), by rw [trieGetLeq, if_pos hw], ⟨?_, nofun⟩⟩
    rw [Trie.contents, if_pos hw]
    rfl
  · obtain ⟨bp, hbp, hroot, hcase⟩ := nsFindBranch_spec (h.root hw) key
    rcases hcase with ⟨hf0, v, htop⟩ | ⟨lkey, hfork⟩
    · -- the key is present: its own slot
      have hmem : (key, v) ∈ tbl.contents := by
        rw [Trie.contents_of_weight_ne hw, ← hroot, leaves_plugAll, htop]
        simp
      refine ⟨(knotEok, some ⟨bp.path, key, v⟩), ?_, ⟨?_, ?_⟩⟩
      · rw [trieGetLeq, if_neg hw, hbp]
        dsimp only
        rw [if_pos hf0, htop]
      · rw [leqLookup_of_lookup (lookup_eq_of_mem h.pairwise hmem)]
        rfl
      · intro s hs
        cases hs
        show plugAll bp.path (.leaf key v) = tbl.root
        rw [← hroot, htop]
    · obtain ⟨r, hr, A, B, hcut, hat⟩ := trieGetLeq_fork h hw hbp hroot hfork
      refine ⟨r, hr, ⟨?_, hat.slot⟩⟩
      rw [hat.answer, Trie.contents_of_weight_ne hw, leqLookup_of_cut hcut]

/-- From `trie_create`, after every run of calls, `trie_get_leq` on any key returns 0 with the
slot of the key when it is present; otherwise 1 with the slot of the greatest key below it, in
the order of unsigned bytes with a proper prefix first, when there is one; and `KNOT_ENOENT` with
NULL exactly when every key is above it. A slot it returns is the leaf's in the trie. -/
theorem trieGetLeq_predecessor (ops : List (TrieOp α)) (key : List UInt8) :
    ∃ tbl r, trieRun trieCreate ops = some tbl ∧ trieGetLeq tbl key = some r ∧
      (∀ s ∈ r.2, plugAll s.path (.leaf s.key s.val) = tbl.root) ∧
      (∀ v, (TrieOp.run ops).lookup key = some v →
        ∃ s, r = (knotEok, some s) ∧ s.key = key ∧ s.val = v) ∧
      ((TrieOp.run ops).lookup key = none → ∀ kv ∈ TrieOp.run ops, List.Lex (· < ·) kv.1 key →
        ∃ s, r = (1, some s) ∧ (s.key, s.val) ∈ TrieOp.run ops ∧ List.Lex (· < ·) s.key key ∧
          ∀ kv ∈ TrieOp.run ops, List.Lex (· < ·) kv.1 key →
            kv.1 = s.key ∨ List.Lex (· < ·) kv.1 s.key) ∧
      (r = (knotEnoent, none) ↔ ∀ kv ∈ TrieOp.run ops, List.Lex (· < ·) key kv.1) := by
  obtain ⟨tbl, hrun, h, hm⟩ := trieRun_spec ops (trieCreate_wf : (trieCreate : Trie α).Wf)
  rw [trieCreate_contents] at hm
  change tbl.contents = TrieOp.run ops at hm
  obtain ⟨r, hr, hat⟩ := trieGetLeq_spec h key
  have hsorted : (TrieOp.run ops).Pairwise KeyLt := hm ▸ h.pairwise
  rw [hm] at hat
  refine ⟨tbl, r, hrun, hr, hat.slot, fun v hv => ?_, fun hnone kv hkv hlt => ?_, ?_⟩
  · obtain ⟨s, hrs, hs⟩ := leqAnswer_eq_some (hat.answer.trans (leqLookup_of_lookup hv))
    simp only [Prod.mk.injEq] at hs
    exact ⟨s, hrs, hs.1, hs.2⟩
  · obtain ⟨kv₀, hmem₀, hleq, hlt₀, hmax⟩ :=
      leqLookup_of_below hsorted hnone hkv ((compareLex_eq_lt_iff_lex _ _).2 hlt)
    obtain ⟨s, hrs, hs⟩ := leqAnswer_eq_some (hat.answer.trans hleq)
    subst hs
    refine ⟨s, hrs, hmem₀, (compareLex_eq_lt_iff_lex _ _).1 hlt₀, fun kv' hkv' hlt' => ?_⟩
    rcases hmax kv' hkv' ((compareLex_eq_lt_iff_lex _ _).2 hlt') with rfl | hlt''
    · exact .inl rfl
    · exact .inr ((compareLex_eq_lt_iff_lex _ _).1 hlt'')
  · rw [← leqAnswer_eq_none_iff, hat.answer, leqLookup_eq_enoent_iff]
    exact forall₂_congr fun kv _ => compareLex_eq_lt_iff_lex _ _

end KnotResolver.Generic
