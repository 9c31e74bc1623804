import KnotResolver.Generic.TrieWf

/-!
# Lookup and deletion on a well-formed qp-trie

The trie's contents are the leaves of its root in twig order, or nothing while its weight is 0;
`Trie.Wf` adds that the root is well formed and the weight counts its leaves. On such a trie
`find_equal` finds the leaf of a key exactly when the key is present (`findEqual_spec`) and
`find_first` finds the first leaf; both return the path to the leaf and the leaf's bit in its
parent (`TrieFound.At`), which is what `del_found` needs to unlink the leaf, collapsing a
branch left with a single twig (`delFound_spec`).
-/

namespace KnotResolver.Generic

variable {α : Type u}

/-! ## Twigs -/

theorem hastwig_two_pow (bitmap v : Nat) : hastwig bitmap (2 ^ v) = bitmap.testBit v :=
  Bitmap.and_two_pow_bne_zero bitmap v

theorem twigoff_two_pow (bitmap v : Nat) :
    twigoff bitmap (2 ^ v) = ((Bitmap.bits 17 bitmap).filter (· < v)).length :=
  Bitmap.weight_and_two_pow_sub_one 17 bitmap v

theorem ofTwig_append (flags bitmap index : Nat) (T₁ T₂ : List (TrieNode α)) (t : TrieNode α) :
    TrieFrame.ofTwig flags bitmap index (T₁ ++ t :: T₂) T₁.length = ⟨flags, bitmap, index, T₁, T₂⟩ := by
  simp [TrieFrame.ofTwig, List.drop_append]

theorem getElem_append_length (T₁ T₂ : List (TrieNode α)) (t : TrieNode α)
    (h : T₁.length < (T₁ ++ t :: T₂).length) : (T₁ ++ t :: T₂)[T₁.length] = t := by
  simp

/-- The twig of a nibble present in a well-formed branch: at the nibble's offset, between the
twigs of smaller and larger nibbles. -/
theorem split_of_testBit {p v bitmap : Nat} {twigs : List (TrieNode α)}
    (hnib : List.Forall₂ (TwigNib p) (Bitmap.bits 17 bitmap) twigs) (hv : v < 17)
    (hb : bitmap.testBit v) :
    ∃ T₁ t T₂, twigs = T₁ ++ t :: T₂ ∧ T₁.length = twigoff bitmap (2 ^ v) ∧
      List.Forall₂ (TwigNib p) ((Bitmap.bits 17 bitmap).filter (· < v)) T₁ ∧ TwigNib p v t ∧
      List.Forall₂ (TwigNib p) ((Bitmap.bits 17 bitmap).filter (v < ·)) T₂ :=
  Bitmap.forall₂_split_of_testBit hnib hv hb

/-- A key whose nibble at a branch has no twig is not under the branch. -/
theorem keyNib_ne_of_not_testBit {p : Nat} {bitmap : Nat} {twigs : List (TrieNode α)}
    (hnib : List.Forall₂ (TwigNib p) (Bitmap.bits 17 bitmap) twigs) {v : Nat}
    (hb : bitmap.testBit v = false) : ∀ kv ∈ TrieNode.leavesOf twigs, keyNib kv.1 p ≠ v := by
  intro kv hkv heq
  have hmem := keyNib_mem_of_forall₂ hnib kv hkv
  rw [heq, Bitmap.mem_bits, hb] at hmem
  exact Bool.false_ne_true hmem.2

/-- Leaves of the twigs on either side of the twig of nibble `v` have other nibbles. -/
theorem keyNib_ne_of_filter {p : Nat} (v : Nat) {ns : List Nat} {ts : List (TrieNode α)}
    (h : List.Forall₂ (TwigNib p) ns ts) (hns : ∀ n ∈ ns, n ≠ v) :
    ∀ kv ∈ TrieNode.leavesOf ts, keyNib kv.1 p ≠ v :=
  fun kv hkv => hns _ (keyNib_mem_of_forall₂ h kv hkv)

/-! ## The trie and its contents -/

/-- A trie with a well-formed root whose leaves the weight counts, or an empty one. -/
def Trie.Wf (tbl : Trie α) : Prop :=
  tbl.weight = 0 ∨ (tbl.root.Wf ∧ tbl.weight = tbl.root.leaves.length)

/-- The keys and value slots of a trie, in twig order. -/
def Trie.contents (tbl : Trie α) : List (List UInt8 × Option α) :=
  if tbl.weight = 0 then [] else tbl.root.leaves

theorem Trie.contents_of_weight_ne {tbl : Trie α} (h : tbl.weight ≠ 0) : tbl.contents = tbl.root.leaves :=
  if_neg h

theorem Trie.Wf.root {tbl : Trie α} (h : tbl.Wf) (hw : tbl.weight ≠ 0) : tbl.root.Wf :=
  (h.resolve_left hw).1

theorem Trie.Wf.weight_eq {tbl : Trie α} (h : tbl.Wf) : tbl.weight = tbl.contents.length := by
  unfold Trie.contents
  split
  · next hw => exact hw
  · next hw => exact (h.resolve_left hw).2

theorem Trie.Wf.pairwise {tbl : Trie α} (h : tbl.Wf) : tbl.contents.Pairwise KeyLt := by
  unfold Trie.contents
  split
  · exact .nil
  · next hw => exact (h.root hw).pairwise_keyLt

/-- In a list sorted by key, a key is read at its one pair. -/
theorem lookup_eq_of_mem {l : List (List UInt8 × Option α)} (hl : l.Pairwise KeyLt)
    {k : List UInt8} {v : Option α} (hmem : (k, v) ∈ l) : l.lookup k = some v := by
  induction l with
  | nil => cases hmem
  | cons p l ih =>
    obtain ⟨hp, hl⟩ := List.pairwise_cons.1 hl
    rcases List.mem_cons.1 hmem with rfl | hmem
    · simp
    · have hne : k ≠ p.1 := by
        intro hk
        have := hp _ hmem
        rw [KeyLt, hk] at this
        exact keyLt_irrefl p this
      rw [List.lookup_cons, beq_false_of_ne hne]
      exact ih hl hmem

theorem lookup_eq_none_of_forall_ne {l : List (List UInt8 × Option α)} {k : List UInt8}
    (h : ∀ kv ∈ l, kv.1 ≠ k) : l.lookup k = none :=
  List.lookup_eq_none_iff.2 fun kv hkv => bne_iff_ne.2 (Ne.symm (h kv hkv))

/-! ## Finding a leaf -/

/-- A leaf found at the end of `found.path` in `root`, and its bit in the branch above it. -/
structure TrieFound.At (found : TrieFound α) (root : TrieNode α) : Prop where
  plug : plugAll found.path (.leaf found.key found.val) = root
  bit : ∀ p ∈ found.path.head?, found.b = 2 ^ keyNib found.key (nibPos p.flags p.index)

theorem TrieFound.At.mem_leaves {found : TrieFound α} {root : TrieNode α} (h : found.At root) :
    (found.key, found.val) ∈ root.leaves := by
  rw [← h.plug, leaves_plugAll]
  simp

theorem findEqualFrom_spec (key : List UInt8) {t : TrieNode α} (ht : t.Wf) :
    ∀ (path : List (TrieFrame α)) (b : Nat), ∃ r, findEqualFrom key path b t = some r ∧
      (r = none → ∀ kv ∈ t.leaves, kv.1 ≠ key) ∧
      ∀ found, r = some found → found.key = key ∧ ∃ ext, found.path = ext ++ path ∧
        plugAll ext (.leaf found.key found.val) = t ∧ (ext = [] → found.b = b) ∧
        ∀ p ∈ ext.head?, found.b = 2 ^ keyNib key (nibPos p.flags p.index) := by
  induction ht with
  | leaf k v =>
    intro path b
    rw [findEqualFrom]
    by_cases hk : key = k
    · subst hk
      refine ⟨_, rfl, fun hnone => ?_, fun found hfound => ?_⟩
      · simp [keyCmp_eq_eq_iff] at hnone
      · simp only [keyCmp_eq_eq_iff, ne_eq, not_true_eq_false, if_false, Option.some.injEq] at hfound
        subst hfound
        exact ⟨rfl, [], rfl, rfl, fun _ => rfl, fun _ hp => (Option.not_mem_none _ hp).elim⟩
    · refine ⟨none, by simp [keyCmp_eq_eq_iff, hk], fun _ kv hkv => ?_,
        fun _ h => (Option.some_ne_none _ h.symm).elim⟩
      simp only [TrieNode.leaves_leaf, List.mem_singleton] at hkv
      subst hkv
      exact Ne.symm hk
  | @branch flags bitmap index twigs hflags hnib _ _ _ ih =>
    intro path b
    have hv : keyNib key (nibPos flags index) < 17 := Nat.lt_succ_of_le (keyNib_le _ _)
    rw [findEqualFrom]
    simp only [twigbit_eq hflags, hastwig_two_pow]
    cases hbv : bitmap.testBit (keyNib key (nibPos flags index)) with
    | false =>
      refine ⟨none, rfl, fun _ kv hkv hk => ?_, fun _ h => (Option.some_ne_none _ h.symm).elim⟩
      exact keyNib_ne_of_not_testBit hnib hbv kv hkv (by rw [hk])
    | true =>
      obtain ⟨T₁, t, T₂, rfl, hlen, h₁, _, h₂⟩ := split_of_testBit hnib hv hbv
      simp only [Bool.not_true, Bool.false_eq_true, if_false, ← hlen]
      rw [dif_pos (by simp), getElem_append_length, ofTwig_append]
      obtain ⟨r, hr, hnone, hsome⟩ := ih t (by simp) (⟨flags, bitmap, index, T₁, T₂⟩ :: path)
        (2 ^ keyNib key (nibPos flags index))
      refine ⟨r, hr, fun hr kv hkv hk => ?_, fun found hfound => ?_⟩
      · -- the key can only be under the twig of its nibble
        simp only [TrieNode.leaves_branch, TrieNode.leavesOf_append, TrieNode.leavesOf_cons,
          List.mem_append] at hkv
        rcases hkv with hkv | hkv | hkv
        · exact keyNib_ne_of_filter (keyNib key (nibPos flags index)) h₁ (fun n hn => by simp at hn; omega) kv hkv (by rw [hk])
        · exact hnone hr kv hkv hk
        · exact keyNib_ne_of_filter (keyNib key (nibPos flags index)) h₂ (fun n hn => by simp at hn; omega) kv hkv (by rw [hk])
      · obtain ⟨hkey, ext, hpath, hplug, hb, hhead⟩ := hsome found hfound
        refine ⟨hkey, ext ++ [⟨flags, bitmap, index, T₁, T₂⟩], by simp [hpath], ?_, by simp, ?_⟩
        · rw [plugAll_append, hplug]
          rfl
        · intro p hp
          cases ext with
          | nil =>
            simp only [List.nil_append, List.head?_cons, Option.mem_def, Option.some.injEq] at hp
            subst hp
            exact hb rfl
          | cons g ext => exact hhead p (by simpa using hp)

theorem findEqual_spec {tbl : Trie α} (h : tbl.Wf) (key : List UInt8) :
    ∃ r, findEqual tbl key = some r ∧ (r = none → tbl.contents.lookup key = none) ∧
      ∀ found, r = some found → tbl.weight ≠ 0 ∧ found.key = key ∧ found.At tbl.root := by
  unfold findEqual
  by_cases hw : tbl.weight = 0
  · refine ⟨none, by rw [if_pos hw], fun _ => ?_, nofun⟩
    rw [Trie.contents, if_pos hw]
    rfl
  · rw [if_neg hw]
    obtain ⟨r, hr, hnone, hsome⟩ := findEqualFrom_spec key (h.root hw) [] 0
    refine ⟨r, hr, fun hr0 => ?_, fun found hfound => ?_⟩
    · rw [Trie.contents_of_weight_ne hw]
      exact lookup_eq_none_of_forall_ne (hnone hr0)
    · obtain ⟨hkey, ext, hpath, hplug, _, hhead⟩ := hsome found hfound
      rw [List.append_nil] at hpath
      refine ⟨hw, hkey, by rw [hpath]; exact hplug, fun p hp => ?_⟩
      rw [hpath] at hp
      rw [hkey]
      exact hhead p hp

/-- `trie_get_try` reads the slot of a present key and NULL for an absent one. -/
theorem trieGetTry_eq {tbl : Trie α} (h : tbl.Wf) (key : List UInt8) :
    trieGetTry tbl key = some (tbl.contents.lookup key) := by
  obtain ⟨r, hr, hnone, hsome⟩ := findEqual_spec h key
  rw [trieGetTry, hr]
  cases r with
  | none => rw [hnone rfl]; rfl
  | some found =>
    obtain ⟨hw, hkey, hat⟩ := hsome found rfl
    have hmem : (key, found.val) ∈ tbl.contents := by
      rw [Trie.contents_of_weight_ne hw, ← hkey]
      exact hat.mem_leaves
    rw [lookup_eq_of_mem h.pairwise hmem]
    rfl

theorem findFirstFrom_spec {t : TrieNode α} (ht : t.Wf) :
    ∀ path : List (TrieFrame α), ∃ found, findFirstFrom path t = some found ∧ ∃ ext,
      found.path = ext ++ path ∧ plugAll ext (.leaf found.key found.val) = t ∧ pathBefore ext = [] ∧
      (ext = [] → ∀ p ∈ path.head?, found.b = bitmapLowestBit p.bitmap) ∧
      ∀ p ∈ ext.head?, found.b = 2 ^ keyNib found.key (nibPos p.flags p.index) := by
  induction ht with
  | leaf k v =>
    intro path
    refine ⟨⟨path, k, v, _⟩, rfl, [], rfl, rfl, rfl, fun _ p hp => ?_,
      fun _ hp => (Option.not_mem_none _ hp).elim⟩
    cases path with
    | nil => cases hp
    | cons q path =>
      simp only [List.head?_cons, Option.mem_def, Option.some.injEq] at hp
      subst hp
      rfl
  | @branch flags bitmap index twigs hflags hnib htwo _ hsub ih =>
    intro path
    obtain ⟨t₀, ts, rfl⟩ : ∃ t₀ ts, twigs = t₀ :: ts := by
      cases twigs with
      | nil => simp at htwo
      | cons t₀ ts => exact ⟨t₀, ts, rfl⟩
    -- the first twig holds the lowest nibble of the bitmap
    obtain ⟨n₀, ns, hbits, hn₀⟩ : ∃ n₀ ns, Bitmap.bits 17 bitmap = n₀ :: ns ∧
        TwigNib (nibPos flags index) n₀ t₀ := by
      generalize hbs : Bitmap.bits 17 bitmap = bs at hnib
      cases hnib with
      | cons h₀ _ => exact ⟨_, _, rfl, h₀⟩
    rw [findFirstFrom]
    obtain ⟨found, hfound, ext, hpath, hplug, hbefore, hb, hhead⟩ :=
      ih t₀ List.mem_cons_self (⟨flags, bitmap, index, [], ts⟩ :: path)
    refine ⟨found, hfound, ext ++ [⟨flags, bitmap, index, [], ts⟩], by simp [hpath], ?_, ?_, by simp,
      fun p hp => ?_⟩
    · rw [plugAll_append, hplug]
      rfl
    · simp [pathBefore_append, hbefore, pathBefore]
    · cases ext with
      | nil =>
        simp only [List.nil_append, List.head?_cons, Option.mem_def, Option.some.injEq] at hp
        subst hp
        have hkey : keyNib found.key (nibPos flags index) = n₀ :=
          hn₀ (found.key, found.val) (by rw [← hplug]; simp)
        rw [hb rfl _ rfl, bitmapLowestBit, hbits, hkey]
        exact Nat.one_shiftLeft n₀
      | cons g ext => exact hhead p (by simpa using hp)

theorem findFirst_spec {tbl : Trie α} (h : tbl.Wf) :
    (findFirst tbl = some none ∧ tbl.contents = []) ∨
      ∃ found, findFirst tbl = some (some found) ∧ tbl.weight ≠ 0 ∧ found.At tbl.root ∧
        pathBefore found.path = [] := by
  unfold findFirst
  by_cases hw : tbl.weight = 0
  · exact .inl ⟨by rw [if_pos hw], by rw [Trie.contents, if_pos hw]⟩
  · obtain ⟨found, hfound, ext, hpath, hplug, hbefore, _, hhead⟩ := findFirstFrom_spec (h.root hw) []
    rw [List.append_nil] at hpath
    refine .inr ⟨found, by rw [if_neg hw, hfound]; rfl, hw, ⟨by rw [hpath]; exact hplug, ?_⟩, by
      rw [hpath]; exact hbefore⟩
    rw [hpath]
    exact hhead

theorem contents_of_found {tbl : Trie α} {found : TrieFound α} (hw : tbl.weight ≠ 0)
    (hat : found.At tbl.root) :
    tbl.contents = pathBefore found.path ++ (found.key, found.val) :: pathAfter found.path := by
  rw [Trie.contents_of_weight_ne hw, ← hat.plug, leaves_plugAll]
  simp

/-- `trie_get_first` reads the first key and its slot. -/
theorem trieGetFirst_eq {tbl : Trie α} (h : tbl.Wf) : trieGetFirst tbl = some tbl.contents.head? := by
  rw [trieGetFirst]
  rcases findFirst_spec h with ⟨hfirst, hnil⟩ | ⟨found, hfirst, hw, hat, hbefore⟩
  · rw [hfirst, hnil]
    rfl
  · rw [hfirst, contents_of_found hw hat, hbefore]
    rfl

/-! ## Deletion -/

/-- The trie after the leaf under the frame `p` is unlinked, `n'` taking the place of `p`'s
branch with the leaf's siblings. -/
theorem unlink_spec {tbl : Trie α} (h : tbl.Wf) (hw : tbl.weight ≠ 0) {p : TrieFrame α}
    {path : List (TrieFrame α)} {k : List UInt8} {v : Option α}
    (hroot : plugAll (p :: path) (.leaf k v) = tbl.root) {n' : TrieNode α} (hn' : n'.Wf)
    (hleaves : n'.leaves = TrieNode.leavesOf p.before ++ TrieNode.leavesOf p.after) :
    (Trie.mk (plugAll path n') (tbl.weight - 1)).Wf ∧
      (Trie.mk (plugAll path n') (tbl.weight - 1)).contents =
        pathBefore (p :: path) ++ pathAfter (p :: path) := by
  have hroot' : (plugAll path (p.plug (.leaf k v))).Wf := by
    rw [← plugAll_cons, hroot]
    exact h.root hw
  have hsub : n'.leaves ⊆ (p.plug (.leaf k v)).leaves := by
    rw [hleaves, TrieFrame.leaves_plug]
    intro kv hkv
    simp only [List.mem_append] at hkv ⊢
    tauto
  have hleaves' : (plugAll path n').leaves = pathBefore (p :: path) ++ pathAfter (p :: path) := by
    rw [leaves_plugAll, hleaves]
    simp [pathBefore, pathAfter]
  have hweight : tbl.weight = (pathBefore (p :: path) ++ pathAfter (p :: path)).length + 1 := by
    rw [(h.resolve_left hw).2, ← hroot, leaves_plugAll]
    simp
    omega
  have hpos : 0 < (pathBefore (p :: path) ++ pathAfter (p :: path)).length := by
    rw [← hleaves', leaves_plugAll, List.length_append, List.length_append]
    have := List.length_pos_of_ne_nil hn'.leaves_ne_nil
    omega
  have hw' : tbl.weight - 1 ≠ 0 := by omega
  refine ⟨.inr ⟨TrieNode.Wf.plugAll_subset hroot' hn' hsub, ?_⟩, ?_⟩
  · show tbl.weight - 1 = (plugAll path n').leaves.length
    rw [hleaves']
    omega
  · rw [Trie.contents_of_weight_ne hw']
    exact hleaves'

/-- The bitmap mask `~b` of `del_found` covers every twig. -/
theorem testBit_mask : ∀ i < 17, (0xffffffff : Nat).testBit i = true := by decide

/-- `del_found` unlinks the leaf found: the trie keeps its shape and loses that leaf. -/
theorem delFound_spec {tbl : Trie α} (h : tbl.Wf) (hw : tbl.weight ≠ 0) {found : TrieFound α}
    (hat : found.At tbl.root) :
    ∃ tbl', delFound tbl (some found) = some (.ok (tbl', found.val)) ∧ tbl'.Wf ∧
      tbl'.contents = pathBefore found.path ++ pathAfter found.path := by
  obtain ⟨hplug, hbit⟩ := hat
  simp only [delFound]
  split
  · next hpath =>
    -- the root was the only leaf
    have hone : tbl.weight = 1 := by
      rw [(h.resolve_left hw).2, ← hplug, hpath]
      rfl
    rw [if_pos (by omega)]
    refine ⟨_, rfl, .inl (by simp only; omega), ?_⟩
    rw [Trie.contents, if_pos (by simp only; omega), hpath]
    rfl
  · next p path hpath =>
    rw [hpath]
    have hroot : plugAll (p :: path) (.leaf found.key found.val) = tbl.root := hpath ▸ hplug
    have hf : (p.plug (.leaf found.key found.val)).Wf := by
      have : (plugAll path (p.plug (.leaf found.key found.val))).Wf := by
        rw [← plugAll_cons, hroot]
        exact h.root hw
      exact TrieNode.Wf.of_plugAll this
    have hf' : (TrieNode.branch p.flags p.bitmap p.index
        (p.before ++ .leaf found.key found.val :: p.after)).Wf := hf
    cases hf' with
    | branch hflags hnib htwo hagree hsub =>
      obtain ⟨l₁, m, l₂, hbits, hl₁, h₁, hm, h₂⟩ := Bitmap.forall₂_append_cons_right hnib
      have hmk : keyNib found.key (nibPos p.flags p.index) = m := hm (found.key, found.val) (by simp)
      have hb : found.b = 2 ^ m := by
        rw [hbit p (by rw [hpath]; rfl), hmk]
      have hcc : bitmapWeight p.bitmap = p.before.length + 1 + p.after.length := by
        rw [bitmapWeight, Bitmap.weight, hbits, ← hl₁, ← h₂.length_eq]
        simp
        omega
      rw [if_pos (by omega)]
      split
      · -- a binary branch collapses into the other twig
        next h2 =>
        obtain ⟨o, ho, hmem, hleaves⟩ : ∃ o, (p.before ++ .leaf found.key found.val :: p.after)[1 - p.before.length]? = some o ∧
            o ∈ p.before ++ p.after ∧ o.leaves = TrieNode.leavesOf p.before ++ TrieNode.leavesOf p.after := by
          -- the other twig is alone in `p.before` or in `p.after`
          cases hb0 : p.before with
          | nil =>
            cases ha0 : p.after with
            | nil => rw [hb0, ha0] at hcc; simp at hcc; omega
            | cons o as =>
              cases as with
              | nil => exact ⟨o, rfl, by simp, by simp⟩
              | cons _ _ => rw [hb0, ha0] at hcc; simp at hcc; omega
          | cons o bs =>
            cases bs with
            | nil =>
              cases ha0 : p.after with
              | nil => exact ⟨o, rfl, by simp, by simp⟩
              | cons _ _ => rw [hb0, ha0] at hcc; simp at hcc; omega
            | cons _ _ => rw [hb0] at hcc; simp at hcc; omega
        rw [ho]
        have ho' : o.Wf := hsub o (by simp only [List.mem_append, List.mem_cons] at hmem ⊢; tauto)
        exact ⟨_, rfl, unlink_spec h hw hroot ho' hleaves⟩
      · -- the leaf's twig is removed and its bit cleared
        next h2 =>
        have hsorted : (l₁ ++ m :: l₂).Pairwise (· < ·) := hbits ▸ Bitmap.bits_pairwise 17 p.bitmap
        have hclear : Bitmap.bits 17 (p.bitmap &&& (0xffffffff ^^^ found.b)) = l₁ ++ l₂ := by
          rw [hb, Bitmap.bits_and_xor_two_pow testBit_mask, hbits,
            (Bitmap.filter_of_pairwise hsorted).1, (Bitmap.filter_of_pairwise hsorted).2]
        have hn' : (TrieNode.branch p.flags (p.bitmap &&& (0xffffffff ^^^ found.b)) p.index
            (p.before ++ p.after)).Wf := by
          refine .branch hflags (hclear ▸ List.rel_append h₁ h₂) ?_ (fun kv hkv kv' hkv' => ?_)
            (fun t ht => hsub t ?_)
          · simp only [List.length_append, List.length_cons] at htwo ⊢
            omega
          · exact hagree kv (by simp at hkv ⊢; tauto) kv' (by simp at hkv' ⊢; tauto)
          · simp only [List.mem_append, List.mem_cons] at ht ⊢
            tauto
        exact ⟨_, rfl, unlink_spec h hw hroot hn' (by simp)⟩

/-- In a list sorted by key, the other pairs have other keys. -/
theorem key_ne_of_pairwise {A B : List (List UInt8 × Option α)} {k : List UInt8} {v : Option α}
    (h : (A ++ (k, v) :: B).Pairwise KeyLt) : ∀ kv ∈ A ++ B, kv.1 ≠ k := by
  obtain ⟨_, hB, hcross⟩ := List.pairwise_append.1 h
  intro kv hkv hk
  rcases List.mem_append.1 hkv with hkv | hkv
  · have := hcross kv hkv (k, v) List.mem_cons_self
    rw [KeyLt, hk] at this
    exact keyLt_irrefl (k, v) this
  · have := List.rel_of_pairwise_cons hB hkv
    rw [KeyLt, hk] at this
    exact keyLt_irrefl (k, v) this

/-- Dropping a key from a list sorted by key drops its one pair. -/
theorem filter_key_ne {A B : List (List UInt8 × Option α)} {k : List UInt8} {v : Option α}
    (h : (A ++ (k, v) :: B).Pairwise KeyLt) : (A ++ (k, v) :: B).filter (·.1 != k) = A ++ B := by
  have hne := key_ne_of_pairwise h
  rw [List.filter_append, List.filter_cons,
    List.filter_eq_self.2 (by simpa using fun kv hkv => hne kv (List.mem_append_left _ hkv)),
    List.filter_eq_self.2 (by simpa using fun kv hkv => hne kv (List.mem_append_right _ hkv))]
  simp

/-- `trie_del` removes a present key and reports `KNOT_ENOENT` for an absent one. -/
theorem trieDel_spec {tbl : Trie α} (h : tbl.Wf) (key : List UInt8) :
    ∃ r, trieDel tbl key = some r ∧
      (∀ e, r = .error e → e = knotEnoent ∧ tbl.contents.lookup key = none) ∧
      ∀ tbl' v, r = .ok (tbl', v) → tbl.contents.lookup key = some v ∧ tbl'.Wf ∧
        tbl'.contents = tbl.contents.filter (·.1 != key) := by
  obtain ⟨r, hr, hnone, hsome⟩ := findEqual_spec h key
  rw [trieDel, hr, Option.bind_some]
  cases r with
  | none =>
    refine ⟨_, rfl, fun e he => ?_, nofun⟩
    cases he
    exact ⟨rfl, hnone rfl⟩
  | some found =>
    obtain ⟨hw, hkey, hat⟩ := hsome found rfl
    obtain ⟨tbl', hdel, hwf, hcontents⟩ := delFound_spec h hw hat
    have hold := contents_of_found hw hat
    refine ⟨_, hdel, nofun, fun t v hv => ?_⟩
    cases hv
    refine ⟨?_, hwf, ?_⟩
    · rw [← hkey]
      exact lookup_eq_of_mem h.pairwise (by rw [hold]; simp)
    · have hs := h.pairwise
      rw [hold] at hs ⊢
      rw [hcontents, ← hkey, filter_key_ne hs]

/-- `trie_del_first` removes the first key, copying it out when the buffer has room. -/
theorem trieDelFirst_spec {tbl : Trie α} (h : tbl.Wf) (key : Bool) (len : Option Nat) :
    ∃ r, trieDelFirst tbl key len = some r ∧
      (tbl.contents = [] → r = .error knotEnoent) ∧
      ∀ k v rest, tbl.contents = (k, v) :: rest →
        (key = true ∧ len = none ∧ r = .error knotEinval) ∨
        (key = true ∧ (∃ room, len = some room ∧ room < k.length) ∧ r = .error (krError ENOSPC)) ∨
        ((key = true → ∃ room, len = some room ∧ k.length ≤ room) ∧
          ∃ tbl', r = .ok (tbl', k, v) ∧ tbl'.Wf ∧ tbl'.contents = rest) := by
  rw [trieDelFirst]
  rcases findFirst_spec h with ⟨hfirst, hnil⟩ | ⟨found, hfirst, hw, hat, hbefore⟩
  · rw [hfirst, Option.bind_some]
    refine ⟨_, rfl, fun _ => rfl, fun k v rest hkv => ?_⟩
    rw [hnil] at hkv
    cases hkv
  · rw [hfirst, Option.bind_some]
    dsimp only
    obtain ⟨tbl', hdel, hwf, hcontents⟩ := delFound_spec h hw hat
    have hold := contents_of_found hw hat
    rw [hbefore, List.nil_append] at hold
    rw [hbefore, List.nil_append] at hcontents
    have hok : ∃ tbl'', (delFound tbl (some found)).map
        (Except.map fun r => (r.1, found.key, r.2)) = some (.ok (tbl'', found.key, found.val)) ∧
        tbl''.Wf ∧ tbl''.contents = pathAfter found.path :=
      ⟨tbl', by rw [hdel]; rfl, hwf, hcontents⟩
    have hcase : ∀ k v rest, tbl.contents = (k, v) :: rest →
        k = found.key ∧ v = found.val ∧ rest = pathAfter found.path := by
      intro k v rest hkv
      rw [hold] at hkv
      simp only [List.cons.injEq, Prod.mk.injEq] at hkv
      exact ⟨hkv.1.1.symm, hkv.1.2.symm, hkv.2.symm⟩
    have hne : tbl.contents ≠ [] := by
      rw [hold]
      exact List.cons_ne_nil _ _
    cases key with
    | false =>
      rw [if_neg Bool.false_ne_true]
      obtain ⟨tbl'', hr, hwf', hc⟩ := hok
      refine ⟨_, hr, fun hnil => absurd hnil hne, fun k v rest hkv => ?_⟩
      obtain ⟨rfl, rfl, rfl⟩ := hcase k v rest hkv
      exact .inr (.inr ⟨nofun, tbl'', rfl, hwf', hc⟩)
    | true =>
      rw [if_pos rfl]
      cases len with
      | none =>
        exact ⟨_, rfl, fun hnil => absurd hnil hne, fun k v rest hkv => .inl ⟨rfl, rfl, rfl⟩⟩
      | some room =>
        dsimp only
        split
        · next hroom =>
          refine ⟨_, rfl, fun hnil => absurd hnil hne, fun k v rest hkv => ?_⟩
          obtain ⟨rfl, rfl, rfl⟩ := hcase k v rest hkv
          exact .inr (.inl ⟨rfl, ⟨room, rfl, hroom⟩, rfl⟩)
        · next hroom =>
          obtain ⟨tbl'', hr, hwf', hc⟩ := hok
          refine ⟨_, hr, fun hnil => absurd hnil hne, fun k v rest hkv => ?_⟩
          obtain ⟨rfl, rfl, rfl⟩ := hcase k v rest hkv
          exact .inr (.inr ⟨fun _ => ⟨room, rfl, Nat.le_of_not_lt hroom⟩, tbl'', rfl, hwf', hc⟩)

end KnotResolver.Generic
