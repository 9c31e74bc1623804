import KnotResolver.Generic.TrieKey

/-!
# The shape of a qp-trie

`TrieNode.Wf` is the invariant the comment on `branch_t` states: a branch tests a nibble
(`flags` 1 or 2), has at least two twigs, one for each bit of its bitmap and in bit order, the
keys under each twig have that twig's nibble at the branch's position, and all keys under the
branch agree before that position.

From it: the leaves are in strictly increasing key order (`Wf.pairwise_keyLt`), so the keys
are distinct; the position tested grows downward (`Wf.nibPos_lt`); and a twig may be replaced
by a well-formed node whose keys are near those it replaces, up to a position below every
branch above it, which is how insertion and deletion keep the shape (`Wf.plugAll_replace`).
-/

namespace KnotResolver.Generic

variable {α : Type u}

mutual
/-- The leaves under a node, in the order of the twigs. -/
def TrieNode.leaves : TrieNode α → List (List UInt8 × Option α)
  | .leaf k v => [(k, v)]
  | .branch _ _ _ twigs => TrieNode.leavesOf twigs

/-- The leaves under a list of twigs. -/
def TrieNode.leavesOf : List (TrieNode α) → List (List UInt8 × Option α)
  | [] => []
  | t :: twigs => t.leaves ++ TrieNode.leavesOf twigs
end

/-- Pairs in the order of their keys: unsigned bytes, a proper prefix first. -/
def KeyLt {β : Type v} (a b : List UInt8 × β) : Prop := a.1.compareLex compare b.1 = .lt

/-- The keys under a twig have nibble `n` at position `p`. -/
def TwigNib (p n : Nat) (t : TrieNode α) : Prop := ∀ kv ∈ t.leaves, keyNib kv.1 p = n

/-- A well-formed subtrie. -/
inductive TrieNode.Wf : TrieNode α → Prop
  | leaf (key : List UInt8) (val : Option α) : Wf (.leaf key val)
  | branch {flags bitmap index : Nat} {twigs : List (TrieNode α)}
      (hflags : flags = 1 ∨ flags = 2)
      (hnib : List.Forall₂ (TwigNib (nibPos flags index)) (Bitmap.bits 17 bitmap) twigs)
      (htwo : 2 ≤ twigs.length)
      (hagree : ∀ kv ∈ TrieNode.leavesOf twigs, ∀ kv' ∈ TrieNode.leavesOf twigs,
        AgreeBelow (nibPos flags index) kv.1 kv'.1)
      (hsub : ∀ t ∈ twigs, Wf t) :
      Wf (.branch flags bitmap index twigs)

/-! ## Leaves -/

namespace TrieNode

@[simp] theorem leaves_leaf (k : List UInt8) (v : Option α) : (TrieNode.leaf k v).leaves = [(k, v)] := by
  rw [leaves]

@[simp] theorem leaves_branch (flags bitmap index : Nat) (twigs : List (TrieNode α)) :
    (TrieNode.branch flags bitmap index twigs).leaves = leavesOf twigs := by
  rw [leaves]

@[simp] theorem leavesOf_nil : leavesOf ([] : List (TrieNode α)) = [] := by
  rw [leavesOf]

@[simp] theorem leavesOf_cons (t : TrieNode α) (twigs : List (TrieNode α)) :
    leavesOf (t :: twigs) = t.leaves ++ leavesOf twigs := by
  rw [leavesOf]

@[simp] theorem leavesOf_append (ts ts' : List (TrieNode α)) :
    leavesOf (ts ++ ts') = leavesOf ts ++ leavesOf ts' := by
  induction ts with
  | nil => simp
  | cons t ts ih => simp [ih]

end TrieNode

@[simp] theorem TrieFrame.leaves_plug (f : TrieFrame α) (t : TrieNode α) :
    (f.plug t).leaves = TrieNode.leavesOf f.before ++ t.leaves ++ TrieNode.leavesOf f.after := by
  simp [TrieFrame.plug]

/-- The leaves left of a path, outermost first. -/
def pathBefore : List (TrieFrame α) → List (List UInt8 × Option α)
  | [] => []
  | f :: fs => pathBefore fs ++ TrieNode.leavesOf f.before

/-- The leaves right of a path, innermost first. -/
def pathAfter : List (TrieFrame α) → List (List UInt8 × Option α)
  | [] => []
  | f :: fs => TrieNode.leavesOf f.after ++ pathAfter fs

@[simp] theorem plugAll_nil (t : TrieNode α) : plugAll [] t = t := rfl

@[simp] theorem plugAll_cons (f : TrieFrame α) (fs : List (TrieFrame α)) (t : TrieNode α) :
    plugAll (f :: fs) t = plugAll fs (f.plug t) := rfl

theorem plugAll_append (fs gs : List (TrieFrame α)) (t : TrieNode α) :
    plugAll (fs ++ gs) t = plugAll gs (plugAll fs t) := by
  induction fs generalizing t with
  | nil => rfl
  | cons f fs ih => exact ih (f.plug t)

theorem pathBefore_append (fs gs : List (TrieFrame α)) :
    pathBefore (fs ++ gs) = pathBefore gs ++ pathBefore fs := by
  induction fs with
  | nil => simp [pathBefore]
  | cons f fs ih => simp [pathBefore, ih]

theorem pathAfter_append (fs gs : List (TrieFrame α)) :
    pathAfter (fs ++ gs) = pathAfter fs ++ pathAfter gs := by
  induction fs with
  | nil => simp [pathAfter]
  | cons f fs ih => simp [pathAfter, ih]

theorem leaves_plugAll (path : List (TrieFrame α)) (t : TrieNode α) :
    (plugAll path t).leaves = pathBefore path ++ t.leaves ++ pathAfter path := by
  induction path generalizing t with
  | nil => simp [pathBefore, pathAfter]
  | cons f fs ih => simp [ih, pathBefore, pathAfter]

/-! ## Twigs and nibbles -/

/-- Each leaf under twigs in step with nibbles has one of those nibbles. -/
theorem keyNib_mem_of_forall₂ {p : Nat} :
    ∀ {ns : List Nat} {ts : List (TrieNode α)}, List.Forall₂ (TwigNib p) ns ts →
      ∀ kv ∈ TrieNode.leavesOf ts, keyNib kv.1 p ∈ ns
  | [], [], .nil, kv, hkv => by simp at hkv
  | n :: ns, t :: ts, .cons hn hrest, kv, hkv => by
    rcases List.mem_append.1 (by simpa using hkv) with hkv | hkv
    · rw [hn kv hkv]
      exact List.mem_cons_self
    · exact List.mem_cons_of_mem _ (keyNib_mem_of_forall₂ hrest kv hkv)

theorem keyLt_irrefl {β : Type v} (a : List UInt8 × β) : ¬ KeyLt a a := by
  rw [KeyLt, show a.1.compareLex compare a.1 = .eq from Std.ReflCmp.compare_self]
  nofun

/-- Twigs in step with increasing nibbles, sorted within, are sorted together. -/
theorem pairwise_leavesOf {p : Nat} :
    ∀ {ns : List Nat} {ts : List (TrieNode α)}, ns.Pairwise (· < ·) →
      List.Forall₂ (TwigNib p) ns ts → (∀ t ∈ ts, t.leaves.Pairwise KeyLt) →
      (∀ kv ∈ TrieNode.leavesOf ts, ∀ kv' ∈ TrieNode.leavesOf ts, AgreeBelow p kv.1 kv'.1) →
      (TrieNode.leavesOf ts).Pairwise KeyLt
  | [], [], _, .nil, _, _ => by simp
  | n :: ns, t :: ts, hsorted, .cons hn hrest, hsub, hagree => by
    obtain ⟨hlt, hsorted⟩ := List.pairwise_cons.1 hsorted
    have hagree' : ∀ kv ∈ TrieNode.leavesOf ts, ∀ kv' ∈ TrieNode.leavesOf ts,
        AgreeBelow p kv.1 kv'.1 := fun kv hkv kv' hkv' =>
      hagree kv (by simp [hkv]) kv' (by simp [hkv'])
    rw [TrieNode.leavesOf_cons, List.pairwise_append]
    refine ⟨hsub t List.mem_cons_self,
      pairwise_leavesOf hsorted hrest (fun t' ht' => hsub t' (List.mem_cons_of_mem _ ht')) hagree',
      fun kv hkv kv' hkv' => ?_⟩
    refine compareLex_eq_lt_of_keyNib (hagree kv (by simp [hkv]) kv' (by simp [hkv'])) ?_
    rw [hn kv hkv]
    exact hlt _ (keyNib_mem_of_forall₂ hrest kv' hkv')

/-- Each key under `t'` agrees before `Q` with some key under `t`. -/
def NearBelow (Q : Nat) (t' t : TrieNode α) : Prop :=
  ∀ kv' ∈ t'.leaves, ∃ kv ∈ t.leaves, AgreeBelow Q kv'.1 kv.1

theorem NearBelow.mono {Q Q' : Nat} {t' t : TrieNode α} (h : NearBelow Q t' t) (hQ : Q' ≤ Q) :
    NearBelow Q' t' t := fun kv' hkv' =>
  let ⟨kv, hkv, hag⟩ := h kv' hkv'
  ⟨kv, hkv, hag.mono hQ⟩

theorem NearBelow.of_subset {Q : Nat} {t' t : TrieNode α} (h : t'.leaves ⊆ t.leaves) :
    NearBelow Q t' t :=
  fun kv' hkv' => ⟨kv', h hkv', AgreeBelow.refl _ _⟩

theorem NearBelow.plug {Q : Nat} {t' t : TrieNode α} (h : NearBelow Q t' t) (f : TrieFrame α) :
    NearBelow Q (f.plug t') (f.plug t) := by
  intro kv' hkv'
  simp only [TrieFrame.leaves_plug, List.mem_append] at hkv'
  rcases hkv' with (hkv' | hkv') | hkv'
  · exact ⟨kv', by simp [hkv'], AgreeBelow.refl _ _⟩
  · obtain ⟨kv, hkv, hag⟩ := h kv' hkv'
    exact ⟨kv, by simp [hkv], hag⟩
  · exact ⟨kv', by simp [hkv'], AgreeBelow.refl _ _⟩

/-! ## Consequences of the shape -/

namespace TrieNode.Wf

theorem flags {flags bitmap index : Nat} {twigs : List (TrieNode α)}
    (h : (TrieNode.branch flags bitmap index twigs).Wf) : flags = 1 ∨ flags = 2 := by
  cases h with
  | branch hflags => exact hflags

theorem leaves_ne_nil {t : TrieNode α} (h : t.Wf) : t.leaves ≠ [] := by
  induction h with
  | leaf => simp
  | @branch flags bitmap index twigs _ _ htwo _ _ ih =>
    obtain ⟨t, ts, rfl⟩ : ∃ t ts, twigs = t :: ts := by
      cases twigs with
      | nil => simp at htwo
      | cons t ts => exact ⟨t, ts, rfl⟩
    rw [leaves_branch, leavesOf_cons]
    exact fun h => ih t List.mem_cons_self (List.append_eq_nil_iff.1 h).1

/-- The leaves are in strictly increasing key order. -/
theorem pairwise_keyLt {t : TrieNode α} (h : t.Wf) : t.leaves.Pairwise KeyLt := by
  induction h with
  | leaf => simp
  | branch _ hnib _ hagree _ ih =>
    rw [leaves_branch]
    exact pairwise_leavesOf (Bitmap.bits_pairwise 17 _) hnib ih hagree

theorem of_plug {f : TrieFrame α} {t : TrieNode α} (h : (f.plug t).Wf) : t.Wf := by
  cases h with
  | branch _ _ _ _ hsub => exact hsub t (by simp)

theorem of_plugAll {path : List (TrieFrame α)} {t : TrieNode α} (h : (plugAll path t).Wf) : t.Wf := by
  induction path generalizing t with
  | nil => exact h
  | cons f fs ih => exact of_plug (ih h)

/-- What a frame of a well-formed path says about the node in its place: the keys under it
share the nibble of its slot, and agree with the rest of the branch before the branch's
position. -/
theorem plug_nib {f : TrieFrame α} {t : TrieNode α} (h : (f.plug t).Wf) :
    (f.flags = 1 ∨ f.flags = 2) ∧
      ∃ n, (Bitmap.bits 17 f.bitmap)[f.before.length]? = some n ∧
        TwigNib (nibPos f.flags f.index) n t := by
  cases h with
  | branch hflags hnib _ _ _ =>
    obtain ⟨l₁, n, l₂, hbits, hlen, _, hn, _⟩ := Bitmap.forall₂_append_cons_right hnib
    refine ⟨hflags, n, ?_, hn⟩
    rw [hbits, ← hlen]
    simp

theorem plug_agree {f : TrieFrame α} {t : TrieNode α} (h : (f.plug t).Wf) :
    ∀ kv ∈ (f.plug t).leaves, ∀ kv' ∈ (f.plug t).leaves,
      AgreeBelow (nibPos f.flags f.index) kv.1 kv'.1 := by
  cases h with
  | branch _ _ _ hagree _ =>
    simpa [TrieFrame.plug] using hagree

theorem nib {flags bitmap index : Nat} {twigs : List (TrieNode α)}
    (h : (TrieNode.branch flags bitmap index twigs).Wf) :
    List.Forall₂ (TwigNib (nibPos flags index)) (Bitmap.bits 17 bitmap) twigs := by
  cases h with
  | branch _ hnib _ _ _ => exact hnib

theorem sub {flags bitmap index : Nat} {twigs : List (TrieNode α)}
    (h : (TrieNode.branch flags bitmap index twigs).Wf) : ∀ t ∈ twigs, t.Wf := by
  cases h with
  | branch _ _ _ _ hsub => exact hsub

/-- The bitmap of a branch counts its twigs. -/
theorem plug_weight {f : TrieFrame α} {t : TrieNode α} (h : (f.plug t).Wf) :
    bitmapWeight f.bitmap = f.before.length + 1 + f.after.length := by
  rw [bitmapWeight, Bitmap.weight, (nib h).length_eq]
  simp only [List.length_append, List.length_cons]
  omega

theorem agree {flags bitmap index : Nat} {twigs : List (TrieNode α)}
    (h : (TrieNode.branch flags bitmap index twigs).Wf) :
    ∀ kv ∈ TrieNode.leavesOf twigs, ∀ kv' ∈ TrieNode.leavesOf twigs,
      AgreeBelow (nibPos flags index) kv.1 kv'.1 := by
  cases h with
  | branch _ _ _ hagree _ => exact hagree

/-- Under a branch there are keys with different nibbles at its position. -/
theorem exists_keyNib_ne {flags bitmap index : Nat} {twigs : List (TrieNode α)}
    (h : (TrieNode.branch flags bitmap index twigs).Wf) :
    ∃ kv ∈ TrieNode.leavesOf twigs, ∃ kv' ∈ TrieNode.leavesOf twigs,
      keyNib kv.1 (nibPos flags index) ≠ keyNib kv'.1 (nibPos flags index) := by
  cases h with
  | branch _ hnib htwo _ hsub =>
    -- the first two twigs, with the two lowest nibbles of the bitmap
    obtain ⟨t₀, t₁, ts, rfl⟩ : ∃ t₀ t₁ ts, twigs = t₀ :: t₁ :: ts := by
      match twigs, htwo with
      | t₀ :: t₁ :: ts, _ => exact ⟨t₀, t₁, ts, rfl⟩
    obtain ⟨n₀, n₁, ns, hbits, hn₀, hn₁⟩ : ∃ n₀ n₁ ns, Bitmap.bits 17 bitmap = n₀ :: n₁ :: ns ∧
        TwigNib (nibPos flags index) n₀ t₀ ∧ TwigNib (nibPos flags index) n₁ t₁ := by
      generalize Bitmap.bits 17 bitmap = bs at hnib
      cases hnib with
      | cons h₀ hrest =>
        cases hrest with
        | cons h₁ _ => exact ⟨_, _, _, rfl, h₀, h₁⟩
    have hlt : n₀ < n₁ := by
      have := Bitmap.bits_pairwise 17 bitmap
      rw [hbits] at this
      exact List.rel_of_pairwise_cons this List.mem_cons_self
    obtain ⟨kv₀, hkv₀⟩ := List.exists_mem_of_ne_nil _ (leaves_ne_nil (hsub t₀ (by simp)))
    obtain ⟨kv₁, hkv₁⟩ := List.exists_mem_of_ne_nil _ (leaves_ne_nil (hsub t₁ (by simp)))
    refine ⟨kv₀, by simp [hkv₀], kv₁, by simp [hkv₁], ?_⟩
    rw [hn₀ kv₀ hkv₀, hn₁ kv₁ hkv₁]
    exact Nat.ne_of_lt hlt

/-- The position tested grows downward. -/
theorem nibPos_lt {f : TrieFrame α} {flags bitmap index : Nat} {twigs : List (TrieNode α)}
    (h : (f.plug (.branch flags bitmap index twigs)).Wf) :
    nibPos f.flags f.index < nibPos flags index := by
  obtain ⟨_, n, _, hnc⟩ := plug_nib h
  have hagree := plug_agree h
  obtain ⟨kv₀, hkv₀, kv₁, hkv₁, hne⟩ := exists_keyNib_ne (of_plug h)
  -- the child's keys lie in one twig of the frame's branch
  have hmem : ∀ kv ∈ TrieNode.leavesOf twigs, kv ∈ (f.plug (.branch flags bitmap index twigs)).leaves :=
    fun kv hkv => by simp [hkv]
  have hn : ∀ kv ∈ TrieNode.leavesOf twigs, keyNib kv.1 (nibPos f.flags f.index) = n :=
    fun kv hkv => hnc kv (by simpa using hkv)
  by_contra hge
  rcases Nat.lt_or_eq_of_le (Nat.le_of_not_lt hge) with hlt | heq
  · exact hne (hagree kv₀ (hmem kv₀ hkv₀) kv₁ (hmem kv₁ hkv₁) _ hlt)
  · apply hne
    rw [heq, hn kv₀ hkv₀, hn kv₁ hkv₁]

/-- A twig replaced by a well-formed node whose keys agree with keys of the old twig before
`Q`, a position after the branch's. -/
theorem replace {f : TrieFrame α} {t t' : TrieNode α} {Q : Nat} (h : (f.plug t).Wf) (ht' : t'.Wf)
    (hpos : nibPos f.flags f.index < Q) (hnear : NearBelow Q t' t) : (f.plug t').Wf := by
  have hagree := plug_agree h
  have hnear' := (hnear.plug f).mono (Nat.le_of_lt hpos)
  cases h with
  | branch hflags hnib htwo _ hsub =>
    obtain ⟨l₁, n, l₂, hbits, _, h₁, hn, h₂⟩ := Bitmap.forall₂_append_cons_right hnib
    refine .branch hflags ?_ (by simpa using htwo) ?_ ?_
    · rw [hbits]
      refine Bitmap.forall₂_append_cons h₁ (fun kv' hkv' => ?_) h₂
      obtain ⟨kv, hkv, hag⟩ := hnear kv' hkv'
      rw [hag _ hpos]
      exact hn kv hkv
    · intro kv₁ hkv₁ kv₂ hkv₂
      obtain ⟨k₁, hk₁, hag₁⟩ := hnear' kv₁ (by simpa [TrieFrame.plug] using hkv₁)
      obtain ⟨k₂, hk₂, hag₂⟩ := hnear' kv₂ (by simpa [TrieFrame.plug] using hkv₂)
      exact (hag₁.trans (hagree k₁ hk₁ k₂ hk₂)).trans hag₂.symm
    · intro s hs
      simp only [List.mem_append, List.mem_cons] at hs
      rcases hs with hs | rfl | hs
      · exact hsub s (by simp [hs])
      · exact ht'
      · exact hsub s (by simp [hs])

/-- A node replaced below a whole path whose branches all test positions before `Q`. -/
theorem plugAll_replace {Q : Nat} :
    ∀ {path : List (TrieFrame α)} {t t' : TrieNode α}, (plugAll path t).Wf → t'.Wf →
      (∀ f ∈ path, nibPos f.flags f.index < Q) → NearBelow Q t' t → (plugAll path t').Wf
  | [], _, _, _, ht', _, _ => ht'
  | f :: fs, t, t', h, ht', hpos, hnear => by
    have h' : (plugAll fs (f.plug t)).Wf := h
    have hf' : (f.plug t').Wf := replace (of_plugAll h') ht' (hpos f List.mem_cons_self) hnear
    have := plugAll_replace h' hf' (fun g hg => hpos g (List.mem_cons_of_mem _ hg)) (hnear.plug f)
    exact this

theorem exists_nibPos_bound (path : List (TrieFrame α)) :
    ∃ Q, ∀ f ∈ path, nibPos f.flags f.index < Q := by
  induction path with
  | nil => exact ⟨0, nofun⟩
  | cons f fs ih =>
    obtain ⟨Q, hQ⟩ := ih
    refine ⟨max Q (nibPos f.flags f.index + 1), fun g hg => ?_⟩
    rcases List.mem_cons.1 hg with rfl | hg
    · omega
    · have := hQ g hg
      omega

/-- A node replaced below a path by a well-formed node with some of its leaves. -/
theorem plugAll_subset {path : List (TrieFrame α)} {t t' : TrieNode α} (h : (plugAll path t).Wf)
    (ht' : t'.Wf) (hsub : t'.leaves ⊆ t.leaves) : (plugAll path t').Wf :=
  let ⟨_, hQ⟩ := exists_nibPos_bound path
  plugAll_replace h ht' hQ (NearBelow.of_subset hsub)

end TrieNode.Wf

end KnotResolver.Generic
