import KnotResolver.SortedMap
import KnotResolver.Generic.TrieOps

/-!
# Insertion into a well-formed qp-trie

`ns_find_branch` descends along the key's nibbles to some leaf, taking the first twig wherever the
key's nibble has none, so the leaf agrees with the key at every branch whose twig the key has.
The first nibble where the two keys differ is the position `Q` where the new leaf branches off.
The climb back pops the branches testing `Q` or later, and `trie_get_ins` then either gives the
branch left on top a twig for the key, when that branch tests `Q` itself, or puts a new binary
branch at `Q` above it. The branches above test earlier positions and the keys under the node on
top agree with the new key before `Q`, so the trie stays well formed, and the new leaf sits among
the old ones where the key order puts it (`trieGetIns_spec`).
-/

namespace KnotResolver.Generic

variable {α : Type u}

/-! ## Paths -/

namespace TrieNode.Wf

/-- The branches of a well-formed path test one of the two halves of a byte. -/
theorem path_flags : ∀ {path : List (TrieFrame α)} {t : TrieNode α},
    (plugAll path t).Wf → ∀ f ∈ path, f.flags = 1 ∨ f.flags = 2
  | [], _, _, _, hf => nomatch hf
  | g :: path, t, h, f, hf => by
    have h' : (plugAll path (g.plug t)).Wf := h
    rcases List.mem_cons.1 hf with rfl | hf
    · exact (plug_nib (of_plugAll h')).1
    · exact path_flags h' f hf

/-- Positions grow downward: every branch above the frame `p` tests an earlier position. -/
theorem nibPos_lt_of_mem : ∀ {path : List (TrieFrame α)} {p : TrieFrame α} {t : TrieNode α},
    (plugAll (p :: path) t).Wf → ∀ g ∈ path, nibPos g.flags g.index < nibPos p.flags p.index
  | [], _, _, _, _, hg => nomatch hg
  | q :: path, p, t, h, g, hg => by
    have h' : (plugAll (q :: path) (p.plug t)).Wf := h
    have hqp : (q.plug (p.plug t)).Wf := of_plugAll (show (plugAll path (q.plug (p.plug t))).Wf from h)
    have hq : nibPos q.flags q.index < nibPos p.flags p.index := nibPos_lt hqp
    rcases List.mem_cons.1 hg with rfl | hg
    · exact hq
    · exact lt_trans (nibPos_lt_of_mem h' g hg) hq

/-- A bound on the nearest branch of a well-formed path bounds them all. -/
theorem nibPos_lt_of_head {path : List (TrieFrame α)} {t : TrieNode α} {Q : Nat}
    (h : (plugAll path t).Wf) (hhead : ∀ f ∈ path.head?, nibPos f.flags f.index < Q) :
    ∀ f ∈ path, nibPos f.flags f.index < Q := by
  cases path with
  | nil => exact nofun
  | cons p path =>
    have hp := hhead p rfl
    intro f hf
    rcases List.mem_cons.1 hf with rfl | hf
    · exact hp
    · exact lt_trans (nibPos_lt_of_mem h f hf) hp

end TrieNode.Wf

/-! ## Finding the branch point -/

/-- The climb of `ns_find_branch` pops the frames that fail its test and plugs them back around
the node; the frame it leaves on top passes the test. -/
theorem nsClimb_spec (index flags : Nat) :
    ∀ (path : List (TrieFrame α)) (t : TrieNode α), ∃ popped,
      path = popped ++ (nsClimb index flags path t).1 ∧
      (nsClimb index flags path t).2 = plugAll popped t ∧
      (∀ f ∈ popped, ¬(f.index < index ∨ (f.index = index ∧ f.flags < flags))) ∧
      ∀ f ∈ (nsClimb index flags path t).1.head?,
        f.index < index ∨ (f.index = index ∧ f.flags < flags)
  | [], t => ⟨[], rfl, rfl, nofun, nofun⟩
  | p :: path, t => by
    rw [nsClimb]
    by_cases hp : p.index < index ∨ (p.index = index ∧ p.flags < flags)
    · rw [if_pos hp]
      refine ⟨[], rfl, rfl, nofun, fun f hf => ?_⟩
      simp only [List.head?_cons, Option.mem_def, Option.some.injEq] at hf
      exact hf ▸ hp
    · rw [if_neg hp]
      obtain ⟨popped, hpath, htop, hpop, hhead⟩ := nsClimb_spec index flags path (p.plug t)
      refine ⟨p :: popped, by rw [List.cons_append, ← hpath], htop, fun f hf => ?_, hhead⟩
      rcases List.mem_cons.1 hf with rfl | hf
      · exact hp
      · exact hpop f hf

/-- The descent of `ns_find_branch` reaches a leaf; wherever the key's nibble has a twig the
descent has taken it, so there the leaf's key has the key's nibble. -/
theorem nsDescend_spec (key : List UInt8) {t : TrieNode α} (ht : t.Wf) :
    ∀ path : List (TrieFrame α), ∃ ext lkey lval,
      nsDescend key path t = some (ext ++ path, lkey, lval) ∧ plugAll ext (.leaf lkey lval) = t ∧
      ∀ f ∈ ext, f.bitmap.testBit (keyNib key (nibPos f.flags f.index)) →
        keyNib lkey (nibPos f.flags f.index) = keyNib key (nibPos f.flags f.index) := by
  induction ht with
  | leaf k v => exact fun path => ⟨[], k, v, by rw [nsDescend]; rfl, rfl, nofun⟩
  | @branch flags bitmap index twigs hflags hnib htwo _ _ ih =>
    intro path
    have hv : keyNib key (nibPos flags index) < 17 := Nat.lt_succ_of_le (keyNib_le _ _)
    rw [nsDescend]
    simp only [twigbit_eq hflags, hastwig_two_pow]
    rcases Bool.eq_false_or_eq_true (bitmap.testBit (keyNib key (nibPos flags index))) with hbv | hbv
    · obtain ⟨T₁, t, T₂, rfl, hlen, _, hn, _⟩ := split_of_testBit hnib hv hbv
      simp only [hbv, if_true, ← hlen]
      rw [dif_pos (by simp), getElem_append_length, ofTwig_append]
      obtain ⟨ext, lkey, lval, hd, hplug, hfol⟩ :=
        ih t (by simp) (⟨flags, bitmap, index, T₁, T₂⟩ :: path)
      refine ⟨ext ++ [⟨flags, bitmap, index, T₁, T₂⟩], lkey, lval, by simpa using hd, ?_,
        fun f hf hb => ?_⟩
      · rw [plugAll_append, hplug]
        rfl
      · simp only [List.mem_append, List.mem_singleton] at hf
        rcases hf with hf | rfl
        · exact hfol f hf hb
        · -- the leaf is under the twig of the key's nibble
          exact hn (lkey, lval) (by rw [← hplug, leaves_plugAll]; simp)
    · -- no twig for the key's nibble: the descent takes the first twig
      obtain ⟨t₀, ts, rfl⟩ : ∃ t₀ ts, twigs = t₀ :: ts := by
        cases twigs with
        | nil => simp at htwo
        | cons t₀ ts => exact ⟨t₀, ts, rfl⟩
      simp only [hbv, Bool.false_eq_true, if_false]
      obtain ⟨ext, lkey, lval, hd, hplug, hfol⟩ :=
        ih t₀ List.mem_cons_self (⟨flags, bitmap, index, [], ts⟩ :: path)
      refine ⟨ext ++ [⟨flags, bitmap, index, [], ts⟩], lkey, lval, ?_, ?_, fun f hf hb => ?_⟩
      · rw [List.append_assoc]
        exact hd
      · rw [plugAll_append, hplug]
        rfl
      · simp only [List.mem_append, List.mem_singleton] at hf
        rcases hf with hf | rfl
        · exact hfol f hf hb
        · simp [hbv] at hb

/-- Where `ns_find_branch` stops short of the key: at position `Q` the key leaves `lkey`, a key
under the node on top of the stack, and every branch above tests an earlier position. The node
on top is either a branch testing `Q` with no twig for the key, or all its keys agree with
`lkey` up to `Q` included. -/
structure TrieBranchPoint.Fork (bp : TrieBranchPoint α) (key lkey : List UInt8) : Prop where
  flags : bp.flags = 1 ∨ bp.flags = 2
  above : ∀ f ∈ bp.path, nibPos f.flags f.index < nibPos bp.flags bp.index
  mem : ∃ lval, (lkey, lval) ∈ bp.top.leaves
  first : bp.first = lkey[bp.index]?
  agree : AgreeBelow (nibPos bp.flags bp.index) key lkey
  ne : keyNib key (nibPos bp.flags bp.index) ≠ keyNib lkey (nibPos bp.flags bp.index)
  top : (∀ kv ∈ bp.top.leaves, AgreeBelow (nibPos bp.flags bp.index + 1) kv.1 lkey) ∨
    ∃ bitmap twigs, bp.top = .branch bp.flags bitmap bp.index twigs ∧
      bitmap.testBit (keyNib key (nibPos bp.flags bp.index)) = false

/-- `ns_find_branch` stops at the leaf of the key, or at a fork. -/
theorem nsFindBranch_spec {root : TrieNode α} (hr : root.Wf) (key : List UInt8) :
    ∃ bp, nsFindBranch root key = some bp ∧ plugAll bp.path bp.top = root ∧
      ((bp.flags = 0 ∧ ∃ v, bp.top = .leaf key v) ∨ ∃ lkey, bp.Fork key lkey) := by
  obtain ⟨ext, lkey, lval, hd, hplug, hfol⟩ := nsDescend_spec key hr []
  rw [List.append_nil] at hd
  unfold nsFindBranch
  rw [hd]
  dsimp only
  by_cases heq : firstMismatch key lkey = key.length ∧ key.length = lkey.length
  · rw [if_pos heq]
    refine ⟨_, rfl, hplug, .inl ⟨rfl, lval, ?_⟩⟩
    rw [eq_of_firstMismatch heq.1 heq.2]
  · rw [if_neg heq]
    obtain ⟨hagree, hne⟩ := agreeBelow_mismatch heq
    have hfl := mismatchFlags_pos key lkey (firstMismatch key lkey)
    generalize firstMismatch key lkey = index at hagree hne hfl ⊢
    generalize mismatchFlags key lkey index = flags at hagree hne hfl ⊢
    have hext := TrieNode.Wf.path_flags (hplug ▸ hr)
    obtain ⟨popped, hpath, htop, hpop, hhead⟩ := nsClimb_spec index flags ext (.leaf lkey lval)
    generalize nsClimb index flags ext (.leaf lkey lval) = c at hpath htop hhead ⊢
    obtain ⟨path, top⟩ := c
    dsimp only at hpath htop hhead ⊢
    have hroot : plugAll path top = root := by
      rw [htop, ← plugAll_append, ← hpath, hplug]
    have hrw : (plugAll path top).Wf := hroot ▸ hr
    -- a popped branch tests `Q` or later
    have hpop' : ∀ f ∈ popped, nibPos flags index ≤ nibPos f.flags f.index := fun f hf =>
      Nat.le_of_not_lt fun hlt => hpop f hf
        ((nibPos_lt_nibPos_iff (hext f (by rw [hpath]; simp [hf])) hfl).1 hlt)
    refine ⟨_, rfl, hroot, .inr ⟨lkey, hfl, ?_, ⟨lval, by rw [htop, leaves_plugAll]; simp⟩, rfl,
      hagree, hne, ?_⟩⟩
    · refine TrieNode.Wf.nibPos_lt_of_head hrw fun f hf => ?_
      have hf' : f ∈ path := List.mem_of_mem_head? hf
      exact (nibPos_lt_nibPos_iff (hext f (by rw [hpath]; simp [hf'])) hfl).2 (hhead f hf)
    · rcases List.eq_nil_or_concat' popped with rfl | ⟨popped, g, rfl⟩
      · -- the climb popped nothing: the leaf itself is on top
        refine .inl fun kv hkv => ?_
        rw [htop] at hkv
        simp only [plugAll_nil, TrieNode.leaves_leaf, List.mem_singleton] at hkv
        rw [hkv]
        exact AgreeBelow.refl _ _
      · -- the last branch popped is on top
        rw [plugAll_append, plugAll_cons, plugAll_nil] at htop
        have hg : g ∈ ext := by rw [hpath]; simp
        have hQ := hpop' g (by simp)
        have htw : (g.plug (plugAll popped (.leaf lkey lval))).Wf := htop ▸ TrieNode.Wf.of_plugAll hrw
        have hmem : (lkey, lval) ∈ (g.plug (plugAll popped (.leaf lkey lval))).leaves := by
          rw [TrieFrame.leaves_plug, leaves_plugAll]
          simp
        rcases Nat.lt_or_eq_of_le hQ with hlt | hQeq
        · refine .inl fun kv hkv => ?_
          rw [htop] at hkv
          exact (TrieNode.Wf.plug_agree htw kv hkv (lkey, lval) hmem).mono hlt
        · obtain ⟨hgf, hgi⟩ := (nibPos_eq_nibPos_iff hfl (hext g hg)).1 hQeq
          refine .inr ⟨g.bitmap, g.before ++ plugAll popped (.leaf lkey lval) :: g.after, ?_, ?_⟩
          · rw [htop, TrieFrame.plug, hgf, hgi]
          · -- had the key's nibble a twig there, the descent would have followed it to `lkey`
            rw [hQeq]
            cases hb : g.bitmap.testBit (keyNib key (nibPos g.flags g.index)) with
            | false => rfl
            | true => exact absurd (hfol g hg hb).symm (hQeq ▸ hne)

/-! ## The nodes `trie_get_ins` builds -/

/-- Keys that agree with one key before `Q` agree with each other. -/
theorem agree_of_ref {Q : Nat} {L : List (List UInt8 × Option α)} (r : List UInt8)
    (h : ∀ kv ∈ L, AgreeBelow Q kv.1 r) : ∀ kv ∈ L, ∀ kv' ∈ L, AgreeBelow Q kv.1 kv'.1 :=
  fun kv hkv kv' hkv' => (h kv hkv).trans (h kv' hkv').symm

/-- A node with the old keys and one new key near an old one stays near the old node. -/
theorem NearBelow.of_cons {Q : Nat} {N top : TrieNode α} (kv₀ : List UInt8 × Option α)
    (hsub : ∀ kv ∈ N.leaves, kv = kv₀ ∨ kv ∈ top.leaves)
    (hnear : ∃ kv ∈ top.leaves, AgreeBelow Q kv₀.1 kv.1) : NearBelow Q N top := by
  intro kv hkv
  rcases hsub kv hkv with rfl | hkv
  · exact hnear
  · exact ⟨kv, hkv, AgreeBelow.refl _ _⟩

theorem ofTwig_insert (flags bitmap index : Nat) {twigs : List (TrieNode α)} {s : Nat}
    (hs : s ≤ twigs.length) (t : TrieNode α) :
    TrieFrame.ofTwig flags bitmap index (twigs.take s ++ t :: twigs.drop s) s =
      ⟨flags, bitmap, index, twigs.take s, twigs.drop s⟩ := by
  have := ofTwig_append flags bitmap index (twigs.take s) (twigs.drop s) t
  rwa [List.length_take_of_le hs] at this

/-- The offset of the lower twig of a binary branch is 0, of the upper one 1. -/
theorem twigoff_pair {a b : Nat} (hab : a ≠ b) (ha : a < 17) (hb : b < 17) :
    twigoff (2 ^ a ||| 2 ^ b) (2 ^ a) = if a < b then 0 else 1 := by
  rw [twigoff_two_pow]
  rcases Nat.lt_or_gt_of_ne hab with hlt | hgt
  · rw [if_pos hlt, Bitmap.bits_two_pow_or_two_pow hlt hb]
    simp [Nat.le_of_lt hlt]
  · rw [if_neg (Nat.not_lt.2 (Nat.le_of_lt hgt)), Nat.or_comm, Bitmap.bits_two_pow_or_two_pow hgt ha]
    simp [hgt]

namespace TrieNode.Wf

/-- A twig for a new key added to a branch where the key's nibble has none, the key agreeing with
the branch's keys before its position. -/
theorem addTwig {flags bitmap index n : Nat} {twigs : List (TrieNode α)}
    (h : (TrieNode.branch flags bitmap index twigs).Wf) {key : List UInt8} (v : Option α)
    (hn : keyNib key (nibPos flags index) = n) (hb : bitmap.testBit n = false)
    (hkey : ∀ kv ∈ TrieNode.leavesOf twigs, AgreeBelow (nibPos flags index) key kv.1) :
    (TrieNode.branch flags (bitmap ||| 2 ^ n) index (twigs.take (twigoff bitmap (2 ^ n)) ++
      .leaf key v :: twigs.drop (twigoff bitmap (2 ^ n)))).Wf := by
  have hv : n < 17 := hn ▸ Nat.lt_succ_of_le (keyNib_le _ _)
  have hsplit : ∀ s, TrieNode.leavesOf twigs =
      TrieNode.leavesOf (twigs.take s) ++ TrieNode.leavesOf (twigs.drop s) := fun s => by
    rw [← TrieNode.leavesOf_append, List.take_append_drop]
  cases h with
  | branch hflags hnib htwo _ hsub =>
    obtain ⟨h₁, h₂⟩ := Bitmap.forall₂_split_of_not_testBit hnib hv hb
    refine .branch hflags ?_ ?_ ?_ ?_
    · rw [Bitmap.bits_or_two_pow hv hb]
      refine Bitmap.forall₂_append_cons h₁ (fun kv hkv => ?_) h₂
      rw [TrieNode.leaves_leaf, List.mem_singleton] at hkv
      rw [hkv]
      exact hn
    · simp only [List.length_append, List.length_cons, List.length_take, List.length_drop]
      omega
    · -- old and new keys all agree with the new one before the branch's position
      refine agree_of_ref key fun kv hkv => ?_
      simp only [TrieNode.leavesOf_append, TrieNode.leavesOf_cons, TrieNode.leaves_leaf,
        List.mem_append, List.mem_singleton] at hkv
      rcases hkv with hkv | hkv | hkv
      · exact (hkey kv (by rw [hsplit (twigoff bitmap (2 ^ n))]; exact List.mem_append_left _ hkv)).symm
      · rw [hkv]
        exact AgreeBelow.refl _ _
      · exact (hkey kv (by rw [hsplit (twigoff bitmap (2 ^ n))]; exact List.mem_append_right _ hkv)).symm
    · intro t ht
      simp only [List.mem_append, List.mem_cons] at ht
      rcases ht with ht | rfl | ht
      · exact hsub t (List.mem_of_mem_take ht)
      · exact .leaf key v
      · exact hsub t (List.mem_of_mem_drop ht)

/-- A binary branch over two nodes whose keys have the nibbles `a < b` at its position and agree
with one key before it. -/
theorem pair {flags index a b : Nat} {s t : TrieNode α} (hflags : flags = 1 ∨ flags = 2)
    (hab : a < b) (hb : b < 17) (hs : s.Wf) (ht : t.Wf)
    (hsa : TwigNib (nibPos flags index) a s) (htb : TwigNib (nibPos flags index) b t)
    (r : List UInt8) (hr : ∀ kv ∈ s.leaves ++ t.leaves, AgreeBelow (nibPos flags index) kv.1 r) :
    (TrieNode.branch flags (2 ^ a ||| 2 ^ b) index [s, t]).Wf := by
  refine .branch hflags ?_ (by simp) ?_ ?_
  · rw [Bitmap.bits_two_pow_or_two_pow hab hb]
    exact .cons hsa (.cons htb .nil)
  · refine agree_of_ref r fun kv hkv => hr kv ?_
    simpa using hkv
  · intro u hu
    simp only [List.mem_cons, List.not_mem_nil, or_false] at hu
    rcases hu with rfl | rfl
    · exact hs
    · exact ht

end TrieNode.Wf

/-! ## `trie_get_ins` -/

/-- What `trie_get_ins` returns for `key` on `tbl`: a well-formed trie `tbl'` and the slot of
`key` in it, where `tbl'` is `tbl` itself, or `tbl` with one more leaf, the key's, with no
value yet. -/
structure TrieSlot.Of (tbl tbl' : Trie α) (key : List UInt8) (slot : TrieSlot α) : Prop where
  wf : tbl'.Wf
  weight : tbl'.weight ≠ 0
  key_eq : slot.key = key
  plug : plugAll slot.path (.leaf key slot.val) = tbl'.root
  grow : tbl' = tbl ∨ (slot.val = none ∧ tbl.contents = pathBefore slot.path ++ pathAfter slot.path)

/-- A new leaf for `key` linked in under the frame `p`: the node `N` so built takes the place of
`top`, whose keys become the new leaf's siblings. -/
theorem TrieSlot.Of.link {tbl : Trie α} (h : tbl.Wf) (hw : tbl.weight ≠ 0)
    {path : List (TrieFrame α)} {top N : TrieNode α} (hroot : plugAll path top = tbl.root)
    {Q : Nat} (hpos : ∀ f ∈ path, nibPos f.flags f.index < Q) (hN : N.Wf)
    (hnear : NearBelow Q N top) {p : TrieFrame α} {key : List UInt8}
    (hplug : p.plug (.leaf key none) = N)
    (hleaves : top.leaves = TrieNode.leavesOf p.before ++ TrieNode.leavesOf p.after) :
    TrieSlot.Of tbl ⟨plugAll path N, tbl.weight + 1⟩ key ⟨p :: path, key, none⟩ := by
  have hcontents : tbl.contents = pathBefore (p :: path) ++ pathAfter (p :: path) := by
    rw [Trie.contents_of_weight_ne hw, ← hroot, leaves_plugAll, hleaves]
    simp [pathBefore, pathAfter]
  have hlen : tbl.weight + 1 = (plugAll path N).leaves.length := by
    rw [h.weight_eq, hcontents, leaves_plugAll, ← hplug, TrieFrame.leaves_plug]
    simp [pathBefore, pathAfter]
    omega
  refine ⟨.inr ⟨TrieNode.Wf.plugAll_replace (hroot ▸ h.root hw) hN hpos hnear, hlen⟩,
    Nat.succ_ne_zero _, rfl, ?_, .inr ⟨rfl, hcontents⟩⟩
  show plugAll path (p.plug (.leaf key none)) = plugAll path N
  rw [hplug]

/-- The branch on top tests the fork's position: it gets a twig for the key. -/
theorem TrieSlot.Of.addTwig {tbl : Trie α} (h : tbl.Wf) (hw : tbl.weight ≠ 0)
    {bp : TrieBranchPoint α} {key lkey : List UInt8} (hroot : plugAll bp.path bp.top = tbl.root)
    (hfork : bp.Fork key lkey) {bitmap n : Nat} {twigs : List (TrieNode α)}
    (htop : bp.top = .branch bp.flags bitmap bp.index twigs)
    (hn : keyNib key (nibPos bp.flags bp.index) = n) (hb : bitmap.testBit n = false) :
    TrieSlot.Of tbl
      ⟨plugAll bp.path (.branch bp.flags (bitmap ||| 2 ^ n) bp.index (twigs.take (twigoff bitmap (2 ^ n)) ++
        .leaf key none :: twigs.drop (twigoff bitmap (2 ^ n)))), tbl.weight + 1⟩ key
      ⟨TrieFrame.ofTwig bp.flags (bitmap ||| 2 ^ n) bp.index (twigs.take (twigoff bitmap (2 ^ n)) ++
        .leaf key none :: twigs.drop (twigoff bitmap (2 ^ n))) (twigoff bitmap (2 ^ n)) :: bp.path,
        key, none⟩ := by
  have htw : (TrieNode.branch bp.flags bitmap bp.index twigs).Wf :=
    htop ▸ TrieNode.Wf.of_plugAll (hroot ▸ h.root hw)
  obtain ⟨lval, hmem⟩ := hfork.mem
  rw [htop, TrieNode.leaves_branch] at hmem
  -- the key agrees with the branch's keys before its position, as `lkey` does
  have hkey : ∀ kv ∈ TrieNode.leavesOf twigs, AgreeBelow (nibPos bp.flags bp.index) key kv.1 :=
    fun kv hkv => hfork.agree.trans (htw.agree (lkey, lval) hmem kv hkv)
  have hs : twigoff bitmap (2 ^ n) ≤ twigs.length := by
    rw [twigoff_two_pow, ← htw.nib.length_eq]
    exact List.length_filter_le _ _
  rw [ofTwig_insert _ _ _ hs]
  refine TrieSlot.Of.link h hw hroot hfork.above (htw.addTwig none hn hb hkey) ?_ rfl ?_
  · refine NearBelow.of_cons (key, none) (fun kv hkv => ?_)
      ⟨(lkey, lval), by rw [htop, TrieNode.leaves_branch]; exact hmem, hfork.agree⟩
    simp only [TrieNode.leaves_branch, TrieNode.leavesOf_append, TrieNode.leavesOf_cons,
      TrieNode.leaves_leaf, List.mem_append, List.mem_singleton] at hkv
    rw [htop, TrieNode.leaves_branch, ← List.take_append_drop (twigoff bitmap (2 ^ n)) twigs,
      TrieNode.leavesOf_append, List.mem_append]
    tauto
  · dsimp only
    rw [htop, TrieNode.leaves_branch, ← TrieNode.leavesOf_append, List.take_append_drop]

/-- The keys under the node on top all have `lkey`'s nibble at the fork's position: a new binary
branch there takes the node and the key's leaf. -/
theorem TrieSlot.Of.newBranch {tbl : Trie α} (h : tbl.Wf) (hw : tbl.weight ≠ 0)
    {bp : TrieBranchPoint α} {key lkey : List UInt8} (hroot : plugAll bp.path bp.top = tbl.root)
    (hfork : bp.Fork key lkey)
    (htop : ∀ kv ∈ bp.top.leaves, AgreeBelow (nibPos bp.flags bp.index + 1) kv.1 lkey)
    {top : TrieNode α} (htop' : bp.top = top) {b1 b2 : Nat} (hb1 : b1 = 2 ^ keyNib key (nibPos bp.flags bp.index))
    (hb2 : b2 = 2 ^ keyNib lkey (nibPos bp.flags bp.index)) :
    TrieSlot.Of tbl
      ⟨plugAll bp.path (.branch bp.flags (b1 ||| b2) bp.index
        (([top, top].set (twigoff (b1 ||| b2) b1) (.leaf key none)).set
          (twigoff (b1 ||| b2) b2) top)), tbl.weight + 1⟩ key
      ⟨TrieFrame.ofTwig bp.flags (b1 ||| b2) bp.index
        (([top, top].set (twigoff (b1 ||| b2) b1) (.leaf key none)).set
          (twigoff (b1 ||| b2) b2) top) (twigoff (b1 ||| b2) b1) :: bp.path, key, none⟩ := by
  subst hb1 hb2
  rw [← htop']
  have hn₁ : keyNib key (nibPos bp.flags bp.index) < 17 := Nat.lt_succ_of_le (keyNib_le _ _)
  have hn₂ : keyNib lkey (nibPos bp.flags bp.index) < 17 := Nat.lt_succ_of_le (keyNib_le _ _)
  have hne := hfork.ne
  have htw : bp.top.Wf := TrieNode.Wf.of_plugAll (hroot ▸ h.root hw)
  obtain ⟨lval, hmem⟩ := hfork.mem
  have hnib : TwigNib (nibPos bp.flags bp.index) (keyNib lkey (nibPos bp.flags bp.index)) bp.top :=
    fun kv hkv => htop kv hkv _ (Nat.lt_succ_self _)
  have hleaf : TwigNib (nibPos bp.flags bp.index) (keyNib key (nibPos bp.flags bp.index))
      (.leaf key none : TrieNode α) := by
    intro kv hkv
    rw [TrieNode.leaves_leaf, List.mem_singleton] at hkv
    rw [hkv]
  -- the old keys and the new one all agree with `lkey` before the fork's position
  have hr : ∀ kv ∈ (TrieNode.leaf key none : TrieNode α).leaves ++ bp.top.leaves,
      AgreeBelow (nibPos bp.flags bp.index) kv.1 lkey := by
    intro kv hkv
    simp only [TrieNode.leaves_leaf, List.singleton_append, List.mem_cons] at hkv
    rcases hkv with rfl | hkv
    · exact hfork.agree
    · exact (htop kv hkv).mono (Nat.le_succ _)
  have hnear : ∀ twigs : List (TrieNode α), (∀ kv ∈ TrieNode.leavesOf twigs,
      kv = (key, none) ∨ kv ∈ bp.top.leaves) →
      NearBelow (nibPos bp.flags bp.index) (.branch bp.flags (2 ^ keyNib key (nibPos bp.flags bp.index) |||
        2 ^ keyNib lkey (nibPos bp.flags bp.index)) bp.index twigs) bp.top := fun twigs hsub =>
    NearBelow.of_cons (key, none) (by simpa using hsub) ⟨(lkey, lval), hmem, hfork.agree⟩
  rcases Nat.lt_or_gt_of_ne hne with hlt | hgt
  · -- the key's leaf is the first twig
    have ho₁ := twigoff_pair hne hn₁ hn₂
    have ho₂ := twigoff_pair (Ne.symm hne) hn₂ hn₁
    rw [if_pos hlt] at ho₁
    rw [if_neg (Nat.not_lt.2 (Nat.le_of_lt hlt)), Nat.or_comm] at ho₂
    rw [ho₁, ho₂]
    refine TrieSlot.Of.link h hw hroot hfork.above
      (TrieNode.Wf.pair hfork.flags hlt hn₂ (.leaf key none) htw hleaf hnib lkey hr)
      (hnear _ fun kv hkv => by simpa using hkv) rfl (by simp [TrieFrame.ofTwig])
  · -- the key's leaf is the second twig
    have ho₁ := twigoff_pair hne hn₁ hn₂
    have ho₂ := twigoff_pair (Ne.symm hne) hn₂ hn₁
    rw [if_neg (Nat.not_lt.2 (Nat.le_of_lt hgt))] at ho₁
    rw [if_pos hgt, Nat.or_comm] at ho₂
    rw [ho₁, ho₂]
    have hN := TrieNode.Wf.pair hfork.flags hgt hn₁ htw (.leaf key none) hnib hleaf lkey
      (fun kv hkv => hr kv (by simp only [List.mem_append] at hkv ⊢; tauto))
    rw [Nat.or_comm] at hN
    refine TrieSlot.Of.link h hw hroot hfork.above hN
      (hnear _ fun kv hkv => by simp only [TrieNode.leavesOf_cons, TrieNode.leavesOf_nil,
        TrieNode.leaves_leaf, List.mem_append, List.mem_singleton, List.not_mem_nil] at hkv; tauto)
      rfl (by simp [TrieFrame.ofTwig])

/-- `trie_get_ins` finds or makes the leaf of the key, keeping the trie well formed, and returns
the key's slot. -/
theorem trieGetIns_spec {tbl : Trie α} (h : tbl.Wf) (key : List UInt8) :
    ∃ tbl' slot, trieGetIns tbl key = some (tbl', slot) ∧ slot.Of tbl tbl' key := by
  unfold trieGetIns
  by_cases hw : tbl.weight = 0
  · rw [if_pos hw]
    refine ⟨_, _, rfl, ⟨.inr ⟨.leaf key none, by simp [hw]⟩, Nat.succ_ne_zero _, rfl, rfl,
      .inr ⟨rfl, ?_⟩⟩⟩
    rw [Trie.contents, if_pos hw]
    rfl
  · rw [if_neg hw]
    obtain ⟨bp, hbp, hroot, hcase⟩ := nsFindBranch_spec (h.root hw) key
    rw [hbp]
    dsimp only
    rcases hcase with ⟨hf0, v, htop⟩ | ⟨lkey, hfork⟩
    · -- the key is present: its slot, in the trie as it was
      rw [if_pos hf0, htop]
      exact ⟨_, _, rfl, ⟨h, hw, rfl, by rw [← hroot, htop], .inl rfl⟩⟩
    · have hfl := hfork.flags
      rw [if_neg (by omega)]
      rcases hfork.top with hagree | ⟨bitmap, twigs, htop, hbit⟩
      · -- a new binary branch above the node on top
        cases htop : bp.top with
        | leaf k v =>
          dsimp only
          refine ⟨_, _, rfl, TrieSlot.Of.newBranch h hw hroot hfork hagree htop
            (twigbit_eq hfork.flags bp.index key) ?_⟩
          rw [hfork.first]
          exact (twigbit_eq_first _ _ _).trans (twigbit_eq hfork.flags _ _)
        | branch fl bm ix tw =>
          -- a branch testing the fork's position has keys differing there
          have hne : ¬(bp.index = ix ∧ bp.flags = fl) := by
            rintro ⟨rfl, rfl⟩
            have htw : (TrieNode.branch bp.flags bm bp.index tw).Wf :=
              htop ▸ TrieNode.Wf.of_plugAll (hroot ▸ h.root hw)
            obtain ⟨kv, hkv, kv', hkv', hne⟩ := htw.exists_keyNib_ne
            rw [htop, TrieNode.leaves_branch] at hagree
            exact hne ((hagree kv hkv _ (Nat.lt_succ_self _)).trans
              (hagree kv' hkv' _ (Nat.lt_succ_self _)).symm)
          dsimp only
          rw [if_neg hne]
          refine ⟨_, _, rfl, TrieSlot.Of.newBranch h hw hroot hfork hagree htop
            (twigbit_eq hfork.flags bp.index key) ?_⟩
          rw [hfork.first]
          exact (twigbit_eq_first _ _ _).trans (twigbit_eq hfork.flags _ _)
      · -- the branch on top tests the fork's position
        rw [htop]
        dsimp only
        rw [if_pos ⟨rfl, rfl⟩, twigbit_eq hfork.flags, hastwig_two_pow, hbit,
          if_neg Bool.false_ne_true]
        exact ⟨_, _, rfl, TrieSlot.Of.addTwig h hw hroot hfork htop rfl hbit⟩

/-! ## The map after `trie_get_ins` -/

namespace TrieSlot.Of

variable {tbl tbl' : Trie α} {key : List UInt8} {slot : TrieSlot α}

theorem contents_eq (hs : slot.Of tbl tbl' key) :
    tbl'.contents = pathBefore slot.path ++ (key, slot.val) :: pathAfter slot.path := by
  rw [Trie.contents_of_weight_ne hs.weight, ← hs.plug, leaves_plugAll]
  simp

/-- A present key keeps the trie as it was and gets its own slot back. -/
theorem of_lookup (hs : slot.Of tbl tbl' key) {v : Option α} (hv : tbl.contents.lookup key = some v) :
    tbl' = tbl ∧ slot.val = v := by
  have hsorted := hs.wf.pairwise
  rw [hs.contents_eq] at hsorted
  rcases hs.grow with rfl | ⟨hval, hold⟩
  · rw [hs.contents_eq, lookup_eq_of_mem hsorted (List.mem_append_right _ List.mem_cons_self)] at hv
    exact ⟨rfl, Option.some.inj hv⟩
  · rw [hval] at hsorted
    rw [hold, lookup_eq_none_of_forall_ne (key_ne_of_pairwise hsorted)] at hv
    cases hv

/-- The slot holds the key's old value, and no value for a key it adds. -/
theorem val_eq (hs : slot.Of tbl tbl' key) : slot.val = (tbl.contents.lookup key).bind id := by
  cases hl : tbl.contents.lookup key with
  | some v => exact (hs.of_lookup hl).2
  | none =>
    have hsorted := hs.wf.pairwise
    rw [hs.contents_eq] at hsorted
    rcases hs.grow with rfl | ⟨hval, -⟩
    · rw [hs.contents_eq, lookup_eq_of_mem hsorted (List.mem_append_right _ List.mem_cons_self)] at hl
      cases hl
    · exact hval

/-- An absent key is added, with no value, where the key order puts it. -/
theorem of_lookup_none (hs : slot.Of tbl tbl' key) (hv : tbl.contents.lookup key = none) :
    tbl'.contents = tbl.contents.upsert (List.compareLex compare) key none := by
  have hsorted := hs.wf.pairwise
  rw [hs.contents_eq] at hsorted
  rcases hs.grow with rfl | ⟨hval, hold⟩
  · rw [hs.contents_eq, lookup_eq_of_mem hsorted (List.mem_append_right _ List.mem_cons_self)] at hv
    cases hv
  · rw [hs.contents_eq, hold, hval]
    rw [hval] at hsorted
    exact (List.upsert_append_of_pairwise hsorted).symm

/-- A value written through the slot is the key's value in the map. -/
theorem write (h : tbl.Wf) (hs : slot.Of tbl tbl' key) (val : Option α) :
    (Trie.mk (slot.write val) tbl'.weight).Wf ∧
      (Trie.mk (slot.write val) tbl'.weight).contents =
        tbl.contents.upsert (List.compareLex compare) key val := by
  obtain ⟨Q, hQ⟩ := TrieNode.Wf.exists_nibPos_bound slot.path
  have hroot : (plugAll slot.path (.leaf key slot.val)).Wf := hs.plug ▸ hs.wf.root hs.weight
  have hwrite : slot.write val = plugAll slot.path (.leaf key val) := by
    rw [TrieSlot.write, hs.key_eq]
  rw [hwrite]
  -- only the leaf's value changes
  have hwf : (plugAll slot.path (.leaf key val)).Wf := TrieNode.Wf.plugAll_replace hroot (.leaf key val) hQ
    (NearBelow.of_cons (key, val) (by simp) ⟨(key, slot.val), by simp, AgreeBelow.refl _ _⟩)
  have hleaves : (plugAll slot.path (.leaf key val)).leaves =
      pathBefore slot.path ++ (key, val) :: pathAfter slot.path := by
    rw [leaves_plugAll]
    simp
  have hsorted : (pathBefore slot.path ++ (key, val) :: pathAfter slot.path).Pairwise KeyLt :=
    hleaves ▸ hwf.pairwise_keyLt
  refine ⟨.inr ⟨hwf, ?_⟩, ?_⟩
  · show tbl'.weight = (plugAll slot.path (.leaf key val)).leaves.length
    rw [hs.wf.weight_eq, hs.contents_eq, hleaves]
    simp
  · rw [Trie.contents_of_weight_ne
      (show (Trie.mk (plugAll slot.path (.leaf key val)) tbl'.weight).weight ≠ 0 from hs.weight), hleaves]
    rcases hs.grow with rfl | ⟨_, hold⟩
    · have hold := hs.wf.pairwise
      rw [hs.contents_eq] at hold ⊢
      exact (List.upsert_append_cons_of_pairwise hold).symm
    · rw [hold]
      exact (List.upsert_append_of_pairwise hsorted).symm

end TrieSlot.Of

end KnotResolver.Generic
