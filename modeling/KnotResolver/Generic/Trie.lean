import KnotResolver.Bitmap
import KnotResolver.Pkt

/-!
# The qp-trie (`lib/generic/trie.c`)

A trie maps byte strings to value slots (`trie_val_t`, a pointer: `none` is NULL). A leaf holds
a key and its slot; a branch tests one nibble of the key, at byte `index`, the more important
half when `flags` is 1 and the other when it is 2, and keeps the twigs of the nibble values
present below it in a bitmap (bit 0 for the end of the key, bit `n + 1` for nibble `n`) and a
list of twigs in the order of their bits. Branches that would have a single twig are skipped, so
a leaf's key is compared in full.

The code walks the trie with pointers into the twigs arrays and a stack of nodes (`nstack_t`,
also the iterator `trie_it_t`). Here a position in the trie is a path of `TrieFrame`s, the
branches above the node nearest first, each with the twigs before and after the one the path
takes; `plugAll` rebuilds the root around a node, which is how a write through such a pointer
is seen from the root. An `Option` result that is `none` marks a read outside a twigs array or
a failed assertion; allocation is assumed to succeed.
-/

namespace KnotResolver.Generic

/-- `node_t`. -/
inductive TrieNode (α : Type u) where
  | leaf (key : List UInt8) (val : Option α)
  | branch (flags bitmap index : Nat) (twigs : List (TrieNode α))

/-- `struct trie`: the root, undefined while `weight` is 0, and the number of leaves. -/
structure Trie (α : Type u) where
  root : TrieNode α
  weight : Nat

variable {α : Type u}

/-- `empty_root`: the invalid branch kept as the root of an empty trie. -/
def emptyRoot : TrieNode α := .branch 3 0 (2 ^ 32 - 1) []

/-- `trie_create`. -/
def trieCreate : Trie α := ⟨emptyRoot, 0⟩

/-- `trie_clear`. -/
def trieClear (tbl : Trie α) : Trie α := if tbl.weight = 0 then tbl else ⟨emptyRoot, 0⟩

/-- `trie_weight`. -/
def trieWeight (tbl : Trie α) : Nat := tbl.weight

/-! ## Bitmaps and nibbles -/

/-- `bitmap_weight`: the number of twigs (the bitmap uses its lowest 17 bits). -/
def bitmapWeight (w : Nat) : Nat := Bitmap.weight 17 w

/-- `bitmap_lowest_bit`: `1 << __builtin_ctz(w)`. -/
def bitmapLowestBit (w : Nat) : Nat := 1 <<< (Bitmap.bits 17 w).headD 0

/-- `nibbit`: the bit of the nibble of `k` that `flags` selects. -/
def nibbit (k : UInt8) (flags : Nat) : Nat :=
  let shift := (2 - flags) <<< 2
  let nibble := (k.toNat >>> shift) &&& 0xf
  1 <<< (nibble + 1)

/-- `twigbit`: the bit of `key` at a branch testing byte `index`; bit 0 past the key's end. -/
def twigbit (flags index : Nat) (key : List UInt8) : Nat :=
  if h : index < key.length then nibbit key[index] flags else 1 <<< 0

/-- `hastwig`. -/
def hastwig (bitmap b : Nat) : Bool := bitmap &&& b != 0

/-- `twigoff`: the offset of the twig of bit `b`. -/
def twigoff (bitmap b : Nat) : Nat := bitmapWeight (bitmap &&& (b - 1))

/-- `key_cmp`: `memcmp` of the common length, then the shorter key first. -/
def keyCmp (k1 k2 : List UInt8) : Ordering :=
  match memcmp k1 k2 (min k1.length k2.length) with
  | .eq => if k1.length = k2.length then .eq else if k1.length < k2.length then .lt else .gt
  | ret => ret

/-! ## Paths -/

/-- A branch on a path down the trie, with the twigs before and after the one the path takes. -/
structure TrieFrame (α : Type u) where
  flags : Nat
  bitmap : Nat
  index : Nat
  before : List (TrieNode α)
  after : List (TrieNode α)

/-- The branch of a frame with `t` in the place the path takes. -/
def TrieFrame.plug (f : TrieFrame α) (t : TrieNode α) : TrieNode α :=
  .branch f.flags f.bitmap f.index (f.before ++ t :: f.after)

/-- The frame of twig `i` of a branch. -/
def TrieFrame.ofTwig (flags bitmap index : Nat) (twigs : List (TrieNode α)) (i : Nat) :
    TrieFrame α :=
  ⟨flags, bitmap, index, twigs.take i, twigs.drop (i + 1)⟩

/-- The root rebuilt around `t` from the path above it, nearest branch first. -/
def plugAll : List (TrieFrame α) → TrieNode α → TrieNode α
  | [], t => t
  | f :: fs, t => plugAll fs (f.plug t)

/-! ## Lookup -/

theorem TrieNode.sizeOf_lt_branch {flags bitmap index i : Nat} {twigs : List (TrieNode α)}
    (h : i < twigs.length) : sizeOf twigs[i] < sizeOf (TrieNode.branch flags bitmap index twigs) := by
  have := List.sizeOf_lt_of_mem (List.getElem_mem h)
  simp only [TrieNode.branch.sizeOf_spec]
  omega

/-- `struct found`: the leaf found (its key and slot), the path from its parent `p` up to the
root, and the bit `b` of the leaf in `p`. -/
structure TrieFound (α : Type u) where
  path : List (TrieFrame α)
  key : List UInt8
  val : Option α
  b : Nat

/-- The descent of `find_equal` from `t`, below `path`, having taken bit `b` last. -/
def findEqualFrom (key : List UInt8) (path : List (TrieFrame α)) (b : Nat) :
    TrieNode α → Option (Option (TrieFound α))
  | .leaf k v => some (if keyCmp key k ≠ .eq then none else some ⟨path, k, v, b⟩)
  | .branch flags bitmap index twigs =>
    let b := twigbit flags index key
    if !hastwig bitmap b then some none
    else
      let i := twigoff bitmap b
      if h : i < twigs.length then
        findEqualFrom key (TrieFrame.ofTwig flags bitmap index twigs i :: path) b twigs[i]
      else none
termination_by t => sizeOf t
decreasing_by exact TrieNode.sizeOf_lt_branch h

/-- `find_equal`: `some none` when the key is absent. -/
def findEqual (tbl : Trie α) (key : List UInt8) : Option (Option (TrieFound α)) :=
  if tbl.weight = 0 then some none else findEqualFrom key [] 0 tbl.root

/-- The descent of `find_first` along the first twigs. -/
def findFirstFrom (path : List (TrieFrame α)) : TrieNode α → Option (TrieFound α)
  | .leaf k v =>
    some ⟨path, k, v, match path with | [] => 0 | p :: _ => bitmapLowestBit p.bitmap⟩
  | .branch _ _ _ [] => none
  | .branch flags bitmap index (t :: twigs) => findFirstFrom (⟨flags, bitmap, index, [], twigs⟩ :: path) t

/-- `find_first`. -/
def findFirst (tbl : Trie α) : Option (Option (TrieFound α)) :=
  if tbl.weight = 0 then some none else (findFirstFrom [] tbl.root).map some

/-- `trie_get_try`: the slot of `key`, `none` for NULL. -/
def trieGetTry (tbl : Trie α) (key : List UInt8) : Option (Option (Option α)) :=
  (findEqual tbl key).map (Option.map (·.val))

/-- `trie_get_first`: the first key and its slot, `none` for NULL. -/
def trieGetFirst (tbl : Trie α) : Option (Option (List UInt8 × Option α)) :=
  (findFirst tbl).map (Option.map fun found => (found.key, found.val))

/-! ## Deletion -/

/-- `del_found`: the trie without the leaf found, and the leaf's value. -/
def delFound (tbl : Trie α) : Option (TrieFound α) → Option (Except Int (Trie α × Option α))
  | none => some (.error knotEnoent)
  | some found =>
    let weight := tbl.weight - 1
    match found.path with
    | [] => if weight = 0 then some (.ok (⟨emptyRoot, weight⟩, found.val)) else none
    | p :: path =>
      let ci := p.before.length
      let cc := bitmapWeight p.bitmap
      if ci < cc then
        if cc = 2 then
          -- collapse the binary branch `p`: the other twig takes its place
          match (p.before ++ .leaf found.key found.val :: p.after)[1 - ci]? with
          | some t => some (.ok (⟨plugAll path t, weight⟩, found.val))
          | none => none
        else
          let node := TrieNode.branch p.flags (p.bitmap &&& (0xffffffff ^^^ found.b)) p.index
            (p.before ++ p.after)
          some (.ok (⟨plugAll path node, weight⟩, found.val))
      else none

/-- `trie_del`. -/
def trieDel (tbl : Trie α) (key : List UInt8) : Option (Except Int (Trie α × Option α)) :=
  (findEqual tbl key).bind (delFound tbl)

/-- `trie_del_first`, with a key buffer or not and, when `len` is given, its room: the first key
(copied out and its length stored) and its value. -/
def trieDelFirst (tbl : Trie α) (key : Bool) (len : Option Nat) :
    Option (Except Int (Trie α × List UInt8 × Option α)) :=
  (findFirst tbl).bind fun
    | none => some (.error knotEnoent)
    | some found =>
      let del := (delFound tbl (some found)).map (Except.map fun r => (r.1, found.key, r.2))
      if key then
        match len with
        | none => some (.error knotEinval)
        | some room => if room < found.key.length then some (.error (krError ENOSPC)) else del
      else del

/-! ## Insertion -/

/-- The descent of `ns_find_branch` to some leaf, taking twig 0 where the key's nibble is
absent: the path and the leaf's key and slot. -/
def nsDescend (key : List UInt8) (path : List (TrieFrame α)) :
    TrieNode α → Option (List (TrieFrame α) × List UInt8 × Option α)
  | .leaf k v => some (path, k, v)
  | .branch flags bitmap index twigs =>
    let b := twigbit flags index key
    let i := if hastwig bitmap b then twigoff bitmap b else 0
    if h : i < twigs.length then
      nsDescend key (TrieFrame.ofTwig flags bitmap index twigs i :: path) twigs[i]
    else none
termination_by t => sizeOf t
decreasing_by exact TrieNode.sizeOf_lt_branch h

/-- The index of the first byte where two keys differ, or the shorter length. -/
def firstMismatch : List UInt8 → List UInt8 → Nat
  | a :: as, b :: bs => if a ≠ b then 0 else firstMismatch as bs + 1
  | _, _ => 0

/-- The half of byte `index` where two keys first differ: 1 for the more important one, also
when one of the keys ends there, 2 for the other. -/
def mismatchFlags (key lkey : List UInt8) (index : Nat) : Nat :=
  if h : index < key.length ∧ index < lkey.length then
    if (key[index] ^^^ lkey[index]) &&& 0xf0 != 0 then 1 else 2
  else 1

/-- The climb of `ns_find_branch`: pop the stack while the parent tests a nibble at or after
the first mismatch. -/
def nsClimb (index flags : Nat) : List (TrieFrame α) → TrieNode α → List (TrieFrame α) × TrieNode α
  | [], t => ([], t)
  | p :: path, t =>
    if p.index < index ∨ (p.index = index ∧ p.flags < flags) then (p :: path, t)
    else nsClimb index flags path (p.plug t)

/-- What `ns_find_branch` leaves: the stack (the path and the node on top), the position of the
first mismatch (`flags` 0 for an equal key), and the leaf's first unmatched byte (`none` for its
end, the code's -256). -/
structure TrieBranchPoint (α : Type u) where
  path : List (TrieFrame α)
  top : TrieNode α
  index : Nat
  flags : Nat
  first : Option UInt8

/-- `ns_find_branch`. -/
def nsFindBranch (root : TrieNode α) (key : List UInt8) : Option (TrieBranchPoint α) :=
  match nsDescend key [] root with
  | none => none
  | some (path, lkey, lval) =>
    let index := firstMismatch key lkey
    let first := lkey[index]?
    if index = key.length ∧ key.length = lkey.length then
      some ⟨path, .leaf lkey lval, index, 0, first⟩
    else
      let flags := mismatchFlags key lkey index
      let r := nsClimb index flags path (.leaf lkey lval)
      some ⟨r.1, r.2, index, flags, first⟩

/-- The value slot `trie_get_ins` returns: the path to the leaf and the leaf. -/
structure TrieSlot (α : Type u) where
  path : List (TrieFrame α)
  key : List UInt8
  val : Option α

/-- The root after a write through the slot. -/
def TrieSlot.write (s : TrieSlot α) (v : Option α) : TrieNode α := plugAll s.path (.leaf s.key v)

/-- `trie_get_ins`: the trie with `key` present and the slot of `key`. -/
def trieGetIns (tbl : Trie α) (key : List UInt8) : Option (Trie α × TrieSlot α) :=
  if tbl.weight = 0 then some (⟨.leaf key none, tbl.weight + 1⟩, ⟨[], key, none⟩)
  else
    match nsFindBranch tbl.root key with
    | none => none
    | some bp =>
      let leaf : TrieNode α := .leaf key none
      -- a new binary branch at the top of the stack, above the old node `bp.top`
      let newBranch : Option (Trie α × TrieSlot α) :=
        let b1 := twigbit bp.flags bp.index key
        let b2 := match bp.first with | none => 1 <<< 0 | some k2 => nibbit k2 bp.flags
        let bitmap := b1 ||| b2
        let twigs := ([bp.top, bp.top].set (twigoff bitmap b1) leaf).set (twigoff bitmap b2) bp.top
        some (⟨plugAll bp.path (.branch bp.flags bitmap bp.index twigs), tbl.weight + 1⟩,
          ⟨TrieFrame.ofTwig bp.flags bitmap bp.index twigs (twigoff bitmap b1) :: bp.path, key, none⟩)
      if bp.flags = 0 then
        match bp.top with
        | .leaf k v => some (tbl, ⟨bp.path, k, v⟩)
        | .branch .. => none
      else
        match bp.top with
        | .branch flags bitmap index twigs =>
          if bp.index = index ∧ bp.flags = flags then
            -- the branch at the top gets a new leaf twig
            let b1 := twigbit flags index key
            if hastwig bitmap b1 then none
            else
              let s := twigoff bitmap b1
              let twigs := twigs.take s ++ leaf :: twigs.drop s
              let bitmap := bitmap ||| b1
              some (⟨plugAll bp.path (.branch flags bitmap index twigs), tbl.weight + 1⟩,
                ⟨TrieFrame.ofTwig flags bitmap index twigs s :: bp.path, key, none⟩)
          else newBranch
        | .leaf .. => newBranch

/-! ## Traversal -/

mutual
/-- `apply_trie`: `f` on each slot in order, until it returns an error. -/
def applyTrie {σ : Type v} (f : Option α → σ → Int × σ) : TrieNode α → σ → Int × σ
  | .leaf _ v, d => f v d
  | .branch _ _ _ twigs, d => applyTwigs f twigs d

/-- The loop of `apply_trie` over the twigs. -/
def applyTwigs {σ : Type v} (f : Option α → σ → Int × σ) : List (TrieNode α) → σ → Int × σ
  | [], d => (knotEok, d)
  | t :: twigs, d =>
    let r := applyTrie f t d
    if r.1 ≠ knotEok then r else applyTwigs f twigs r.2
end

/-- `trie_apply`. -/
def trieApply {σ : Type v} (tbl : Trie α) (f : Option α → σ → Int × σ) (d : σ) : Int × σ :=
  if tbl.weight = 0 then (knotEok, d) else applyTrie f tbl.root d

/-- `ns_first_leaf`: down the first twigs to a leaf. -/
def nsFirstLeaf : List (TrieFrame α) → TrieNode α → Option (List (TrieFrame α) × TrieNode α)
  | path, .leaf k v => some (path, .leaf k v)
  | _, .branch _ _ _ [] => none
  | path, .branch flags bitmap index (t :: twigs) =>
    nsFirstLeaf (⟨flags, bitmap, index, [], twigs⟩ :: path) t

/-- The climb of `ns_next_leaf` from a leaf to the next twig on the right; `some none` when no
parent is left (`KNOT_ENOENT`). -/
def nsNextUp : List (TrieFrame α) → TrieNode α → Option (Option (List (TrieFrame α) × TrieNode α))
  | [], _ => some none
  | p :: path, t =>
    if p.before.length + 1 < bitmapWeight p.bitmap then
      match p.after with
      | [] => none
      | t' :: after => (nsFirstLeaf (⟨p.flags, p.bitmap, p.index, p.before ++ [t], after⟩ :: path) t').map some
    else nsNextUp path (p.plug t)

/-- `ns_next_leaf`. -/
def nsNextLeaf (path : List (TrieFrame α)) : TrieNode α → Option (Option (List (TrieFrame α) × TrieNode α))
  | .leaf k v => nsNextUp path (.leaf k v)
  | t => (nsFirstLeaf path t).map some

/-- `trie_it_t`: the stack, as a path and the node on top, or `none` once finished. -/
def TrieIt (α : Type u) := Option (List (TrieFrame α) × TrieNode α)

/-- `trie_it_begin`. -/
def trieItBegin (tbl : Trie α) : Option (TrieIt α) :=
  if tbl.weight = 0 then some none else (nsFirstLeaf [] tbl.root).map some

/-- `trie_it_next`: a missing next leaf finishes the iterator. -/
def trieItNext : TrieIt α → Option (TrieIt α)
  | none => none
  | some (path, t) => nsNextLeaf path t

/-- `trie_it_finished`. -/
def trieItFinished (it : TrieIt α) : Bool := Option.isNone it

/-- `trie_it_key` and `trie_it_val`: the leaf on top of the stack. -/
def trieItLeaf : TrieIt α → Option (List UInt8 × Option α)
  | some (_, .leaf k v) => some (k, v)
  | _ => none

/-- A loop reading every key and slot with the iterator, for at most `fuel` leaves. -/
def trieItCollect : Nat → TrieIt α → Option (List (List UInt8 × Option α))
  | _, none => some []
  | 0, some _ => none
  | fuel + 1, it => do
    let kv ← trieItLeaf it
    let it' ← trieItNext it
    let rest ← trieItCollect fuel it'
    pure (kv :: rest)

/-- Everything an iteration from `trie_it_begin` reads. -/
def trieItems (tbl : Trie α) : Option (List (List UInt8 × Option α)) :=
  (trieItBegin tbl).bind (trieItCollect tbl.weight)

/-! ## Predecessor search -/

/-- `ns_last_leaf`: down the last twigs to a leaf. -/
def nsLastLeaf (path : List (TrieFrame α)) : TrieNode α → Option (List (TrieFrame α) × TrieNode α)
  | .leaf k v => some (path, .leaf k v)
  | .branch flags bitmap index twigs =>
    -- `lasti` is `bitmap_weight - 1`, asserted not to be negative
    match bitmapWeight bitmap with
    | 0 => none
    | lasti + 1 =>
      if h : lasti < twigs.length then
        nsLastLeaf (TrieFrame.ofTwig flags bitmap index twigs lasti :: path) twigs[lasti]
      else none
termination_by t => sizeOf t
decreasing_by exact TrieNode.sizeOf_lt_branch h

/-- The climb of `ns_prev_leaf` to the nearest twig on the left, and down its last twigs;
`some none` when no parent is left (`KNOT_ENOENT`). -/
def nsPrevUp : List (TrieFrame α) → TrieNode α → Option (Option (List (TrieFrame α) × TrieNode α))
  | [], _ => some none
  | p :: path, t =>
    -- `pindex > 0` exactly when there are twigs before, and twig `pindex - 1` is the last of them
    match p.before.getLast? with
    | some t' =>
      (nsLastLeaf (⟨p.flags, p.bitmap, p.index, p.before.dropLast, t :: p.after⟩ :: path) t').map some
    | none => nsPrevUp path (p.plug t)

/-- `ns_prev_leaf`, from the branch on top of the stack: its prefix leaf (twig 0 of bit 0) when it
has one, or else the last leaf left of it. -/
def nsPrevLeaf (path : List (TrieFrame α)) : TrieNode α → Option (Option (List (TrieFrame α) × TrieNode α))
  | .branch flags bitmap index twigs =>
    if hastwig bitmap (1 <<< 0) then
      match twigs with
      | [] => none
      | t :: twigs => some (some (⟨flags, bitmap, index, [], twigs⟩ :: path, t))
    else nsPrevUp path (.branch flags bitmap index twigs)
  -- `hastwig` on a leaf would read the bits of its key pointer; `trie_get_leq` only calls this on a
  -- branch
  | .leaf .. => none

/-- A key's byte as `trie_get_leq` compares it: as an unsigned char, and -256 past the key's end. -/
def unmatchedChar : Option UInt8 → Int
  | some c => c.toNat
  | none => -256

/-- The end of `trie_get_leq` on success: the leaf on top of the stack, whose slot `*val` points
to, and 1. -/
def leqSuccess : Option (List (TrieFrame α) × TrieNode α) → Option (Int × Option (TrieSlot α))
  | some (path, .leaf k v) => some (1, some ⟨path, k, v⟩)
  | _ => none

/-- The twig `trie_get_leq` takes at the branch where the key leaves the trie: the one before the
key's (`un_key < un_leaf` is `less`), or -1 for none. `twigoff` is the successor's offset when the
key's nibble has no twig. -/
def leqIndex (key : List UInt8) (less : Bool) (flags bitmap index : Nat) : Int :=
  let b := twigbit flags index key
  if hastwig bitmap b then twigoff bitmap b - (if less then 1 else 0) else twigoff bitmap b - 1

/-- The second half of `trie_get_leq`, at the branch on top of the stack where the key leaves the
trie: the first non-matching step done again, into the twig before the key's and down to its last
leaf, or else to the leaf before the branch. -/
def leqFrom (key : List UInt8) (less : Bool) (path : List (TrieFrame α)) :
    TrieNode α → Option (Int × Option (TrieSlot α))
  | .branch flags bitmap index twigs =>
    let i := leqIndex key less flags bitmap index
    if 0 ≤ i then
      if h : i.toNat < twigs.length then
        leqSuccess (nsLastLeaf (TrieFrame.ofTwig flags bitmap index twigs i.toNat :: path) twigs[i.toNat])
      else none
    else
      match nsPrevLeaf path (.branch flags bitmap index twigs) with
      | none => none
      | some none => some (knotEnoent, none)
      | some (some s) => leqSuccess (some s)
  | .leaf .. => none

/-- Whether the node on top of the stack is the branch at the branching point. -/
def TrieBranchPoint.atBranch (bp : TrieBranchPoint α) : Bool :=
  match bp.top with
  | .branch flags _ index _ => index == bp.index && flags == bp.flags
  | .leaf .. => false

/-- `trie_get_leq`: the value returned, 0 for the key itself and 1 for a smaller key, and the slot
`*val` points to (`none` for NULL). -/
def trieGetLeq (tbl : Trie α) (key : List UInt8) : Option (Int × Option (TrieSlot α)) :=
  if tbl.weight = 0 then some (knotEnoent, none)
  else
    match nsFindBranch tbl.root key with
    | none => none
    | some bp =>
      let less := decide (unmatchedChar key[bp.index]? < unmatchedChar bp.first)
      if bp.flags = 0 then
        match bp.top with
        | .leaf k v => some (knotEok, some ⟨bp.path, k, v⟩)
        | .branch .. => none
      else
        if bp.atBranch then leqFrom key less bp.path bp.top
        else
          match bp.path with
          -- the root was unmatched already
          | [] => if less then some (knotEnoent, none) else leqSuccess (nsLastLeaf [] bp.top)
          -- the node on top was the first unmatched one: step up to its parent
          | p :: path => leqFrom key less path (p.plug bp.top)

/-! ## Runs -/

/-- The calls a run is made of; `set` is `*trie_get_ins(tbl, key) = val`. -/
inductive TrieOp (α : Type u) where
  | getIns (key : List UInt8)
  | set (key : List UInt8) (val : Option α)
  | del (key : List UInt8)
  | delFirst
  | clear

/-- One call; a call that returns an error leaves the trie as it was. -/
def trieStep (tbl : Trie α) : TrieOp α → Option (Trie α)
  | .getIns key => (trieGetIns tbl key).map (·.1)
  | .set key val => (trieGetIns tbl key).map fun r => ⟨r.2.write val, r.1.weight⟩
  | .del key => (trieDel tbl key).map fun | .ok r => r.1 | .error _ => tbl
  | .delFirst => (trieDelFirst tbl false none).map fun | .ok r => r.1 | .error _ => tbl
  | .clear => some (trieClear tbl)

/-- A sequence of calls. -/
def trieRun (tbl : Trie α) : List (TrieOp α) → Option (Trie α)
  | [] => some tbl
  | op :: ops => (trieStep tbl op).bind fun tbl => trieRun tbl ops

end KnotResolver.Generic
