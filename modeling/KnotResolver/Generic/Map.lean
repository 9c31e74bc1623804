import Mathlib

/-!
# The crit-bit tree (`lib/generic/map.c`)

`map_t` maps C strings to values (`void *`). A leaf (`cb_data_t`) holds a key and its value; an
internal node (`cb_node_t`) tests one bit of the key, in byte `byte`, and `otherbits` has every
bit set but that one, so that `(1 + (otherbits | c)) >> 8` is that bit of the byte `c`
(`cbDirection`). The code tells a node from a leaf by the lowest bit of the pointer; here they
are the two constructors of `CbRef`.

A key is the bytes of a C string before its terminator, so the specs assume it holds no zero
byte. Every loop reads the string it walks with past its end as zero (`c = 0` when
`q->byte >= ulen`), and `map_set` reads the stored key up to its terminator: both are
`List.getD _ _ 0` here. Allocation is assumed to succeed, so the `ENOMEM` returns are left out,
as is the freeing of memory.
-/

namespace KnotResolver.Generic

/-- A tagged pointer of the tree: a leaf `cb_data_t`, or an internal `cb_node_t`. -/
inductive CbRef (α : Type u) where
  | data (key : List UInt8) (value : α)
  | node (byte : Nat) (otherbits : UInt8) (child0 child1 : CbRef α)
  deriving Repr, DecidableEq

/-- `map_t`: the root, `NULL` when the map is empty. -/
structure MapT (α : Type u) where
  root : Option (CbRef α)
  deriving Repr, DecidableEq

variable {α : Type u}

/-- `map_make`. -/
def mapMake : MapT α := ⟨none⟩

/-- `direction = (1 + (q->otherbits | c)) >> 8`: 1 when `c` has the bit that `otherbits` leaves
out. -/
def cbDirection (otherbits c : UInt8) : Nat := (1 + (otherbits ||| c).toNat) >>> 8

/-! ## Lookup -/

/-- The loop of `cbt_get`: the leaf that `str` reaches, following at each node the direction of
its byte there. -/
def cbtWalk (str : List UInt8) : CbRef α → List UInt8 × α
  | .data key value => (key, value)
  | .node byte otherbits child0 child1 =>
    if cbDirection otherbits (str.getD byte 0) = 0 then cbtWalk str child0 else cbtWalk str child1

/-- `cbt_get`: the value of `str` (`*value` when 1 is returned), `none` when the map is empty or
the leaf reached holds another key. -/
def cbtGet (map : MapT α) (str : List UInt8) : Option α :=
  match map.root with
  | none => none
  | some p =>
    let x := cbtWalk str p
    if str = x.1 then some x.2 else none

/-- `map_contains`. -/
def mapContains (map : MapT α) (str : List UInt8) : Bool := (cbtGet map str).isSome

/-- `map_get`: the value, `NULL` (`none`) when `str` is absent. -/
def mapGet (map : MapT α) (str : List UInt8) : Option α := cbtGet map str

/-! ## Insertion -/

/-- The loops of `map_set` that look for the first byte where the key `data->key` of the leaf
reached differs from `str`, from byte `newbyte` on, with `rest` the bytes of `str` from there:
that byte and the difference there (`newotherbits` before it is smeared), or `none` when the key
is `str`. Past the end of `str` the key's byte is compared with the terminator. -/
def cbtDiffFrom (key : List UInt8) : List UInt8 → Nat → Option (Nat × UInt8)
  | [], newbyte => if key.getD newbyte 0 ≠ 0 then some (newbyte, key.getD newbyte 0) else none
  | u :: rest, newbyte =>
    if key.getD newbyte 0 ≠ u then some (newbyte, key.getD newbyte 0 ^^^ u)
    else cbtDiffFrom key rest (newbyte + 1)

/-- `different_byte_found`: every bit below the highest bit of the difference is set, then that
bit alone is cleared and all the others set. The source computes in `uint32_t` on values below
256, where this is the same. -/
def cbOtherbits (newotherbits : UInt8) : UInt8 :=
  let x := newotherbits ||| newotherbits >>> 1
  let x := x ||| x >>> 2
  let x := x ||| x >>> 4
  (x &&& ~~~(x >>> 1)) ^^^ 255

/-- The new node of `map_set` above the subtree `old`, which goes to `child[newdirection]`, with the
new leaf `x` on the other side. -/
def cbtNewNode (newbyte : Nat) (newotherbits : UInt8) (newdirection : Nat) (old x : CbRef α) :
    CbRef α :=
  if newdirection = 0 then .node newbyte newotherbits old x else .node newbyte newotherbits x old

/-- The insertion loop of `map_set`: down the path of `str` while the nodes test an earlier bit
than the new node (a smaller byte, or the same byte and a smaller `otherbits`), then the new node
in place of the subtree reached. -/
def cbtInsert (str : List UInt8) (x : CbRef α) (newbyte : Nat) (newotherbits : UInt8)
    (newdirection : Nat) : CbRef α → CbRef α
  | .data key value => cbtNewNode newbyte newotherbits newdirection (.data key value) x
  | .node byte otherbits child0 child1 =>
    if byte > newbyte ∨ (byte = newbyte ∧ otherbits > newotherbits) then
      cbtNewNode newbyte newotherbits newdirection (.node byte otherbits child0 child1) x
    else if cbDirection otherbits (str.getD byte 0) = 0 then
      .node byte otherbits (cbtInsert str x newbyte newotherbits newdirection child0) child1
    else .node byte otherbits child0 (cbtInsert str x newbyte newotherbits newdirection child1)

/-- `data->value = val` in the leaf that `str` reaches. -/
def cbtSetValue (str : List UInt8) (val : α) : CbRef α → CbRef α
  | .data key _ => .data key val
  | .node byte otherbits child0 child1 =>
    if cbDirection otherbits (str.getD byte 0) = 0 then
      .node byte otherbits (cbtSetValue str val child0) child1
    else .node byte otherbits child0 (cbtSetValue str val child1)

/-- `map_set`: 0 when `str` is added, 1 when the value of `str` is replaced. -/
def mapSet (map : MapT α) (str : List UInt8) (val : α) : MapT α × Int :=
  match map.root with
  | none => (⟨some (.data str val)⟩, 0)
  | some p =>
    let data := (cbtWalk str p).1
    match cbtDiffFrom data str 0 with
    | none => (⟨some (cbtSetValue str val p)⟩, 1)
    | some (newbyte, diff) =>
      let newotherbits := cbOtherbits diff
      let newdirection := cbDirection newotherbits (data.getD newbyte 0)
      (⟨some (cbtInsert str (.data str val) newbyte newotherbits newdirection p)⟩, 0)

/-! ## Deletion -/

/-- The loop of `map_del` and the unlinking after it: `none` when the leaf reached holds another
key (1 is returned), else the subtree without the leaf of `str`, `none` when that leaf was all of
it. The node above the leaf is replaced by the leaf's sibling (`*whereq = q->child[1 -
direction]`). -/
def cbtDelete (str : List UInt8) : CbRef α → Option (Option (CbRef α))
  | .data key _ => if str = key then some none else none
  | .node byte otherbits child0 child1 =>
    if cbDirection otherbits (str.getD byte 0) = 0 then
      (cbtDelete str child0).map fun r => some ((r.map fun c => .node byte otherbits c child1).getD child1)
    else
      (cbtDelete str child1).map fun r => some ((r.map fun c => .node byte otherbits child0 c).getD child0)

/-- `map_del`: 0 when `str` is deleted, 1 when it is absent. -/
def mapDel (map : MapT α) (str : List UInt8) : MapT α × Int :=
  match map.root with
  | none => (map, 1)
  | some p =>
    match cbtDelete str p with
    | none => (map, 1)
    | some root => (⟨root⟩, 0)

/-- `map_clear`. -/
def mapClear (_ : MapT α) : MapT α := ⟨none⟩

/-! ## Walks -/

section Walk

variable {σ : Type v} (callback : List UInt8 → α → σ → Int × σ)

/-- `cbt_traverse_prefixed`: the callback on every leaf, `child[0]` before `child[1]`, until it
returns nonzero. The callback's baton is the state it passes on. -/
def cbtTraversePrefixed : CbRef α → σ → Int × σ
  | .data key value, baton => callback key value baton
  | .node _ _ child0 child1, baton =>
    let r := cbtTraversePrefixed child0 baton
    if r.1 ≠ 0 then r else
    let r := cbtTraversePrefixed child1 r.2
    if r.1 ≠ 0 then r else (0, r.2)

/-- The loop of `map_walk_prefixed`: the leaf that `pfx` reaches, and `top`, the subtree last
reached through a node testing a byte of `pfx`. -/
def cbtPrefixDescend (pfx : List UInt8) : CbRef α → CbRef α → (List UInt8 × α) × CbRef α
  | .data key value, top => ((key, value), top)
  | .node byte otherbits child0 child1, top =>
    if cbDirection otherbits (pfx.getD byte 0) = 0 then
      cbtPrefixDescend pfx child0 (if byte < pfx.length then child0 else top)
    else cbtPrefixDescend pfx child1 (if byte < pfx.length then child1 else top)

/-- `map_walk_prefixed`: 0 at once when the leaf reached does not start with `pfx`, else the walk
of `top`. -/
def mapWalkPrefixed (map : MapT α) (pfx : List UInt8) (baton : σ) : Int × σ :=
  match map.root with
  | none => (0, baton)
  | some p =>
    let r := cbtPrefixDescend pfx p p
    if r.1.1.length < pfx.length ∨ r.1.1.take pfx.length ≠ pfx then (0, baton)
    else cbtTraversePrefixed callback r.2 baton

/-- `map_walk`: `map_walk_prefixed` with the empty prefix. -/
def mapWalk (map : MapT α) (baton : σ) : Int × σ := mapWalkPrefixed callback map [] baton

end Walk

end KnotResolver.Generic
