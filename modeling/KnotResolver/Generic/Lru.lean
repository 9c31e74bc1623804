import Mathlib

/-!
# The LRU cache

`lib/generic/lru.c` and `lru.h`. A key hashes to one of `2 ^ log_groups` groups. A group stores
up to `LRU_ASSOC` items, each with the top half of its key's hash and a 16-bit hit counter, and
tracks the hash tops and counters of `LRU_TRACKED - LRU_ASSOC` more keys; the last counter
counts misses between decays of all counters. `lru_get_impl` looks a key up among the stored
items and, asked to insert, puts it into an empty or counted-out slot, or into the slot of a
stored key whose count a tracked one has passed.

The model is of a 64-bit target. The hash function is a parameter (MurmurHash3 in the source).
The counters and hash tops are `uint16_t`: they are numbers below `2 ^ 16` here, with the
source's increments and decrements taken modulo `2 ^ 16`. An item lives at an address, and the
value pointers handed out are item addresses; an allocation, assumed to succeed, takes the next
fresh one.
-/

namespace KnotResolver.Generic

/-- `LRU_ASSOC` when `size_t` has 8 bytes. -/
def lruAssoc : Nat := 3

/-- `LRU_TRACKED`: `(64 - sizeof(size_t) * LRU_ASSOC) / 4 - 1`. -/
def lruTracked : Nat := (64 - 8 * lruAssoc) / 4 - 1

/-- `++` on a `uint16_t`. -/
def u16Inc (c : Nat) : Nat := (c + 1) % 65536

/-- `--` on a `uint16_t`. -/
def u16Dec (c : Nat) : Nat := (c + 65535) % 65536

/-- `round_power`: `size` rounded up to a multiple of `2 ^ power`, on an `uint`. -/
def roundPower (size power : UInt32) : UInt32 :=
  ((size - 1) &&& ~~~(((1 : UInt32) <<< power) - 1)) + ((1 : UInt32) <<< power)

/-- `val_offset`: the value follows the two 16-bit lengths and the key, aligned to 4 bytes. -/
def valOffset (keyLen : UInt32) : UInt32 := roundPower (4 + keyLen) 2

/-- `item_size`. -/
def itemSize (keyLen valLen : UInt32) : UInt32 := valOffset keyLen + valLen

/-- `struct lru_item` at address `id`: the key and the value bytes. -/
structure LruItem where
  id : Nat
  key : List UInt8
  valLen : Nat
  val : List UInt8

/-- `struct lru_group`. -/
structure LruGroup where
  counts : Nat → Nat
  hashes : Nat → Nat
  items : Nat → Option LruItem

/-- A group as `memset` to zero leaves it. -/
def LruGroup.empty : LruGroup := ⟨fun _ => 0, fun _ => 0, fun _ => none⟩

/-- `struct lru`; `next` is the address the next allocation returns. -/
structure Lru where
  logGroups : Nat
  groups : Nat → LruGroup
  next : Nat

/-- The loop of `lru_create_impl` that counts the halvings of `s` down to 0. -/
def lruLogLoop (s : Nat) : Nat :=
  if h : s = 0 then 0 else lruLogLoop (s / 2) + 1
decreasing_by omega

/-- `lru_create_impl`, `none` where an assertion fails. -/
def lruCreateImpl (maxSlots : Nat) : Option Lru :=
  if maxSlots = 0 then none
  else
    let groupCount := (maxSlots - 1) / lruAssoc + 1
    let logGroups := lruLogLoop (groupCount - 1)
    let groupCount := 1 <<< logGroups
    if maxSlots ≤ groupCount * lruAssoc ∧ groupCount * lruAssoc < 2 * maxSlots then
      some ⟨logGroups, fun _ => LruGroup.empty, 0⟩
    else none

/-! ## Counters -/

namespace LruGroup

/-- `group_dec_counts`: the miss counter restarts, and every counter that is not 0 drops. -/
def decCounts (g : LruGroup) : LruGroup :=
  let counts := Function.update g.counts lruTracked lruTracked
  { g with counts := fun i => if i < lruTracked + 1 ∧ counts i ≠ 0 then u16Dec (counts i) else counts i }

/-- `group_inc_count`: an increment that wraps to 0 is taken back to the maximum. -/
def incCount (g : LruGroup) (i : Nat) : LruGroup :=
  let c := u16Inc (g.counts i)
  { g with counts := Function.update g.counts i (if c ≠ 0 then c else 65535) }

/-! ## `lru_get_impl` within the key's group -/

/-- The value pointer, and `*is_new`, of a successful `lru_get_impl`. -/
structure Hit where
  ptr : Nat
  isNew : Bool

/-- The `insert:` label up to the `found:` one: slot `i` gets the key's hash top and an item with
the key and a zeroed value, reusing the slot's item when it has the same size. -/
def insert (g : LruGroup) (next i : Nat) (key : List UInt8) (top valLen : Nat) : LruGroup × Nat :=
  let fresh : Nat × Nat := (next, next + 1)
  let (id, next) := match g.items i with
    | some it =>
      if itemSize key.length.toUInt32 valLen.toUInt32 = itemSize it.key.length.toUInt32 it.valLen.toUInt32
      then (it.id, next) else fresh
    | none => fresh
  ({ g with hashes := Function.update g.hashes i top,
            items := Function.update g.items i (some ⟨id, key, valLen, List.replicate valLen 0⟩) },
    next)

/-- The `found:` label: the slot's counter goes up and its value pointer is returned. -/
def found (g : LruGroup) (next i : Nat) (isNew : Bool) : Option (LruGroup × Nat × Option Hit) :=
  let g := g.incCount i
  match g.items i with
  | some it => some (g, next, some ⟨it.id, isNew⟩)
  | none => none

/-- Inserting into slot `i`, then `found:`. -/
def insertAt (g : LruGroup) (next i : Nat) (key : List UInt8) (top valLen : Nat) :
    Option (LruGroup × Nat × Option Hit) :=
  let r := g.insert next i key top valLen
  r.1.found r.2 i true

/-- The counters and hashes of the tracked slot `i` and the stored slot `j` swapped, the tracked
counter first taken down by the increment `found:` gives back. -/
def swapTracked (g : LruGroup) (i j : Nat) : LruGroup :=
  let ci := u16Dec (g.counts i)
  { g with counts := Function.update (Function.update g.counts i (g.counts j)) j ci,
           hashes := Function.update (Function.update g.hashes i (g.hashes j)) j (g.hashes i) }

/-- `lru_get_impl` once the group is chosen: the group, the next address, and the hit or NULL;
`none` where the source dereferences a missing item. -/
def get (g : LruGroup) (next : Nat) (key : List UInt8) (top valLen : Nat) (doInsert : Bool) :
    Option (LruGroup × Nat × Option Hit) :=
  -- scan the stored items
  match (List.range lruAssoc).find? (fun i => g.hashes i == top && (g.items i).any (·.key == key)) with
  | some i =>
    -- the key, but with less room than the value asks for: insert it anew
    if doInsert && (g.items i).any (valLen > ·.valLen) then g.insertAt next i key top valLen
    else g.found next i false
  | none =>
    -- an empty or counted-out slot
    match (if doInsert then (List.range lruAssoc).find? (fun i => (g.items i).isNone || g.counts i == 0)
      else none) with
    | some i => g.insertAt next i key top valLen
    | none =>
      -- a tracked hash
      match (List.range' lruAssoc (lruTracked - lruAssoc)).find? (fun i => g.hashes i == top) with
      | some i =>
        let g := g.incCount i
        if !doInsert then some (g, next, none)
        else
          -- the first stored key whose count the tracked one passed is evicted
          match (List.range lruAssoc).find? (fun j => g.counts j < g.counts i) with
          | some j => (g.swapTracked i j).insertAt next j key top valLen
          | none => some (g, next, none)
      | none =>
        -- a miss: all counters decay on every `LRU_TRACKED`-th one
        if g.counts lruTracked ≠ 0 then
          some ({ g with counts := Function.update g.counts lruTracked (u16Dec (g.counts lruTracked)) },
            next, none)
        else some (g.decCounts, next, none)

end LruGroup

/-- The group of a key: the low bits of its hash. -/
def lruGroupOf (hash : List UInt8 → UInt32) (logGroups : Nat) (key : List UInt8) : Nat :=
  (hash key).toNat &&& ((1 <<< logGroups) - 1)

/-- The top half of a key's hash. -/
def lruHashTop (hash : List UInt8 → UInt32) (key : List UInt8) : Nat := (hash key).toNat >>> 16

/-- `lru_get_impl`; `none` where an assertion fails. -/
def lruGetImpl (hash : List UInt8 → UInt32) (lru : Lru) (key : List UInt8) (valLen : Nat)
    (doInsert : Bool) : Option (Lru × Option LruGroup.Hit) :=
  if key.length ≤ 65535 ∧ (doInsert = true → valLen ≤ 65535) then
    let gi := lruGroupOf hash lru.logGroups key
    ((lru.groups gi).get lru.next key (lruHashTop hash key) valLen doInsert).map fun r =>
      (⟨lru.logGroups, Function.update lru.groups gi r.1, r.2.1⟩, r.2.2)
  else none

/-- `lru_get_try`: the value length is -1 as an `uint`. -/
def lruGetTry (hash : List UInt8 → UInt32) (lru : Lru) (key : List UInt8) :
    Option (Lru × Option LruGroup.Hit) :=
  lruGetImpl hash lru key (2 ^ 32 - 1) false

/-- `lru_get_new` for values of `valLen` bytes. -/
def lruGetNew (hash : List UInt8 → UInt32) (valLen : Nat) (lru : Lru) (key : List UInt8) :
    Option (Lru × Option LruGroup.Hit) :=
  lruGetImpl hash lru key valLen true

/-! ## Whole-cache calls -/

/-- `enum lru_apply_do`. -/
inductive LruApplyDo where
  | nothing
  | evict
  deriving DecidableEq

/-- The loop of `lru_apply_impl` over a group's slots: `f` reads the key and value of each item,
and an evicted item's slot is cleared. -/
def LruGroup.apply (f : List UInt8 → List UInt8 → LruApplyDo) (g : LruGroup) : LruGroup :=
  let evicted : Nat → Bool := fun j =>
    decide (j < lruAssoc) && (g.items j).any fun it => f it.key it.val = .evict
  { counts := fun j => if evicted j then 0 else g.counts j,
    hashes := fun j => if evicted j then 0 else g.hashes j,
    items := fun j => if evicted j then none else g.items j }

/-- `lru_apply_impl`. -/
def lruApplyImpl (lru : Lru) (f : List UInt8 → List UInt8 → LruApplyDo) : Lru :=
  { lru with groups := fun gi => if gi < 2 ^ lru.logGroups then (lru.groups gi).apply f else lru.groups gi }

/-- `lru_reset_impl`: the items freed and the groups zeroed. -/
def lruResetImpl (lru : Lru) : Lru :=
  { lru with groups := fun gi => if gi < 2 ^ lru.logGroups then LruGroup.empty else lru.groups gi }

/-- A write of `v` through the value pointer `ptr`, into the item at that address. -/
def LruGroup.write (g : LruGroup) (ptr : Nat) (v : List UInt8) : LruGroup :=
  { g with items := fun j => (g.items j).map fun it => if it.id = ptr then { it with val := v } else it }

/-- A write through a value pointer. -/
def lruWrite (lru : Lru) (ptr : Nat) (v : List UInt8) : Lru :=
  { lru with groups := fun gi => (lru.groups gi).write ptr v }

/-! ## Runs -/

/-- The calls a run is made of; `set` writes through the pointer `lru_get_new` returns. -/
inductive LruOp where
  | getNew (key : List UInt8)
  | set (key : List UInt8) (val : List UInt8)
  | getTry (key : List UInt8)
  | apply (f : List UInt8 → List UInt8 → LruApplyDo)
  | reset

/-- One call on an LRU of values of `valLen` bytes, with what it returns. -/
def lruStep (hash : List UInt8 → UInt32) (valLen : Nat) (lru : Lru) :
    LruOp → Option (Lru × Option LruGroup.Hit)
  | .getNew key => lruGetNew hash valLen lru key
  | .set key v => (lruGetNew hash valLen lru key).map fun r =>
    match r.2 with
    | some hit => (lruWrite r.1 hit.ptr v, some hit)
    | none => r
  | .getTry key => lruGetTry hash lru key
  | .apply f => some (lruApplyImpl lru f, none)
  | .reset => some (lruResetImpl lru, none)

/-- A sequence of calls. -/
def lruRun (hash : List UInt8 → UInt32) (valLen : Nat) (lru : Lru) : List LruOp → Option Lru
  | [] => some lru
  | op :: ops => (lruStep hash valLen lru op).bind fun r => lruRun hash valLen r.1 ops

end KnotResolver.Generic
