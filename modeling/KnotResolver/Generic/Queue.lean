import KnotResolver.Memory

/-!
# The chunked queue (`lib/generic/queue.h`, `lib/generic/queue.c`)

A queue keeps its items in chunks of `chunk_cap` slots, linked from `head` to `tail`, each with
its items between `begin` and `end`. `queue_push` fills the tail chunk, shifting its items to the
front when it is at most half used and linking a new chunk otherwise; `queue_push_head` fills the
head chunk the other way; `queue_pop` drops the first item and frees the head chunk once empty.

`QueueMem.Rep m cs l` says the queue holds the list `l` in the chunks `cs`. Every operation keeps
it (`queueStep_rep`), and then `queue_len`, `queue_head`, `queue_tail` and the iterator agree
with the list. The one exception is a `queue_pop` that removes the last item: it frees the only
chunk and sets `head` to NULL but leaves `tail` on the freed chunk, where the next `queue_push`
writes.
-/

namespace KnotResolver.Generic

open Heap

/-- `struct queue`. -/
structure Queue where
  len : Nat
  chunkCap : Nat
  head : Option Nat
  tail : Option Nat

/-- `struct queue_chunk`: `begin` and `end` delimit the items; a slot never written holds `none`. -/
structure QueueChunk (α : Type) where
  next : Option Nat
  beginIdx : Nat
  endIdx : Nat
  cap : Nat
  data : Nat → Option α

/-- A queue and the memory its chunks take. -/
structure QueueMem (α : Type) where
  q : Queue
  heap : Heap (QueueChunk α)

variable {α : Type}

/-- `queue_init_impl` on a 64-bit system: a chunk takes 128 bytes less the allocator's 8, of
which its header takes 16. -/
def queueInitImpl (itemSize : Nat) : QueueMem α :=
  let chunkCap := (128 - 16 - 8) / itemSize
  ⟨⟨0, if chunkCap = 0 then 1 else chunkCap, none, none⟩, Heap.empty⟩

/-- `queue_chunk_new`: the header zeroed but for `cap`. -/
def queueChunkNew (q : Queue) : QueueChunk α := ⟨none, 0, 0, q.chunkCap, fun _ => none⟩

/-- The `memcpy` of `queue_push_impl`: the items moved to the front of the chunk. -/
def QueueChunk.shiftFront (c : QueueChunk α) : QueueChunk α :=
  { c with
    data := fun i => if i < c.endIdx - c.beginIdx then c.data (c.beginIdx + i) else c.data i
    endIdx := c.endIdx - c.beginIdx
    beginIdx := 0 }

/-- The `memcpy` of `queue_push_head_impl`, with `begin` zero: the items moved to the back. -/
def QueueChunk.shiftBack (c : QueueChunk α) : QueueChunk α :=
  { c with
    data := fun i => if c.cap - c.endIdx ≤ i ∧ i < c.cap then c.data (i - (c.cap - c.endIdx)) else c.data i
    beginIdx := c.cap - c.endIdx
    endIdx := c.cap }

/-- The end of `queue_push_impl`, on the chunk `t` with room: the queue and the slot `t->end`. -/
def queuePushAt (m : QueueMem α) (t : Nat) : Option (QueueMem α × Nat × Nat) := do
  let c ← m.heap.cells t
  if c.endIdx < c.cap then
    some (⟨{ m.q with len := m.q.len + 1 }, m.heap.set t { c with endIdx := c.endIdx + 1 }⟩, t, c.endIdx)
  else none

/-- `queue_push_impl`: room made at the tail, by a new chunk, by shifting the tail chunk's items
to its front, or by linking a new chunk after it. `none` where an assertion fails or a freed
chunk is used. -/
def queuePushImpl (m : QueueMem α) : Option (QueueMem α × Nat × Nat) :=
  match m.q.tail with
  | none =>
    if m.q.head = none ∧ m.q.len = 0 then
      let (heap, t) := m.heap.alloc (queueChunkNew m.q)
      queuePushAt ⟨{ m.q with head := some t, tail := some t }, heap⟩ t
    else none
  | some t => do
    let c ← m.heap.cells t
    if c.endIdx = c.cap then
      if c.beginIdx * 2 ≥ c.cap then
        -- utilization is below 50%, so shift
        queuePushAt ⟨m.q, m.heap.set t c.shiftFront⟩ t
      else if c.next = none then
        let (heap, n) := m.heap.alloc (queueChunkNew m.q)
        queuePushAt ⟨{ m.q with tail := some n }, heap.set t { c with next := some n }⟩ n
      else none
    else queuePushAt m t

/-- The write of `x` into the slot `i` of the chunk `t`. -/
def queueStore (m : QueueMem α) (t i : Nat) (x : α) : Option (QueueMem α) := do
  let c ← m.heap.cells t
  some ⟨m.q, m.heap.set t { c with data := fun j => if j = i then some x else c.data j }⟩

/-- `queue_push`. -/
def queuePush (m : QueueMem α) (x : α) : Option (QueueMem α) :=
  (queuePushImpl m).bind fun r => queueStore r.1 r.2.1 r.2.2 x

/-- The end of `queue_push_head_impl`, on the chunk `h` with room: the slot `--h->begin`. -/
def queuePushHeadAt (m : QueueMem α) (h : Nat) : Option (QueueMem α × Nat × Nat) := do
  let c ← m.heap.cells h
  if 0 < c.beginIdx then
    some (⟨{ m.q with len := m.q.len + 1 }, m.heap.set h { c with beginIdx := c.beginIdx - 1 }⟩, h,
      c.beginIdx - 1)
  else none

/-- A chunk of `queue_push_head_impl`: new, linked to `next`, with `begin` and `end` at `cap`. -/
def queueChunkNewHead (q : Queue) (next : Option Nat) : QueueChunk α :=
  { queueChunkNew q with next := next, beginIdx := q.chunkCap, endIdx := q.chunkCap }

/-- `queue_push_head_impl`: room made at the head, new chunks filled from their end. -/
def queuePushHeadImpl (m : QueueMem α) : Option (QueueMem α × Nat × Nat) :=
  match m.q.head with
  | none =>
    if m.q.tail = none ∧ m.q.len = 0 then
      let (heap, h) := m.heap.alloc (queueChunkNewHead m.q none)
      queuePushHeadAt ⟨{ m.q with head := some h, tail := some h }, heap⟩ h
    else none
  | some h => do
    let c ← m.heap.cells h
    if c.beginIdx = 0 then
      if c.endIdx * 2 ≤ c.cap then
        queuePushHeadAt ⟨m.q, m.heap.set h c.shiftBack⟩ h
      else
        let (heap, n) := m.heap.alloc (queueChunkNewHead m.q m.q.head)
        queuePushHeadAt ⟨{ m.q with head := some n }, heap⟩ n
    else queuePushHeadAt m h

/-- `queue_push_head`. -/
def queuePushHead (m : QueueMem α) (x : α) : Option (QueueMem α) :=
  (queuePushHeadImpl m).bind fun r => queueStore r.1 r.2.1 r.2.2 x

/-- `queue_pop_impl`. -/
def queuePopImpl (m : QueueMem α) : Option (QueueMem α) := do
  let h ← m.q.head
  let c ← m.heap.cells h
  if c.beginIdx < c.endIdx then
    if c.endIdx - c.beginIdx = 1 then
      -- removing the last element in the chunk
      some ⟨{ m.q with head := c.next, len := m.q.len - 1 }, m.heap.free h⟩
    else some ⟨{ m.q with len := m.q.len - 1 }, m.heap.set h { c with beginIdx := c.beginIdx + 1 }⟩
  else none

/-- `queue_head`: the item `queue_head_impl` points to; `none` where that is NULL, freed or
never written. -/
def queueHead (m : QueueMem α) : Option α := do
  let h ← m.q.head
  let c ← m.heap.cells h
  if c.beginIdx < c.endIdx then c.data c.beginIdx else none

/-- `queue_tail`. -/
def queueTail (m : QueueMem α) : Option α := do
  let t ← m.q.tail
  let c ← m.heap.cells t
  if c.beginIdx < c.endIdx then c.data (c.endIdx - 1) else none

/-- `struct queue_it`. -/
structure QueueIt where
  chunk : Option Nat
  pos : Int

def queueItBeginImpl (m : QueueMem α) : Option QueueIt :=
  match m.q.head with
  | none => some ⟨none, -1⟩
  | some h => (m.heap.cells h).map fun c => ⟨some h, c.beginIdx⟩

def queueItFinishedImpl (m : QueueMem α) (it : QueueIt) : Option Bool :=
  match it.chunk with
  | none => some true
  | some p => (m.heap.cells p).map fun c => decide ((c.endIdx : Int) ≤ it.pos)

def queueItValImpl (m : QueueMem α) (it : QueueIt) : Option α := do
  let p ← it.chunk
  let c ← m.heap.cells p
  c.data it.pos.toNat

def queueItNextImpl (m : QueueMem α) (it : QueueIt) : Option QueueIt := do
  let p ← it.chunk
  let c ← m.heap.cells p
  if it.pos + 1 < c.endIdx then some ⟨some p, it.pos + 1⟩
  else
    match c.next with
    | none => some ⟨none, -1⟩
    | some n => (m.heap.cells n).map fun cn => ⟨some n, cn.beginIdx⟩

/-- The items the loop `for (it = queue_it_begin(q); !queue_it_finished(it); queue_it_next(it))`
reads with `queue_it_val`, in at most `fuel` rounds. -/
def queueItCollect (m : QueueMem α) : Nat → QueueIt → Option (List α)
  | 0, _ => none
  | fuel + 1, it => do
    if ← queueItFinishedImpl m it then some []
    else
      let v ← queueItValImpl m it
      let it' ← queueItNextImpl m it
      let vs ← queueItCollect m fuel it'
      some (v :: vs)

/-- The items an iteration from `queue_it_begin` visits. -/
def queueItems (m : QueueMem α) : Option (List α) := do
  let it ← queueItBeginImpl m
  queueItCollect m (m.q.len + 1) it

/-! ## Operations and the list they act on -/

/-- The operations that change a queue. -/
inductive QueueOp (α : Type) where
  | push (x : α)
  | pushHead (x : α)
  | pop

/-- What each operation does to the list of items. -/
def QueueOp.apply : QueueOp α → List α → List α
  | .push x, l => l ++ [x]
  | .pushHead x, l => x :: l
  | .pop, l => l.tail

def queueStep (m : QueueMem α) : QueueOp α → Option (QueueMem α)
  | .push x => queuePush m x
  | .pushHead x => queuePushHead m x
  | .pop => queuePopImpl m

def queueRun : QueueMem α → List (QueueOp α) → Option (QueueMem α)
  | m, [] => some m
  | m, op :: ops => (queueStep m op).bind fun m => queueRun m ops

/-! ## The list a queue holds -/

namespace QueueChunk

/-- The items, from `begin` to `end`. -/
def items (c : QueueChunk α) : List (Option α) := List.segment c.data c.beginIdx (c.endIdx - c.beginIdx)

/-- The chunk once `x` is stored at `end` and `end` moved past it. -/
def pushed (c : QueueChunk α) (x : α) : QueueChunk α :=
  { c with endIdx := c.endIdx + 1, data := fun j => if j = c.endIdx then some x else c.data j }

/-- The chunk once `begin` moved back and `x` stored there. -/
def pushedHead (c : QueueChunk α) (x : α) : QueueChunk α :=
  { c with beginIdx := c.beginIdx - 1, data := fun j => if j = c.beginIdx - 1 then some x else c.data j }

/-- A chunk in use: some items, within its capacity, which is the queue's `chunk_cap`. -/
structure InUse (cap : Nat) (c : QueueChunk α) : Prop where
  nonempty : c.beginIdx < c.endIdx
  le_cap : c.endIdx ≤ c.cap
  cap_eq : c.cap = cap

@[simp] theorem length_items (c : QueueChunk α) : c.items.length = c.endIdx - c.beginIdx :=
  List.length_segment _ _ _

theorem items_pushed {c : QueueChunk α} (h : c.beginIdx ≤ c.endIdx) (x : α) :
    (c.pushed x).items = c.items ++ [some x] := by
  have hlen : c.endIdx + 1 - c.beginIdx = (c.endIdx - c.beginIdx) + 1 := by omega
  unfold items pushed
  dsimp only
  rw [hlen, List.segment_succ, Nat.add_sub_cancel' h, if_pos rfl]
  congr 1
  exact List.segment_congr fun i hi => if_neg (by omega)

theorem items_pushedHead {c : QueueChunk α} (h : 0 < c.beginIdx) (hle : c.beginIdx ≤ c.endIdx)
    (x : α) : (c.pushedHead x).items = some x :: c.items := by
  have hlen : c.endIdx - (c.beginIdx - 1) = (c.endIdx - c.beginIdx) + 1 := by omega
  unfold items pushedHead
  dsimp only
  rw [hlen, List.segment_succ_left, if_pos rfl, Nat.sub_add_cancel h]
  congr 1
  exact List.segment_congr fun i hi => if_neg (by omega)

theorem items_pop {c : QueueChunk α} (h : c.beginIdx < c.endIdx) :
    ({ c with beginIdx := c.beginIdx + 1 } : QueueChunk α).items = c.items.tail := by
  have hlen : c.endIdx - c.beginIdx = (c.endIdx - (c.beginIdx + 1)) + 1 := by omega
  unfold items
  dsimp only
  rw [hlen, List.segment_succ_left, List.tail_cons]

theorem items_shiftFront (c : QueueChunk α) : c.shiftFront.items = c.items := by
  unfold items shiftFront
  dsimp only
  rw [Nat.sub_zero]
  exact List.segment_shift fun i hi => by rw [Nat.zero_add, if_pos hi]

theorem items_shiftBack {c : QueueChunk α} (hb : c.beginIdx = 0) (hle : c.endIdx ≤ c.cap) :
    c.shiftBack.items = c.items := by
  unfold items shiftBack
  dsimp only
  rw [hb, Nat.sub_zero, Nat.sub_sub_self hle]
  exact List.segment_shift fun i hi => by rw [if_pos (by omega), Nat.add_sub_cancel_left, Nat.zero_add]

end QueueChunk

/-- The items of the chunk at `p`. -/
def chunkItems (heap : Heap (QueueChunk α)) (p : Nat) : List (Option α) :=
  ((heap.cells p).map QueueChunk.items).getD []

/-- The queue holds `l` in the chunks `cs`, linked from `head` to `tail`. -/
structure QueueMem.Rep (m : QueueMem α) (cs : List Nat) (l : List α) : Prop where
  chain : Chain QueueChunk.next m.heap m.q.head cs
  nodup : cs.Nodup
  tail : m.q.tail = cs.getLast?
  inUse : ∀ p ∈ cs, ∀ c, m.heap.cells p = some c → c.InUse m.q.chunkCap
  items : cs.flatMap (chunkItems m.heap) = l.map some
  len : m.q.len = l.length
  capPos : 0 < m.q.chunkCap

section Rep

variable {m : QueueMem α} {cs : List Nat} {l : List α}

theorem chunkItems_of_cells {h : Heap (QueueChunk α)} {p : Nat} {c : QueueChunk α}
    (hc : h.cells p = some c) : chunkItems h p = c.items := by
  rw [chunkItems, hc]
  rfl

theorem flatMap_chunkItems_frame {h h' : Heap (QueueChunk α)} {ps : List Nat}
    (hsame : ∀ q ∈ ps, h'.cells q = h.cells q) : ps.flatMap (chunkItems h') = ps.flatMap (chunkItems h) :=
  List.flatMap_congr fun q hq => by rw [chunkItems, chunkItems, hsame q hq]

@[simp] theorem items_queueChunkNewHead (q : Queue) (n : Option Nat) :
    (queueChunkNewHead q n : QueueChunk α).items = [] := by
  simp only [QueueChunk.items, queueChunkNewHead, Nat.sub_self, List.segment_zero]

/-- A chunk's link is not one of its items. -/
@[simp] theorem items_setNext (c : QueueChunk α) (n : Option Nat) :
    ({ c with next := n } : QueueChunk α).items = c.items := rfl

/-- Replacing the last chunk. -/
theorem flatMap_chunkItems_set_last {h : Heap (QueueChunk α)} {init : List Nat} {t : Nat}
    {c c' : QueueChunk α} (hnd : (init ++ [t]).Nodup) (hc : h.cells t = some c) :
    (init ++ [t]).flatMap (chunkItems (h.set t c')) = init.flatMap (chunkItems h) ++ c'.items := by
  have hnot : t ∉ init := fun hmem =>
    (List.nodup_append.1 hnd).2.2 t hmem t (List.mem_singleton_self t) rfl
  have hframe : ∀ q ∈ init, (h.set t c').cells q = h.cells q := fun q hq =>
    cells_set_of_ne fun hqt => hnot (hqt ▸ hq)
  rw [List.flatMap_append, List.flatMap_singleton, chunkItems_of_cells (cells_set_self hc),
    flatMap_chunkItems_frame hframe]

/-- Replacing the first chunk. -/
theorem flatMap_chunkItems_set_head {h : Heap (QueueChunk α)} {p : Nat} {rest : List Nat}
    {c c' : QueueChunk α} (hnd : (p :: rest).Nodup) (hc : h.cells p = some c) :
    (p :: rest).flatMap (chunkItems (h.set p c')) = c'.items ++ rest.flatMap (chunkItems h) := by
  have hnot : p ∉ rest := (List.nodup_cons.1 hnd).1
  have hframe : ∀ q ∈ rest, (h.set p c').cells q = h.cells q := fun q hq =>
    cells_set_of_ne fun hqp => hnot (hqp ▸ hq)
  rw [List.flatMap_cons, chunkItems_of_cells (cells_set_self hc), flatMap_chunkItems_frame hframe]

/-- A chunk of the queue replaced in place by one with the same link, still in use. -/
theorem QueueMem.Rep.set (hr : m.Rep cs l) {p : Nat} {c : QueueChunk α} (c' : QueueChunk α) (q' : Queue)
    (hp : p ∈ cs) (hc : m.heap.cells p = some c) (hnext : c'.next = c.next) (huse : c'.InUse m.q.chunkCap)
    (hhead : q'.head = m.q.head) (htail : q'.tail = m.q.tail)
    (hcap : q'.chunkCap = m.q.chunkCap) {l' : List α} (hlen : q'.len = l'.length)
    (hitems : cs.flatMap (chunkItems (m.heap.set p c')) = l'.map some) :
    QueueMem.Rep ⟨q', m.heap.set p c'⟩ cs l' := by
  refine ⟨?_, hr.nodup, htail.trans hr.tail, ?_, hitems, hlen, hcap ▸ hr.capPos⟩
  · rw [hhead]
    refine hr.chain.frame fun q _ b hb => ?_
    by_cases hq : q = p
    · subst hq
      rw [hc] at hb
      cases hb
      exact ⟨c', cells_set_self hc, hnext⟩
    · exact ⟨b, (cells_set_of_ne hq).trans hb, rfl⟩
  · intro q hq c'' hc''
    rw [hcap]
    by_cases hqp : q = p
    · subst hqp
      rw [cells_set_self hc] at hc''
      cases hc''
      exact huse
    · rw [cells_set_of_ne hqp] at hc''
      exact hr.inUse q hq c'' hc''

theorem queuePushAt_store {t : Nat} {c : QueueChunk α} (hc : m.heap.cells t = some c)
    (hroom : c.endIdx < c.cap) (x : α) :
    (queuePushAt m t).bind (fun r => queueStore r.1 r.2.1 r.2.2 x) =
      some ⟨{ m.q with len := m.q.len + 1 }, m.heap.set t (c.pushed x)⟩ := by
  simp only [queuePushAt, hc, Option.bind_eq_bind, Option.bind_some, if_pos hroom, queueStore,
    cells_set_self hc, set_set]
  rfl

theorem queuePushHeadAt_store {h : Nat} {c : QueueChunk α} (hc : m.heap.cells h = some c)
    (hroom : 0 < c.beginIdx) (x : α) :
    (queuePushHeadAt m h).bind (fun r => queueStore r.1 r.2.1 r.2.2 x) =
      some ⟨{ m.q with len := m.q.len + 1 }, m.heap.set h (c.pushedHead x)⟩ := by
  simp only [queuePushHeadAt, hc, Option.bind_eq_bind, Option.bind_some, if_pos hroom, queueStore,
    cells_set_self hc, set_set]
  rfl

theorem QueueMem.Rep.last (hr : m.Rep cs l) {t : Nat} (ht : m.q.tail = some t) :
    ∃ init, cs = init ++ [t] := List.getLast?_eq_some_iff.1 (hr.tail.symm.trans ht)

theorem QueueMem.Rep.first (hr : m.Rep cs l) {h : Nat} (hh : m.q.head = some h) :
    ∃ rest, cs = h :: rest := by
  have hc := hr.chain
  rw [hh] at hc
  cases hc with
  | cons _ _ => exact ⟨_, rfl⟩

/-- `x` stored at the end of the tail chunk, which has room. -/
theorem QueueMem.Rep.pushed (hr : m.Rep cs l) {t : Nat} {c : QueueChunk α} (ht : m.q.tail = some t)
    (hc : m.heap.cells t = some c) (hroom : c.endIdx < c.cap) (x : α) :
    QueueMem.Rep ⟨{ m.q with len := m.q.len + 1 }, m.heap.set t (c.pushed x)⟩ cs (l ++ [x]) := by
  obtain ⟨init, rfl⟩ := hr.last ht
  have huse := hr.inUse t (by simp) c hc
  have huse' : (c.pushed x).InUse m.q.chunkCap :=
    ⟨Nat.lt_succ_of_lt huse.nonempty, hroom, huse.cap_eq⟩
  have hitems := hr.items
  rw [List.flatMap_append, List.flatMap_singleton, chunkItems_of_cells hc] at hitems
  have hitems' : (init ++ [t]).flatMap (chunkItems (m.heap.set t (c.pushed x))) = (l ++ [x]).map some := by
    rw [flatMap_chunkItems_set_last hr.nodup hc, QueueChunk.items_pushed (Nat.le_of_lt huse.nonempty) x,
      ← List.append_assoc, hitems, List.map_append]
    rfl
  have hlen : m.q.len + 1 = (l ++ [x]).length := by simp [hr.len]
  exact hr.set (c.pushed x) { m.q with len := m.q.len + 1 } (by simp) hc rfl huse' rfl rfl rfl hlen hitems'

/-- `x` stored before the items of the head chunk, which has room. -/
theorem QueueMem.Rep.pushedHead (hr : m.Rep cs l) {h : Nat} {c : QueueChunk α} (hh : m.q.head = some h)
    (hc : m.heap.cells h = some c) (hroom : 0 < c.beginIdx) (x : α) :
    QueueMem.Rep ⟨{ m.q with len := m.q.len + 1 }, m.heap.set h (c.pushedHead x)⟩ cs (x :: l) := by
  obtain ⟨rest, rfl⟩ := hr.first hh
  have huse := hr.inUse h (by simp) c hc
  have huse' : (c.pushedHead x).InUse m.q.chunkCap :=
    ⟨Nat.lt_of_le_of_lt (Nat.sub_le _ _) huse.nonempty, huse.le_cap, huse.cap_eq⟩
  have hitems := hr.items
  rw [List.flatMap_cons, chunkItems_of_cells hc] at hitems
  have hitems' : (h :: rest).flatMap (chunkItems (m.heap.set h (c.pushedHead x))) = (x :: l).map some := by
    rw [flatMap_chunkItems_set_head hr.nodup hc, QueueChunk.items_pushedHead hroom (Nat.le_of_lt huse.nonempty) x,
      List.cons_append, hitems, List.map_cons]
  have hlen : m.q.len + 1 = (x :: l).length := by simp [hr.len]
  exact hr.set (c.pushedHead x) { m.q with len := m.q.len + 1 } (by simp) hc rfl huse' rfl rfl rfl hlen
    hitems'

/-- The shift of `queue_push` keeps the items. -/
theorem QueueMem.Rep.shiftFront (hr : m.Rep cs l) {t : Nat} {c : QueueChunk α} (ht : m.q.tail = some t)
    (hc : m.heap.cells t = some c) : QueueMem.Rep ⟨m.q, m.heap.set t c.shiftFront⟩ cs l := by
  obtain ⟨init, rfl⟩ := hr.last ht
  have huse := hr.inUse t (by simp) c hc
  have huse' : c.shiftFront.InUse m.q.chunkCap := by
    have := huse.nonempty
    have := huse.le_cap
    exact ⟨by dsimp only [QueueChunk.shiftFront]; omega, by dsimp only [QueueChunk.shiftFront]; omega,
      huse.cap_eq⟩
  have hitems := hr.items
  rw [List.flatMap_append, List.flatMap_singleton, chunkItems_of_cells hc] at hitems
  have hitems' : (init ++ [t]).flatMap (chunkItems (m.heap.set t c.shiftFront)) = l.map some := by
    rw [flatMap_chunkItems_set_last hr.nodup hc, QueueChunk.items_shiftFront, hitems]
  exact hr.set c.shiftFront m.q (by simp) hc rfl huse' rfl rfl rfl hr.len hitems'

/-- The shift of `queue_push_head` keeps the items. -/
theorem QueueMem.Rep.shiftBack (hr : m.Rep cs l) {h : Nat} {c : QueueChunk α} (hh : m.q.head = some h)
    (hc : m.heap.cells h = some c) (hb : c.beginIdx = 0) :
    QueueMem.Rep ⟨m.q, m.heap.set h c.shiftBack⟩ cs l := by
  obtain ⟨rest, rfl⟩ := hr.first hh
  have huse := hr.inUse h (by simp) c hc
  have huse' : c.shiftBack.InUse m.q.chunkCap := by
    have := huse.nonempty
    have := huse.le_cap
    exact ⟨by dsimp only [QueueChunk.shiftBack]; omega, by dsimp only [QueueChunk.shiftBack]; omega,
      huse.cap_eq⟩
  have hitems := hr.items
  rw [List.flatMap_cons, chunkItems_of_cells hc] at hitems
  have hitems' : (h :: rest).flatMap (chunkItems (m.heap.set h c.shiftBack)) = l.map some := by
    rw [flatMap_chunkItems_set_head hr.nodup hc, QueueChunk.items_shiftBack hb huse.le_cap, hitems]
  exact hr.set c.shiftBack m.q (by simp) hc rfl huse' rfl rfl rfl hr.len hitems'

/-- A new chunk linked after the full tail chunk, and `x` stored in it. -/
theorem QueueMem.Rep.pushGrow (hr : m.Rep cs l) {t : Nat} {c : QueueChunk α} (ht : m.q.tail = some t)
    (hc : m.heap.cells t = some c) (x : α) :
    QueueMem.Rep ⟨{ m.q with tail := some m.heap.fresh, len := m.q.len + 1 },
      (((m.heap.alloc (queueChunkNew m.q)).1.set t { c with next := some m.heap.fresh }).set m.heap.fresh
        ((queueChunkNew m.q).pushed x))⟩ (cs ++ [m.heap.fresh]) (l ++ [x]) := by
  obtain ⟨init, rfl⟩ := hr.last ht
  have hfresh : m.heap.fresh ∉ init ++ [t] := hr.chain.fresh_not_mem
  have htn : t ≠ m.heap.fresh := fun h => hfresh (h ▸ by simp)
  have hnext : c.next = none := by
    obtain ⟨b, hb, hn⟩ := hr.chain.next_last
    rw [hc] at hb
    cases hb
    exact hn
  -- the cells of the new heap
  have hcn : (((m.heap.alloc (queueChunkNew m.q)).1.set t { c with next := some m.heap.fresh }).set
      m.heap.fresh ((queueChunkNew m.q).pushed x)).cells m.heap.fresh = some ((queueChunkNew m.q).pushed x) :=
    cells_set_self ((cells_set_of_ne htn.symm).trans (cells_alloc_self _ _))
  have hct : (((m.heap.alloc (queueChunkNew m.q)).1.set t { c with next := some m.heap.fresh }).set
      m.heap.fresh ((queueChunkNew m.q).pushed x)).cells t = some { c with next := some m.heap.fresh } :=
    (cells_set_of_ne htn).trans (cells_set_self ((cells_alloc_of_ne htn).trans hc))
  have hother : ∀ q ∈ init, (((m.heap.alloc (queueChunkNew m.q)).1.set t { c with next := some m.heap.fresh }).set
      m.heap.fresh ((queueChunkNew m.q).pushed x)).cells q = m.heap.cells q := by
    intro q hq
    have hqn : q ≠ m.heap.fresh := fun h => hfresh (h ▸ List.mem_append_left _ hq)
    have hqt : q ≠ t := fun h => (List.nodup_append.1 hr.nodup).2.2 q hq t (by simp) h
    rw [cells_set_of_ne hqn, cells_set_of_ne hqt, cells_alloc_of_ne hqn]
  have huse := hr.inUse t (by simp) c hc
  refine ⟨?_, ?_, by simp, ?_, ?_, by simp [hr.len], hr.capPos⟩
  · rw [List.append_assoc, List.singleton_append]
    exact hr.chain.snoc hct rfl hcn rfl fun q hq b hb => ⟨b, (hother q hq).trans hb, rfl⟩
  · exact List.nodup_append.2 ⟨hr.nodup, by simp,
      fun a ha b hb => by rw [List.mem_singleton.1 hb]; exact fun h => hfresh (h ▸ ha)⟩
  · intro q hq c' hc'
    rcases List.mem_append.1 hq with hq | hq
    · rcases List.mem_append.1 hq with hq | hq
      · rw [hother q hq] at hc'
        exact hr.inUse q (List.mem_append_left _ hq) c' hc'
      · rw [List.mem_singleton.1 hq, hct] at hc'
        cases hc'
        exact ⟨huse.nonempty, huse.le_cap, huse.cap_eq⟩
    · rw [List.mem_singleton.1 hq, hcn] at hc'
      cases hc'
      exact ⟨Nat.zero_lt_one, hr.capPos, rfl⟩
  · have hitems := hr.items
    rw [List.flatMap_append, List.flatMap_singleton, chunkItems_of_cells hc] at hitems
    rw [List.flatMap_append, List.flatMap_append, List.flatMap_singleton, List.flatMap_singleton,
      chunkItems_of_cells hct, chunkItems_of_cells hcn, items_setNext, flatMap_chunkItems_frame hother,
      QueueChunk.items_pushed (Nat.le_refl 0) x, hitems, List.map_append]
    rfl

/-- A new chunk linked before the full head chunk, filled from its end, and `x` stored in it. -/
theorem QueueMem.Rep.pushHeadGrow (hr : m.Rep cs l) {h : Nat} (hh : m.q.head = some h) (x : α) :
    QueueMem.Rep ⟨{ m.q with head := some m.heap.fresh, len := m.q.len + 1 },
      (m.heap.alloc (queueChunkNewHead m.q m.q.head)).1.set m.heap.fresh
        ((queueChunkNewHead m.q m.q.head).pushedHead x)⟩ (m.heap.fresh :: cs) (x :: l) := by
  obtain ⟨rest, rfl⟩ := hr.first hh
  have hfresh : m.heap.fresh ∉ h :: rest := hr.chain.fresh_not_mem
  have hcn : ((m.heap.alloc (queueChunkNewHead m.q m.q.head)).1.set m.heap.fresh
      ((queueChunkNewHead m.q m.q.head).pushedHead x)).cells m.heap.fresh =
      some ((queueChunkNewHead m.q m.q.head).pushedHead x) :=
    cells_set_self (cells_alloc_self _ _)
  have hother : ∀ q ∈ h :: rest, ((m.heap.alloc (queueChunkNewHead m.q m.q.head)).1.set m.heap.fresh
      ((queueChunkNewHead m.q m.q.head).pushedHead x)).cells q = m.heap.cells q := by
    intro q hq
    have hqn : q ≠ m.heap.fresh := fun hq' => hfresh (hq' ▸ hq)
    rw [cells_set_of_ne hqn, cells_alloc_of_ne hqn]
  have hcap := hr.capPos
  refine ⟨?_, List.nodup_cons.2 ⟨hfresh, hr.nodup⟩, ?_, ?_, ?_, by simp [hr.len], hr.capPos⟩
  · exact .cons hcn (hr.chain.frame fun q hq b hb => ⟨b, (hother q hq).trans hb, rfl⟩)
  · show m.q.tail = _
    rw [hr.tail, List.getLast?_cons_cons]
  · intro q hq c' hc'
    rcases List.mem_cons.1 hq with rfl | hq
    · rw [hcn] at hc'
      cases hc'
      exact ⟨by dsimp only [QueueChunk.pushedHead, queueChunkNewHead]; omega, Nat.le_refl _, rfl⟩
    · rw [hother q hq] at hc'
      exact hr.inUse q hq c' hc'
  · rw [List.flatMap_cons, chunkItems_of_cells hcn, flatMap_chunkItems_frame hother, hr.items,
      QueueChunk.items_pushedHead hcap (Nat.le_refl _) x, items_queueChunkNewHead]
    rfl

/-- The first item dropped from a head chunk that holds more. -/
theorem QueueMem.Rep.popKeep (hr : m.Rep cs l) {h : Nat} {c : QueueChunk α} (hh : m.q.head = some h)
    (hc : m.heap.cells h = some c) (hmore : c.endIdx - c.beginIdx ≠ 1) :
    QueueMem.Rep ⟨{ m.q with len := m.q.len - 1 }, m.heap.set h { c with beginIdx := c.beginIdx + 1 }⟩ cs
      l.tail := by
  obtain ⟨rest, rfl⟩ := hr.first hh
  have huse := hr.inUse h (by simp) c hc
  have huse' : ({ c with beginIdx := c.beginIdx + 1 } : QueueChunk α).InUse m.q.chunkCap := by
    have := huse.nonempty
    exact ⟨by dsimp only; omega, huse.le_cap, huse.cap_eq⟩
  have hitems := hr.items
  rw [List.flatMap_cons, chunkItems_of_cells hc] at hitems
  have hitems' : (h :: rest).flatMap (chunkItems (m.heap.set h { c with beginIdx := c.beginIdx + 1 })) =
      l.tail.map some := by
    rw [flatMap_chunkItems_set_head hr.nodup hc, QueueChunk.items_pop huse.nonempty, List.map_tail,
      ← hitems]
    obtain ⟨y, ys, hys⟩ := List.exists_cons_of_length_pos
      (by rw [QueueChunk.length_items]; exact Nat.sub_pos_of_lt huse.nonempty : 0 < c.items.length)
    rw [hys]
    rfl
  have hlen : m.q.len - 1 = l.tail.length := by rw [hr.len, List.length_tail]
  exact hr.set { c with beginIdx := c.beginIdx + 1 } { m.q with len := m.q.len - 1 } (by simp) hc rfl huse'
    rfl rfl rfl hlen hitems'

/-- The head chunk freed with its only item, other chunks following it. -/
theorem QueueMem.Rep.popFree (hr : m.Rep (h :: rest) l) {c : QueueChunk α} (hh : m.q.head = some h)
    (hc : m.heap.cells h = some c) (hone : c.endIdx - c.beginIdx = 1) (hrest : rest ≠ []) :
    QueueMem.Rep ⟨{ m.q with head := c.next, len := m.q.len - 1 }, m.heap.free h⟩ rest l.tail := by
  have hnot : h ∉ rest := (List.nodup_cons.1 hr.nodup).1
  have hother : ∀ q ∈ rest, (m.heap.free h).cells q = m.heap.cells q := fun q hq =>
    cells_free_of_ne fun hq' => hnot (hq' ▸ hq)
  have hchain : Chain QueueChunk.next m.heap c.next rest := by
    have hc' := hr.chain
    rw [hh] at hc'
    cases hc' with
    | cons hb hn =>
      rw [hc] at hb
      cases hb
      exact hn
  have hitems := hr.items
  rw [List.flatMap_cons, chunkItems_of_cells hc] at hitems
  obtain ⟨y, hy⟩ := List.length_eq_one_iff.1 (by rw [QueueChunk.length_items, hone] : c.items.length = 1)
  refine ⟨hchain.frame fun q hq b hb => ⟨b, (hother q hq).trans hb, rfl⟩, (List.nodup_cons.1 hr.nodup).2,
    ?_, fun q hq c' hc' => hr.inUse q (List.mem_cons_of_mem h hq) c' ((hother q hq).symm.trans hc'), ?_,
    by simp [hr.len], hr.capPos⟩
  · show m.q.tail = _
    rw [hr.tail, List.getLast?_cons, List.getLast?_eq_some_getLast hrest]
    rfl
  · rw [flatMap_chunkItems_frame hother, List.map_tail, ← hitems, hy]
    rfl

/-- A queue of one chunk holding one item. -/
theorem QueueMem.Rep.single {m : QueueMem α} {n : Nat} {c : QueueChunk α} {x : α}
    (hh : m.q.head = some n) (ht : m.q.tail = some n) (hc : m.heap.cells n = some c) (hnext : c.next = none)
    (huse : c.InUse m.q.chunkCap) (hitems : c.items = [some x]) (hlen : m.q.len = 1) (hcap : 0 < m.q.chunkCap) :
    m.Rep [n] [x] := by
  refine ⟨?_, by simp, ht, fun q hq c' hc' => ?_, ?_, hlen, hcap⟩
  · rw [hh]
    exact .cons hc (hnext ▸ .nil)
  · rw [List.mem_singleton.1 hq, hc] at hc'
    cases hc'
    exact huse
  · rw [List.flatMap_singleton, chunkItems_of_cells hc, hitems]
    rfl

theorem QueueMem.Rep.nil_iff (hr : m.Rep cs l) : m.q.tail = none ↔ cs = [] := by
  rw [hr.tail, List.getLast?_eq_none_iff]

theorem QueueMem.Rep.empty (hr : m.Rep [] l) : m.q.head = none ∧ m.q.len = 0 ∧ l = [] := by
  have hl : l = [] := List.map_eq_nil_iff.1 hr.items.symm
  exact ⟨hr.chain.eq_nil_iff.2 rfl, by rw [hr.len, hl]; rfl, hl⟩

end Rep

/-! ## Each path of the operations -/

section Paths

variable {m : QueueMem α}

theorem queuePush_empty (ht : m.q.tail = none) (hh : m.q.head = none) (hl : m.q.len = 0)
    (hcap : 0 < m.q.chunkCap) (x : α) :
    queuePush m x = some ⟨{ m.q with head := some m.heap.fresh, tail := some m.heap.fresh, len := m.q.len + 1 },
      (m.heap.alloc (queueChunkNew m.q)).1.set m.heap.fresh ((queueChunkNew m.q).pushed x)⟩ := by
  unfold queuePush queuePushImpl
  rw [ht]
  dsimp only
  rw [if_pos ⟨hh, hl⟩]
  exact queuePushAt_store (cells_alloc_self _ _) hcap x

theorem queuePush_room {t : Nat} {c : QueueChunk α} (ht : m.q.tail = some t) (hc : m.heap.cells t = some c)
    (hroom : c.endIdx < c.cap) (x : α) :
    queuePush m x = some ⟨{ m.q with len := m.q.len + 1 }, m.heap.set t (c.pushed x)⟩ := by
  unfold queuePush queuePushImpl
  rw [ht]
  simp only [hc, Option.bind_eq_bind, Option.bind_some, if_neg (Nat.ne_of_lt hroom)]
  exact queuePushAt_store hc hroom x

theorem queuePush_shift {t : Nat} {c : QueueChunk α} (ht : m.q.tail = some t) (hc : m.heap.cells t = some c)
    (hfull : c.endIdx = c.cap) (hhalf : c.beginIdx * 2 ≥ c.cap) (hroom : c.shiftFront.endIdx < c.shiftFront.cap)
    (x : α) :
    queuePush m x = some ⟨{ m.q with len := m.q.len + 1 },
      (m.heap.set t c.shiftFront).set t (c.shiftFront.pushed x)⟩ := by
  unfold queuePush queuePushImpl
  rw [ht]
  simp only [hc, Option.bind_eq_bind, Option.bind_some, if_pos hfull, if_pos hhalf]
  exact queuePushAt_store (cells_set_self hc) hroom x

theorem queuePush_grow {t : Nat} {c : QueueChunk α} (ht : m.q.tail = some t) (hc : m.heap.cells t = some c)
    (hfull : c.endIdx = c.cap) (hhalf : ¬ c.beginIdx * 2 ≥ c.cap) (hnext : c.next = none)
    (hcap : 0 < m.q.chunkCap) (x : α) :
    queuePush m x = some ⟨{ m.q with tail := some m.heap.fresh, len := m.q.len + 1 },
      (((m.heap.alloc (queueChunkNew m.q)).1.set t { c with next := some m.heap.fresh }).set m.heap.fresh
        ((queueChunkNew m.q).pushed x))⟩ := by
  have htn : t ≠ m.heap.fresh := fun h => by
    have := lt_fresh hc
    omega
  unfold queuePush queuePushImpl
  rw [ht]
  simp only [hc, Option.bind_eq_bind, Option.bind_some, if_pos hfull, if_neg hhalf, if_pos hnext]
  exact queuePushAt_store ((cells_set_of_ne htn.symm).trans (cells_alloc_self _ _)) hcap x

theorem queuePushHead_empty (hh : m.q.head = none) (ht : m.q.tail = none) (hl : m.q.len = 0)
    (hcap : 0 < m.q.chunkCap) (x : α) :
    queuePushHead m x =
      some ⟨{ m.q with head := some m.heap.fresh, tail := some m.heap.fresh, len := m.q.len + 1 },
        (m.heap.alloc (queueChunkNewHead m.q none)).1.set m.heap.fresh
          ((queueChunkNewHead m.q none).pushedHead x)⟩ := by
  unfold queuePushHead queuePushHeadImpl
  rw [hh]
  dsimp only
  rw [if_pos ⟨ht, hl⟩]
  exact queuePushHeadAt_store (cells_alloc_self _ _) hcap x

theorem queuePushHead_room {h : Nat} {c : QueueChunk α} (hh : m.q.head = some h)
    (hc : m.heap.cells h = some c) (hroom : 0 < c.beginIdx) (x : α) :
    queuePushHead m x = some ⟨{ m.q with len := m.q.len + 1 }, m.heap.set h (c.pushedHead x)⟩ := by
  unfold queuePushHead queuePushHeadImpl
  rw [hh]
  simp only [hc, Option.bind_eq_bind, Option.bind_some, if_neg (Nat.ne_of_gt hroom)]
  exact queuePushHeadAt_store hc hroom x

theorem queuePushHead_shift {h : Nat} {c : QueueChunk α} (hh : m.q.head = some h)
    (hc : m.heap.cells h = some c) (hb : c.beginIdx = 0) (hhalf : c.endIdx * 2 ≤ c.cap)
    (hroom : 0 < c.shiftBack.beginIdx) (x : α) :
    queuePushHead m x = some ⟨{ m.q with len := m.q.len + 1 },
      (m.heap.set h c.shiftBack).set h (c.shiftBack.pushedHead x)⟩ := by
  unfold queuePushHead queuePushHeadImpl
  rw [hh]
  simp only [hc, Option.bind_eq_bind, Option.bind_some, if_pos hb, if_pos hhalf]
  exact queuePushHeadAt_store (cells_set_self hc) hroom x

theorem queuePushHead_grow {h : Nat} {c : QueueChunk α} (hh : m.q.head = some h)
    (hc : m.heap.cells h = some c) (hb : c.beginIdx = 0) (hhalf : ¬ c.endIdx * 2 ≤ c.cap)
    (hcap : 0 < m.q.chunkCap) (x : α) :
    queuePushHead m x = some ⟨{ m.q with head := some m.heap.fresh, len := m.q.len + 1 },
      (m.heap.alloc (queueChunkNewHead m.q m.q.head)).1.set m.heap.fresh
        ((queueChunkNewHead m.q m.q.head).pushedHead x)⟩ := by
  unfold queuePushHead queuePushHeadImpl
  rw [hh]
  simp only [hc, Option.bind_eq_bind, Option.bind_some, if_pos hb, if_neg hhalf]
  rw [← hh]
  exact queuePushHeadAt_store (cells_alloc_self _ _) hcap x

theorem queuePopImpl_keep {h : Nat} {c : QueueChunk α} (hh : m.q.head = some h)
    (hc : m.heap.cells h = some c) (hne : c.beginIdx < c.endIdx) (hmore : c.endIdx - c.beginIdx ≠ 1) :
    queuePopImpl m = some ⟨{ m.q with len := m.q.len - 1 }, m.heap.set h { c with beginIdx := c.beginIdx + 1 }⟩ := by
  simp only [queuePopImpl, hh, hc, Option.bind_eq_bind, Option.bind_some, if_pos hne, if_neg hmore]

theorem queuePopImpl_free {h : Nat} {c : QueueChunk α} (hh : m.q.head = some h)
    (hc : m.heap.cells h = some c) (hne : c.beginIdx < c.endIdx) (hone : c.endIdx - c.beginIdx = 1) :
    queuePopImpl m = some ⟨{ m.q with head := c.next, len := m.q.len - 1 }, m.heap.free h⟩ := by
  simp only [queuePopImpl, hh, hc, Option.bind_eq_bind, Option.bind_some, if_pos hne, if_pos hone]

end Paths

/-! ## Every operation keeps the list -/

section Steps

variable {m : QueueMem α} {cs : List Nat} {l : List α}

theorem queuePush_rep (hr : m.Rep cs l) (x : α) :
    ∃ m' cs', queuePush m x = some m' ∧ m'.Rep cs' (l ++ [x]) := by
  cases ht : m.q.tail with
  | none =>
    obtain rfl : cs = [] := hr.nil_iff.1 ht
    obtain ⟨hh, hl, rfl⟩ := hr.empty
    refine ⟨_, [m.heap.fresh], queuePush_empty ht hh hl hr.capPos x, .single rfl rfl
      (cells_set_self (cells_alloc_self _ _)) rfl ⟨Nat.zero_lt_one, hr.capPos, rfl⟩ ?_ (by simp [hl])
      hr.capPos⟩
    rw [QueueChunk.items_pushed (Nat.le_refl 0)]
    rfl
  | some t =>
    obtain ⟨init, hcs⟩ := hr.last ht
    have ht' : t ∈ cs := by rw [hcs]; simp
    obtain ⟨c, hc⟩ := hr.chain.allocated t ht'
    have huse := hr.inUse t ht' c hc
    by_cases hfull : c.endIdx = c.cap
    · by_cases hhalf : c.beginIdx * 2 ≥ c.cap
      · -- utilization below 50%: the items move to the front
        have hroom : c.shiftFront.endIdx < c.shiftFront.cap := by
          have := huse.nonempty
          have := huse.cap_eq
          have := hr.capPos
          dsimp only [QueueChunk.shiftFront]
          omega
        exact ⟨_, cs, queuePush_shift ht hc hfull hhalf hroom x,
          (hr.shiftFront ht hc).pushed ht (cells_set_self hc) hroom x⟩
      · -- a new chunk after the tail
        have hnext : c.next = none := by
          rw [hcs] at hr
          obtain ⟨b, hb, hn⟩ := hr.chain.next_last
          rw [hc] at hb
          cases hb
          exact hn
        exact ⟨_, _, queuePush_grow ht hc hfull hhalf hnext hr.capPos x, hr.pushGrow ht hc x⟩
    · have hroom : c.endIdx < c.cap := Nat.lt_of_le_of_ne huse.le_cap hfull
      exact ⟨_, cs, queuePush_room ht hc hroom x, hr.pushed ht hc hroom x⟩

theorem queuePushHead_rep (hr : m.Rep cs l) (x : α) :
    ∃ m' cs', queuePushHead m x = some m' ∧ m'.Rep cs' (x :: l) := by
  cases hh : m.q.head with
  | none =>
    obtain rfl : cs = [] := hr.chain.eq_nil_iff.1 hh
    obtain ⟨-, hl, rfl⟩ := hr.empty
    have ht : m.q.tail = none := hr.nil_iff.2 rfl
    have hcap := hr.capPos
    refine ⟨_, [m.heap.fresh], queuePushHead_empty hh ht hl hr.capPos x, .single rfl rfl
      (cells_set_self (cells_alloc_self _ _)) rfl
      ⟨by dsimp only [QueueChunk.pushedHead, queueChunkNewHead]; omega, Nat.le_refl _, rfl⟩ ?_
      (by simp [hl]) hr.capPos⟩
    rw [QueueChunk.items_pushedHead hcap (Nat.le_refl _), items_queueChunkNewHead]
  | some h =>
    obtain ⟨rest, hcs⟩ := hr.first hh
    have hh' : h ∈ cs := by rw [hcs]; simp
    obtain ⟨c, hc⟩ := hr.chain.allocated h hh'
    have huse := hr.inUse h hh' c hc
    by_cases hb : c.beginIdx = 0
    · by_cases hhalf : c.endIdx * 2 ≤ c.cap
      · -- utilization below 50%: the items move to the back
        have hroom : 0 < c.shiftBack.beginIdx := by
          have := huse.nonempty
          dsimp only [QueueChunk.shiftBack]
          omega
        exact ⟨_, cs, queuePushHead_shift hh hc hb hhalf hroom x,
          (hr.shiftBack hh hc hb).pushedHead hh (cells_set_self hc) hroom x⟩
      · -- a new chunk before the head
        exact ⟨_, _, queuePushHead_grow hh hc hb hhalf hr.capPos x, hr.pushHeadGrow hh x⟩
    · exact ⟨_, cs, queuePushHead_room hh hc (Nat.pos_of_ne_zero hb) x,
        hr.pushedHead hh hc (Nat.pos_of_ne_zero hb) x⟩

theorem queuePopImpl_rep (hr : m.Rep cs l) (hl : 2 ≤ l.length) :
    ∃ m' cs', queuePopImpl m = some m' ∧ m'.Rep cs' l.tail := by
  cases hh : m.q.head with
  | none =>
    obtain rfl : cs = [] := hr.chain.eq_nil_iff.1 hh
    obtain ⟨-, -, rfl⟩ := hr.empty
    cases hl
  | some h =>
    obtain ⟨rest, rfl⟩ := hr.first hh
    obtain ⟨c, hc⟩ := hr.chain.allocated h (by simp)
    have huse := hr.inUse h (by simp) c hc
    by_cases hone : c.endIdx - c.beginIdx = 1
    · -- the head chunk is freed; another one follows, as an item is left
      have hrest : rest ≠ [] := by
        rintro rfl
        have hitems := hr.items
        rw [List.flatMap_singleton, chunkItems_of_cells hc] at hitems
        have := congrArg List.length hitems
        rw [QueueChunk.length_items, hone, List.length_map] at this
        omega
      exact ⟨_, rest, queuePopImpl_free hh hc huse.nonempty hone, hr.popFree hh hc hone hrest⟩
    · exact ⟨_, _, queuePopImpl_keep hh hc huse.nonempty hone, hr.popKeep hh hc hone⟩

/-- The operations a run may apply to the list `l`: `queue_pop` only where an item is left. -/
def QueueOp.Keeps : QueueOp α → List α → Prop
  | .pop, l => 2 ≤ l.length
  | _, _ => True

/-- Every operation that `Keeps` the queue keeps the list it holds. -/
theorem queueStep_rep (hr : m.Rep cs l) (op : QueueOp α) (hop : op.Keeps l) :
    ∃ m' cs', queueStep m op = some m' ∧ m'.Rep cs' (op.apply l) := by
  cases op with
  | push x => exact queuePush_rep hr x
  | pushHead x => exact queuePushHead_rep hr x
  | pop => exact queuePopImpl_rep hr hop

/-- Each operation `Keeps` the list it is applied to. -/
def QueueOp.KeepsAll : List α → List (QueueOp α) → Prop
  | _, [] => True
  | l, op :: ops => op.Keeps l ∧ KeepsAll (op.apply l) ops

theorem queueRun_rep :
    ∀ (ops : List (QueueOp α)) {m : QueueMem α} {cs : List Nat} {l : List α}, m.Rep cs l →
      QueueOp.KeepsAll l ops →
      ∃ m' cs', queueRun m ops = some m' ∧ m'.Rep cs' (ops.foldl (fun l op => op.apply l) l)
  | [], m, cs, _, hr, _ => ⟨m, cs, rfl, hr⟩
  | op :: ops, _, _, _, hr, ⟨hop, hops⟩ => by
    obtain ⟨m₁, cs₁, hstep, hr₁⟩ := queueStep_rep hr op hop
    obtain ⟨m', cs', hrun, hr'⟩ := queueRun_rep ops hr₁ hops
    refine ⟨m', cs', ?_, hr'⟩
    rw [queueRun, hstep]
    exact hrun

theorem queueInitImpl_rep (itemSize : Nat) : (queueInitImpl itemSize : QueueMem α).Rep [] [] := by
  refine ⟨.nil, List.nodup_nil, rfl, (fun _ h => nomatch h), rfl, rfl, ?_⟩
  dsimp only [queueInitImpl]
  split
  · exact Nat.one_pos
  · next h => exact Nat.pos_of_ne_zero h

end Steps

/-! ## What the queue shows -/

section Observe

variable {m : QueueMem α} {cs : List Nat} {l : List α}

theorem QueueChunk.items_eq_cons {c : QueueChunk α} (h : c.beginIdx < c.endIdx) :
    c.items = c.data c.beginIdx :: List.segment c.data (c.beginIdx + 1) (c.endIdx - c.beginIdx - 1) := by
  rw [QueueChunk.items, show c.endIdx - c.beginIdx = (c.endIdx - c.beginIdx - 1) + 1 by omega,
    List.segment_succ_left, Nat.add_sub_cancel]

theorem QueueChunk.items_eq_concat {c : QueueChunk α} (h : c.beginIdx < c.endIdx) :
    c.items = List.segment c.data c.beginIdx (c.endIdx - c.beginIdx - 1) ++ [c.data (c.endIdx - 1)] := by
  rw [QueueChunk.items, show c.endIdx - c.beginIdx = (c.endIdx - c.beginIdx - 1) + 1 by omega,
    List.segment_succ, Nat.add_sub_cancel, show c.beginIdx + (c.endIdx - c.beginIdx - 1) = c.endIdx - 1 by omega]

/-- `queue_head` is the first item of the list; NULL when it is empty. -/
theorem queueHead_rep (hr : m.Rep cs l) : queueHead m = l.head? := by
  cases hh : m.q.head with
  | none =>
    obtain rfl : cs = [] := hr.chain.eq_nil_iff.1 hh
    obtain ⟨-, -, rfl⟩ := hr.empty
    simp only [queueHead, hh, Option.bind_eq_bind, List.head?_nil]
    rfl
  | some h =>
    obtain ⟨rest, rfl⟩ := hr.first hh
    obtain ⟨c, hc⟩ := hr.chain.allocated h (by simp)
    have huse := hr.inUse h (by simp) c hc
    have hitems := hr.items
    rw [List.flatMap_cons, chunkItems_of_cells hc, QueueChunk.items_eq_cons huse.nonempty,
      List.cons_append] at hitems
    cases l with
    | nil => cases hitems
    | cons a l =>
      rw [List.map_cons, List.cons.injEq] at hitems
      simp only [queueHead, hh, hc, Option.bind_eq_bind, Option.bind_some, if_pos huse.nonempty,
        hitems.1, List.head?_cons]

/-- `queue_tail` is the last item of the list; NULL when it is empty. -/
theorem queueTail_rep (hr : m.Rep cs l) : queueTail m = l.getLast? := by
  cases ht : m.q.tail with
  | none =>
    obtain rfl : cs = [] := hr.nil_iff.1 ht
    obtain ⟨-, -, rfl⟩ := hr.empty
    simp only [queueTail, ht, Option.bind_eq_bind, List.getLast?_nil]
    rfl
  | some t =>
    obtain ⟨init, rfl⟩ := hr.last ht
    obtain ⟨c, hc⟩ := hr.chain.allocated t (by simp)
    have huse := hr.inUse t (by simp) c hc
    have hitems := hr.items
    rw [List.flatMap_append, List.flatMap_singleton, chunkItems_of_cells hc,
      QueueChunk.items_eq_concat huse.nonempty, ← List.append_assoc] at hitems
    have hlast := congrArg List.getLast? hitems
    rw [List.getLast?_concat, List.getLast?_map] at hlast
    simp only [queueTail, ht, hc, Option.bind_eq_bind, Option.bind_some, if_pos huse.nonempty]
    cases hl : l.getLast? with
    | none => rw [hl] at hlast; cases hlast
    | some a => rw [hl] at hlast; exact Option.some.inj hlast

/-- Where an iterator stands: past the end, or at position `pos` of the chunk `p`, the items
from there on being `L`. -/
def QueueItAt (m : QueueMem α) (it : QueueIt) (L : List α) : Prop :=
  (it.chunk = none ∧ L = []) ∨
    ∃ p c rest, ∃ pos : Nat, it.chunk = some p ∧ it.pos = pos ∧ m.heap.cells p = some c ∧
      pos < c.endIdx ∧ Chain QueueChunk.next m.heap c.next rest ∧
      (∀ q ∈ rest, ∀ c', m.heap.cells q = some c' → c'.beginIdx < c'.endIdx) ∧
      List.segment c.data pos (c.endIdx - pos) ++ rest.flatMap (chunkItems m.heap) = L.map some

/-- From where it stands, the iterator visits the items `L` in order. -/
theorem queueItCollect_at :
    ∀ (L : List α) (fuel : Nat) (it : QueueIt), QueueItAt m it L → L.length < fuel →
      queueItCollect m fuel it = some L
  | _, 0, _, _, hf => absurd hf (Nat.not_lt_zero _)
  | L, fuel + 1, it, .inl ⟨hnone, hL⟩, _ => by
    subst hL
    simp only [queueItCollect, queueItFinishedImpl, hnone, Option.bind_eq_bind, Option.bind_some,
      ↓reduceIte]
  | L, fuel + 1, it, .inr ⟨p, c, rest, pos, hp, hip, hc, hpos, hchain, hne, hitems⟩, hf => by
    obtain ⟨chunk, ipos⟩ := it
    dsimp only at hp hip
    subst hp hip
    rw [show c.endIdx - pos = (c.endIdx - (pos + 1)) + 1 by omega, List.segment_succ_left] at hitems
    cases L with
    | nil => cases hitems
    | cons a L =>
      rw [List.cons_append, List.map_cons, List.cons.injEq] at hitems
      obtain ⟨hval, hrest⟩ := hitems
      have hnext : ∃ it', queueItNextImpl m ⟨some p, pos⟩ = some it' ∧ QueueItAt m it' L := by
        by_cases hlt : pos + 1 < c.endIdx
        · refine ⟨⟨some p, (pos + 1 : Nat)⟩, ?_,
            .inr ⟨p, c, rest, pos + 1, rfl, rfl, hc, hlt, hchain, hne, hrest⟩⟩
          simp only [queueItNextImpl, hc, Option.bind_eq_bind, Option.bind_some]
          rw [if_pos (by omega)]
          rfl
        · -- the last item of the chunk: on to the next one
          have hend : c.endIdx - (pos + 1) = 0 := by omega
          rw [hend, List.segment_zero, List.nil_append] at hrest
          cases hcn : c.next with
          | none =>
            rw [hcn] at hchain
            rw [hchain.eq_nil_iff.1 rfl, List.flatMap_nil] at hrest
            refine ⟨⟨none, -1⟩, ?_, .inl ⟨rfl, List.map_eq_nil_iff.1 hrest.symm⟩⟩
            simp only [queueItNextImpl, hc, hcn, Option.bind_eq_bind, Option.bind_some]
            rw [if_neg (by omega)]
          | some n =>
            rw [hcn] at hchain
            cases hchain with
            | @cons _ cn rest' hcn' hchain' =>
              have hcnne := hne n List.mem_cons_self cn hcn'
              refine ⟨⟨some n, (cn.beginIdx : Nat)⟩, ?_, .inr ⟨n, cn, rest', cn.beginIdx, rfl, rfl, hcn',
                hcnne, hchain', fun q hq => hne q (List.mem_cons_of_mem n hq), ?_⟩⟩
              · simp only [queueItNextImpl, hc, hcn, hcn', Option.bind_eq_bind, Option.bind_some]
                rw [if_neg (by omega)]
                rfl
              · rw [← hrest, List.flatMap_cons, chunkItems_of_cells hcn']
                rfl
      obtain ⟨it', hit', hat⟩ := hnext
      have hfin : queueItFinishedImpl m ⟨some p, pos⟩ = some false := by
        simp only [queueItFinishedImpl, hc, Option.map_some, Option.some.injEq, decide_eq_false_iff_not]
        omega
      have hrec := queueItCollect_at L fuel it' hat (by simp only [List.length_cons] at hf; omega)
      simp only [queueItCollect, hfin, queueItValImpl, hc, Int.toNat_natCast, hit', hrec,
        Option.bind_eq_bind, Option.bind_some]
      rw [hval]
      rfl

/-- Iterating from `queue_it_begin` visits the items of the list in order. -/
theorem queueItems_rep (hr : m.Rep cs l) : queueItems m = some l := by
  have hat : ∃ it, queueItBeginImpl m = some it ∧ QueueItAt m it l := by
    cases hh : m.q.head with
    | none =>
      obtain rfl : cs = [] := hr.chain.eq_nil_iff.1 hh
      obtain ⟨-, -, rfl⟩ := hr.empty
      exact ⟨⟨none, -1⟩, by simp only [queueItBeginImpl, hh], .inl ⟨rfl, rfl⟩⟩
    | some h =>
      obtain ⟨rest, rfl⟩ := hr.first hh
      have hchain := hr.chain
      rw [hh] at hchain
      cases hchain with
      | @cons _ c _ hc hchain' =>
        have huse := hr.inUse h (by simp) c hc
        refine ⟨⟨some h, (c.beginIdx : Nat)⟩, by simp only [queueItBeginImpl, hh, hc, Option.map_some],
          .inr ⟨h, c, rest, c.beginIdx, rfl, rfl, hc, huse.nonempty, hchain',
            fun q hq c' hc' => (hr.inUse q (List.mem_cons_of_mem h hq) c' hc').nonempty, ?_⟩⟩
        have hitems := hr.items
        rw [List.flatMap_cons, chunkItems_of_cells hc] at hitems
        exact hitems
  obtain ⟨it, hit, hat⟩ := hat
  simp only [queueItems, hit, Option.bind_eq_bind, Option.bind_some]
  exact queueItCollect_at l _ it hat (by rw [hr.len]; exact Nat.lt_succ_self _)

end Observe

/-- `queue_len`. -/
def queueLen (m : QueueMem α) : Nat := m.q.len

/-- From `queue_init`, every run of operations that leave an item behind on each `queue_pop`
holds the list the operations build: `queue_len`, `queue_head`, `queue_tail` and an iteration
from `queue_it_begin` agree with it. -/
theorem queueRun_refines (itemSize : Nat) (ops : List (QueueOp α)) (hops : QueueOp.KeepsAll [] ops) :
    ∃ m, queueRun (queueInitImpl itemSize) ops = some m ∧
      queueLen m = (ops.foldl (fun l op => op.apply l) []).length ∧
      queueHead m = (ops.foldl (fun l op => op.apply l) []).head? ∧
      queueTail m = (ops.foldl (fun l op => op.apply l) []).getLast? ∧
      queueItems m = some (ops.foldl (fun l op => op.apply l) []) := by
  obtain ⟨m, cs, hrun, hr⟩ := queueRun_rep ops (queueInitImpl_rep itemSize) hops
  exact ⟨m, hrun, hr.len, queueHead_rep hr, queueTail_rep hr, queueItems_rep hr⟩

theorem queueRun_refines_pushPopHead :
    QueueOp.KeepsAll [] [QueueOp.push 1, .push 2, .pop, .pushHead (3 : Nat)] ∧
      ∃ m, queueRun (queueInitImpl 8) [QueueOp.push 1, .push 2, .pop, .pushHead (3 : Nat)] = some m ∧
        queueLen m = ([QueueOp.push 1, .push 2, .pop, .pushHead (3 : Nat)].foldl
          (fun l op => op.apply l) []).length ∧
        queueHead m = ([QueueOp.push 1, .push 2, .pop, .pushHead (3 : Nat)].foldl
          (fun l op => op.apply l) []).head? ∧
        queueTail m = ([QueueOp.push 1, .push 2, .pop, .pushHead (3 : Nat)].foldl
          (fun l op => op.apply l) []).getLast? ∧
        queueItems m = some ([QueueOp.push 1, .push 2, .pop, .pushHead (3 : Nat)].foldl
          (fun l op => op.apply l) []) := by
  have hops : QueueOp.KeepsAll [] [QueueOp.push 1, .push 2, .pop, .pushHead (3 : Nat)] := by
    simp [QueueOp.KeepsAll, QueueOp.Keeps, QueueOp.apply]
  exact ⟨hops, queueRun_refines 8 _ hops⟩

/-- `queue_push(a); queue_pop(); queue_push(b)` on a queue of pointers: the pop frees the only
chunk and sets `head` to NULL but leaves `tail` on the freed chunk, and the second push then
uses the freed chunk. -/
theorem push_pop_push_uses_freed_chunk (a b : α) :
    (∃ m, queueRun (queueInitImpl 8) [.push a, .pop] = some m ∧ m.q.head = none ∧ queueLen m = 0 ∧
      ∃ t, m.q.tail = some t ∧ m.heap.cells t = none) ∧
    queueRun (queueInitImpl 8) [.push a, .pop, .push b] = none :=
  ⟨⟨_, rfl, rfl, rfl, 0, rfl, rfl⟩, rfl⟩

end KnotResolver.Generic
