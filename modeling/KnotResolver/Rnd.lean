import Mathlib

/-!
# Buffered randomness (`kr_rnd_buffered` of `lib/utils.c`)

`kr_rnd_buffered` hands out random bytes from a static 64-byte buffer. gnutls produces the
buffer's bytes one 512-bit block at a time. A request of more than 64 bytes goes to gnutls
directly and leaves the buffer alone (`krRndBuffered_bypass`). A smaller request takes what is
left of the buffer. If that is not enough, the buffer is refilled and the request is finished
from the new block.

gnutls is modelled as a stream `gen` of bytes, of which `pos` have been produced. The buffer's
unused tail is always the last bytes drawn from the stream, and the request takes the next bytes
of the stream (`krRndBuffered_step`). From program start, the calls of 1 to 64 bytes therefore
hand out the stream in order: each byte once, none skipped, a block left only when it is used up
(`krRndBufferedRun_segments`).
-/

namespace KnotResolver

/-! ## Segments of a stream -/

section Stream

variable {α : Type u} (gen : Nat → α)

/-- The `n` items of `gen` from index `a` on. -/
def seg (a n : Nat) : List α := (List.range n).map fun i => gen (a + i)

@[simp] theorem length_seg (a n : Nat) : (seg gen a n).length = n := by
  simp [seg]

theorem seg_add (a n m : Nat) : seg gen a (n + m) = seg gen a n ++ seg gen (a + n) m := by
  simp only [seg, List.range_add, List.map_append, List.map_map]
  congr 1
  apply List.map_congr_left
  intro i _
  simp only [Function.comp_apply, Nat.add_assoc]

theorem take_seg (a n k : Nat) (hk : k ≤ n) : (seg gen a n).take k = seg gen a k := by
  have h := seg_add gen a k (n - k)
  rw [Nat.add_sub_cancel' hk] at h
  rw [h, List.take_left' (length_seg gen a k)]

theorem drop_seg (a n k : Nat) (hk : k ≤ n) : (seg gen a n).drop k = seg gen (a + k) (n - k) := by
  have h := seg_add gen a k (n - k)
  rw [Nat.add_sub_cancel' hk] at h
  rw [h, List.drop_left' (length_seg gen a k)]

end Stream

/-! ## The model -/

/-- `gnutls_rnd(GNUTLS_RND_NONCE, ..)`, as the stream `gen` of which `pos` bytes have been
produced. -/
structure RndStream where
  gen : Nat → UInt8
  pos : Nat

/-- `rnd_noerror`: the next `size` bytes of the stream (gnutls does not fail here). -/
def rndNoerror (g : RndStream) (size : Nat) : List UInt8 × RndStream :=
  (seg g.gen g.pos size, { g with pos := g.pos + size })

/-- The static state of `kr_rnd_buffered`: `buf` and `buf_begin`. -/
structure RndBuf where
  buf : List UInt8
  bufBegin : Nat

/-- `sizeof(buf)`: gnutls works on blocks of 512 bits. -/
def rndBufSize : Nat := 512 / 8

/-- The buffer at program start: zeros, all of them used. -/
def rndBufInit : RndBuf := ⟨List.replicate rndBufSize 0, rndBufSize⟩

/-- `kr_rnd_buffered(data, size)`: the bytes written to `data`, and the states after. -/
def krRndBuffered (s : RndBuf) (g : RndStream) (size : Nat) : List UInt8 × RndBuf × RndStream :=
  if size > rndBufSize then
    let r := rndNoerror g size
    (r.1, s, r.2)
  else
    -- start with the contiguous chunk, possibly until the end of the buffer
    let size1 := min size (rndBufSize - s.bufBegin)
    let d := (s.buf.drop s.bufBegin).take size1
    if size1 = size then (d, { s with bufBegin := s.bufBegin + size1 }, g)
    else
      let size := size - size1
      -- refill the whole buffer, and finish by another contiguous chunk
      let r := rndNoerror g rndBufSize
      (d ++ r.1.take size, ⟨r.1, size⟩, r.2)

/-- A sequence of calls: the bytes each returns, and the states after the last. -/
def krRndBufferedRun (s : RndBuf) (g : RndStream) :
    List Nat → List (List UInt8) × RndBuf × RndStream
  | [] => ([], s, g)
  | size :: sizes =>
    let r := krRndBuffered s g size
    let rest := krRndBufferedRun r.2.1 r.2.2 sizes
    (r.1 :: rest.1, rest.2)

/-! ## The buffer holds the last bytes drawn -/

/-- The buffer is a full block and its unused tail is the last bytes drawn from the stream, from
the index `RndBuf.next` on. -/
structure RndBuf.Holds (s : RndBuf) (g : RndStream) : Prop where
  length : s.buf.length = rndBufSize
  begin_le : s.bufBegin ≤ rndBufSize
  drawn : rndBufSize - s.bufBegin ≤ g.pos
  tail : s.buf.drop s.bufBegin = seg g.gen (g.pos - (rndBufSize - s.bufBegin)) (rndBufSize - s.bufBegin)

/-- The index in the stream of the next byte a buffered call returns. -/
def RndBuf.next (s : RndBuf) (g : RndStream) : Nat := g.pos - (rndBufSize - s.bufBegin)

theorem rndBufInit_holds (gen : Nat → UInt8) : rndBufInit.Holds ⟨gen, 0⟩ :=
  ⟨List.length_replicate, Nat.le_refl _, by simp [rndBufInit], by simp [rndBufInit, seg]⟩

/-- A call of more than 64 bytes takes them from gnutls and leaves the buffer as it was. -/
theorem krRndBuffered_bypass (s : RndBuf) (g : RndStream) {size : Nat} (h : rndBufSize < size) :
    krRndBuffered s g size = (seg g.gen g.pos size, s, { g with pos := g.pos + size }) := by
  rw [krRndBuffered, if_pos h]
  rfl

/-- A buffered call returns the next `size` bytes of the stream and keeps the buffer holding the
last bytes drawn. -/
theorem krRndBuffered_step {s : RndBuf} {g : RndStream} (hs : s.Holds g) {size : Nat}
    (hsize : size ≤ rndBufSize) :
    (krRndBuffered s g size).1 = seg g.gen (s.next g) size ∧
      (krRndBuffered s g size).2.1.Holds (krRndBuffered s g size).2.2 ∧
      (krRndBuffered s g size).2.2.gen = g.gen ∧
      (krRndBuffered s g size).2.1.next (krRndBuffered s g size).2.2 = s.next g + size := by
  obtain ⟨hlen, hbegin, hdrawn, htail⟩ := hs
  unfold krRndBuffered RndBuf.next
  rw [if_neg (Nat.not_lt.2 hsize)]
  dsimp only
  split
  · -- the buffer has enough left
    next heq =>
    have hle : size ≤ rndBufSize - s.bufBegin := by omega
    rw [heq, htail, take_seg _ _ _ _ hle]
    have hbegin' : s.bufBegin + size ≤ rndBufSize := by omega
    have hdrawn' : rndBufSize - (s.bufBegin + size) ≤ g.pos := by omega
    have hnext : g.pos - (rndBufSize - (s.bufBegin + size)) =
        g.pos - (rndBufSize - s.bufBegin) + size := by omega
    refine ⟨rfl, ⟨hlen, hbegin', hdrawn', ?_⟩, rfl, hnext⟩
    show s.buf.drop (s.bufBegin + size) = seg g.gen (g.pos - (rndBufSize - (s.bufBegin + size)))
      (rndBufSize - (s.bufBegin + size))
    rw [← List.drop_drop, htail, drop_seg _ _ _ _ hle, hnext]
    congr 1
    omega
  · -- what is left, then the start of a new block
    next hne =>
    have hlt : rndBufSize - s.bufBegin < size := by omega
    rw [Nat.min_eq_right (Nat.le_of_lt hlt), htail, List.take_of_length_le (Nat.le_of_eq (length_seg _ _ _)),
      rndNoerror, take_seg _ _ _ _ (by omega)]
    -- the new block's first `size - size1` bytes are handed out
    have hr : size - (rndBufSize - s.bufBegin) ≤ rndBufSize := by omega
    have hdrawn' : rndBufSize - (size - (rndBufSize - s.bufBegin)) ≤ g.pos + rndBufSize := by omega
    have hnext : g.pos + rndBufSize - (rndBufSize - (size - (rndBufSize - s.bufBegin))) =
        g.pos - (rndBufSize - s.bufBegin) + size := by omega
    refine ⟨?_, ⟨length_seg _ _ _, hr, hdrawn', ?_⟩, rfl, hnext⟩
    · -- the old tail ends where the new block starts
      have h := seg_add g.gen (g.pos - (rndBufSize - s.bufBegin)) (rndBufSize - s.bufBegin)
        (size - (rndBufSize - s.bufBegin))
      rw [Nat.add_sub_cancel' (Nat.le_of_lt hlt), Nat.sub_add_cancel hdrawn] at h
      exact h.symm
    · show (seg g.gen g.pos rndBufSize).drop (size - (rndBufSize - s.bufBegin)) =
        seg g.gen (g.pos + rndBufSize - (rndBufSize - (size - (rndBufSize - s.bufBegin))))
          (rndBufSize - (size - (rndBufSize - s.bufBegin)))
      rw [drop_seg _ _ _ _ hr, hnext]
      congr 1
      omega

/-- From a buffer holding the last bytes drawn, a run of buffered calls returns consecutive
segments of the stream, and the buffer keeps holding the last bytes drawn. -/
theorem krRndBufferedRun_spec :
    ∀ {s : RndBuf} {g : RndStream} (sizes : List Nat), s.Holds g →
      (∀ n ∈ sizes, n ≤ rndBufSize) →
      let r := krRndBufferedRun s g sizes
      r.1.flatten = seg g.gen (s.next g) sizes.sum ∧
        (∀ k (hk : k < sizes.length),
          r.1[k]? = some (seg g.gen (s.next g + (sizes.take k).sum) sizes[k])) ∧
        r.2.1.Holds r.2.2 ∧ r.2.1.next r.2.2 = s.next g + sizes.sum
  | s, g, [], hs, _ => ⟨rfl, fun _ hk => absurd hk (Nat.not_lt_zero _), hs, rfl⟩
  | s, g, size :: sizes, hs, hsizes => by
    obtain ⟨hout, hs', hgen, hnext⟩ :=
      krRndBuffered_step hs (hsizes size List.mem_cons_self)
    obtain ⟨hflat, hsegs, hend, hnext'⟩ := krRndBufferedRun_spec sizes hs'
      (fun n hn => hsizes n (List.mem_cons_of_mem _ hn))
    simp only [krRndBufferedRun]
    rw [hgen, hnext] at hflat hsegs
    rw [hnext] at hnext'
    refine ⟨?_, ?_, hend, ?_⟩
    · -- the first call's bytes, then the rest's
      rw [List.flatten_cons, hout, hflat, List.sum_cons, seg_add]
    · intro k hk
      cases k with
      | zero => rw [List.getElem?_cons_zero, hout]; rfl
      | succ k =>
        rw [List.getElem?_cons_succ, hsegs k (by simpa using hk), List.take_succ_cons,
          List.sum_cons, Nat.add_assoc]
        rfl
    · rw [hnext', List.sum_cons, Nat.add_assoc]

/-- Whatever the size asked for, `buf_begin` stays within the buffer. -/
theorem bufBegin_krRndBuffered_le {s : RndBuf} (g : RndStream) (size : Nat)
    (hs : s.bufBegin ≤ rndBufSize) : (krRndBuffered s g size).2.1.bufBegin ≤ rndBufSize := by
  unfold krRndBuffered
  split
  · exact hs
  · dsimp only
    split
    · show s.bufBegin + min size (rndBufSize - s.bufBegin) ≤ rndBufSize
      omega
    · show size - min size (rndBufSize - s.bufBegin) ≤ rndBufSize
      omega

/-- Buffered randomness never hands out a byte twice. From program start, calls of 1 to 64 bytes
return consecutive segments of the gnutls stream, in order and without gaps. The bytes drawn but
not yet returned are the unused tail of the buffer. `buf_begin` stays within `[0, 64]` on every
call, and a call of more than 64 bytes leaves the buffer as it was. -/
theorem krRndBufferedRun_segments (gen : Nat → UInt8) (sizes : List Nat)
    (hsizes : ∀ n ∈ sizes, 1 ≤ n ∧ n ≤ rndBufSize) :
    (let r := krRndBufferedRun rndBufInit ⟨gen, 0⟩ sizes;
      r.1.flatten = seg gen 0 sizes.sum ∧
        (∀ k (hk : k < sizes.length), r.1[k]? = some (seg gen (sizes.take k).sum sizes[k])) ∧
        r.2.2.pos = sizes.sum + (rndBufSize - r.2.1.bufBegin)) ∧
    (∀ (s : RndBuf) (g : RndStream) (size : Nat), s.bufBegin ≤ rndBufSize →
      (krRndBuffered s g size).2.1.bufBegin ≤ rndBufSize) ∧
    ∀ (s : RndBuf) (g : RndStream) (size : Nat), rndBufSize < size →
      (krRndBuffered s g size).1 = seg g.gen g.pos size ∧ (krRndBuffered s g size).2.1 = s := by
  refine ⟨?_, fun s g size hs => bufBegin_krRndBuffered_le g size hs,
    fun s g size h => by rw [krRndBuffered_bypass s g h]; exact ⟨rfl, rfl⟩⟩
  obtain ⟨hflat, hsegs, hend, hnext⟩ :=
    krRndBufferedRun_spec sizes (rndBufInit_holds gen) fun n hn => (hsizes n hn).2
  -- from the start, the next byte is the stream's first
  have hstart : rndBufInit.next ⟨gen, 0⟩ = 0 := rfl
  rw [hstart] at hflat
  rw [hstart, Nat.zero_add] at hnext
  dsimp only
  refine ⟨hflat, fun k hk => by rw [hsegs k hk, hstart, Nat.zero_add], ?_⟩
  have hdrawn := hend.drawn
  rw [RndBuf.next] at hnext
  omega

/-- Calls of 10, 60 and 64 bytes from program start hand out the first 134 bytes of the stream. -/
theorem krRndBufferedRun_segments_three :
    (∀ n ∈ [10, 60, 64], 1 ≤ n ∧ n ≤ rndBufSize) ∧
      (krRndBufferedRun rndBufInit ⟨fun i => i.toUInt8, 0⟩ [10, 60, 64]).1.flatten =
        seg (fun i => i.toUInt8) 0 134 :=
  ⟨by decide, (krRndBufferedRun_segments (fun i => i.toUInt8) [10, 60, 64] (by decide)).1.1⟩

end KnotResolver
