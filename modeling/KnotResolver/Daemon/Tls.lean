import KnotResolver.Rrset

/-!
# TLS output (`daemon/tls.c`)

GnuTLS hands the records it sends to `kres_gnutls_vec_push` as a vector of buffers. When none of
the session's asynchronous writes is pending, the push first tries to write the bytes at once
(`uv_try_write`), which may take a prefix of them; the rest, or everything when a write is
pending, is copied and queued with `uv_write`, whose requests libuv writes in order. Each queued
request counts in `write_queue_size` until `on_write_complete` runs.

The TCP side is modelled as libuv's view of the stream: the bytes written, the buffers of the
requests not yet written (the oldest first, partly written at its head) and the requests
written whose callback has not run. `uv_try_write`, `malloc` and `uv_write` are the choices of
the environment at each push.

The copy skips exactly the bytes written at once (`copyIovs_eq`), so a push moves its bytes to
the stream and the queue in order (`TlsInv.push`). When allocation and `uv_write` succeed, the
bytes on the stream followed by those queued are, at every point of every run, the bytes of the
calls that returned their total length (`tlsRun_stream`). A push that fails after a partial
immediate write leaves that prefix on the stream (`kresGnutlsVecPush_partial_then_fail`).
-/

namespace KnotResolver.Daemon

/-- `UV_EAGAIN`. -/
def uvEagain : Int := -EAGAIN

/-- What the environment does in a push: the value `uv_try_write` returns (the number of bytes it
wrote, or an error), and whether `malloc` and `uv_write` succeed. -/
structure PushEnv where
  tryWrite : Int
  mallocOk : Bool
  uvWriteOk : Bool
  deriving DecidableEq, Repr

/-- The session's `write_queue_size` and libuv's view of the TCP stream. -/
structure TlsState where
  /-- The bytes written to the connection. -/
  stream : List UInt8
  /-- The buffers of the `uv_write` requests not yet fully written, oldest first. -/
  queue : List (List UInt8)
  /-- Requests fully written whose callback has not run. -/
  finished : Nat
  writeQueueSize : Nat
  deriving DecidableEq, Repr

/-- The total length of a vector of buffers, `total_len`. -/
def totalLen (iov : List (List UInt8)) : Nat := (iov.map List.length).sum

/-- The copy loop of `kres_gnutls_vec_push`: the buffers are copied one after the other, the
first `toSkip` bytes left out, whole buffers first and then part of one. -/
def copyIovs : Nat → List (List UInt8) → List UInt8
  | _, [] => []
  | toSkip, b :: bs =>
    if toSkip > 0 then
      if toSkip ≥ b.length then copyIovs (toSkip - b.length) bs
      else b.drop toSkip ++ copyIovs 0 bs
    else b ++ copyIovs 0 bs

/-- The asynchronous write of `kres_gnutls_vec_push`, of the bytes after the first `ret`: the
value returned, `errno` when it is set, and the state. -/
def asyncWrite (s : TlsState) (iov : List (List UInt8)) (total ret : Nat) (env : PushEnv) :
    Int × Option Int × TlsState :=
  if !env.mallocOk then (-1, some ENOMEM, s)
  else
    let buf := copyIovs ret iov
    if env.uvWriteOk then
      (total, none, { s with queue := s.queue ++ [buf], writeQueueSize := s.writeQueueSize + 1 })
    else (-1, some EIOerr, s)

/-- `kres_gnutls_vec_push`. `uv_try_write` writes the first bytes it reports at once. The test
`ret == total_len` converts `ret` to `size_t`, where a negative `ret` is never a total length. -/
def kresGnutlsVecPush (s : TlsState) (iov : List (List UInt8)) (env : PushEnv) :
    Int × Option Int × TlsState :=
  if iov = [] then (0, none, s)
  else
    let total := totalLen iov
    if s.writeQueueSize = 0 then
      let ret := env.tryWrite
      let s := { s with stream := s.stream ++ iov.flatten.take ret.toNat }
      if ret = total then (ret, none, s)
      else if ret < 0 ∧ ret ≠ uvEagain then (-1, some EIOerr, s)
      else asyncWrite s iov total (if ret = uvEagain then 0 else ret.toNat) env
    else asyncWrite s iov total 0 env

/-- `on_write_complete`. -/
def onWriteComplete (s : TlsState) : TlsState := { s with writeQueueSize := s.writeQueueSize - 1 }

/-- libuv writes up to `n` more bytes of its oldest request; a request written in full waits
for its callback. -/
def uvWriteProgress (s : TlsState) (n : Nat) : TlsState :=
  match s.queue with
  | [] => s
  | b :: rest =>
    if b.length ≤ n then { s with stream := s.stream ++ b, queue := rest, finished := s.finished + 1 }
    else { s with stream := s.stream ++ b.take n, queue := b.drop n :: rest }

/-- libuv runs the callback of its oldest written request. -/
def uvWriteCallback (s : TlsState) : TlsState :=
  if s.finished = 0 then s else onWriteComplete { s with finished := s.finished - 1 }

/-- The events of a TLS session's output. -/
inductive TlsEvent where
  | push (iov : List (List UInt8)) (env : PushEnv)
  | progress (n : Nat)
  | callback
  deriving DecidableEq, Repr

/-- Allocation and `uv_write` succeed in the event. -/
def TlsEvent.succeeds : TlsEvent → Bool
  | .push _ env => env.mallocOk && env.uvWriteOk
  | _ => true

/-- The state after an event, and the push call it made with the value it returned. -/
def tlsStep (s : TlsState) : TlsEvent → TlsState × Option (List (List UInt8) × Int)
  | .push iov env =>
    let r := kresGnutlsVecPush s iov env
    (r.2.2, some (iov, r.1))
  | .progress n => (uvWriteProgress s n, none)
  | .callback => (uvWriteCallback s, none)

/-- The state after a run, and the push calls made with the values they returned. -/
def tlsRun (s : TlsState) : List TlsEvent → TlsState × List (List (List UInt8) × Int)
  | [] => (s, [])
  | e :: es =>
    let r := tlsStep s e
    let rest := tlsRun r.1 es
    (rest.1, r.2.toList ++ rest.2)

/-- The bytes of the calls that returned their total length, in call order. -/
def acceptedBytes (calls : List (List (List UInt8) × Int)) : List UInt8 :=
  ((calls.filter fun c => c.2 = (totalLen c.1 : Int)).map fun c => c.1.flatten).flatten

/-- A session with nothing written. -/
def TlsState.init : TlsState := ⟨[], [], 0, 0⟩

/-- `kres_gnutls_pull`: at most `len` of the bytes received (`buf` up to `nread`) and not yet
consumed, with the new count of consumed bytes; `EAGAIN` when there are none. -/
def kresGnutlsPull (buf : List UInt8) (nread consumed len : Nat) : Except Int (List UInt8 × Nat) :=
  if nread ≤ consumed then .error EAGAIN
  else
    let transfer := min (nread - consumed) len
    .ok ((buf.drop consumed).take transfer, consumed + transfer)

/-! ## The copy and a push -/

theorem length_flatten_eq_totalLen (iov : List (List UInt8)) :
    iov.flatten.length = totalLen iov := List.length_flatten

/-- The copy leaves out exactly the first `toSkip` bytes of the buffers put end to end. -/
theorem copyIovs_eq : ∀ (toSkip : Nat) (iov : List (List UInt8)),
    copyIovs toSkip iov = iov.flatten.drop toSkip
  | _, [] => by simp [copyIovs]
  | toSkip, b :: bs => by
    rw [copyIovs, List.flatten_cons, List.drop_append]
    simp only [copyIovs_eq]
    split_ifs with hpos hge
    · rw [List.drop_eq_nil_of_le hge, List.nil_append]
    · rw [Nat.sub_eq_zero_of_le (Nat.le_of_lt (Nat.lt_of_not_le hge))]
    · rw [Nat.eq_zero_of_not_pos hpos]
      simp

theorem asyncWrite_ok {s : TlsState} {iov : List (List UInt8)} {total ret : Nat} {env : PushEnv}
    (hok : env.mallocOk = true ∧ env.uvWriteOk = true) :
    asyncWrite s iov total ret env =
      ((total : Int), none,
        { s with
          queue := s.queue ++ [iov.flatten.drop ret]
          writeQueueSize := s.writeQueueSize + 1 }) := by
  simp only [asyncWrite, hok.1, hok.2, Bool.not_true, copyIovs_eq]
  rfl

theorem acceptedBytes_nil : acceptedBytes [] = [] := rfl

theorem acceptedBytes_append (a b : List (List (List UInt8) × Int)) :
    acceptedBytes (a ++ b) = acceptedBytes a ++ acceptedBytes b := by
  simp [acceptedBytes, List.filter_append]

theorem acceptedBytes_single (iov : List (List UInt8)) (ret : Int) :
    acceptedBytes [(iov, ret)] = if ret = totalLen iov then iov.flatten else [] := by
  by_cases h : ret = totalLen iov <;> simp [acceptedBytes, h]

/-! ## The stream carries the accepted bytes in order -/

/-- The bytes on the stream followed by the bytes queued are `sent`, and `write_queue_size`
counts the requests whose callback has not run. -/
structure TlsInv (s : TlsState) (sent : List UInt8) : Prop where
  bytes : s.stream ++ s.queue.flatten = sent
  count : s.writeQueueSize = s.queue.length + s.finished

theorem TlsInv.init : TlsInv TlsState.init [] := ⟨rfl, rfl⟩

/-- Without a pending request the stream holds all that was sent: the immediate write goes right
after it. -/
theorem TlsInv.queue_eq_nil {s : TlsState} {sent : List UInt8} (h : TlsInv s sent)
    (hq : s.writeQueueSize = 0) : s.queue = [] ∧ s.stream = sent := by
  have hnil : s.queue = [] := List.eq_nil_of_length_eq_zero (by have := h.count; omega)
  refine ⟨hnil, ?_⟩
  have hb := h.bytes
  rwa [hnil, List.flatten_nil, List.append_nil] at hb

/-- The bytes `uv_try_write` writes at once go right after all that was sent. -/
theorem TlsInv.tryWritten {s : TlsState} {sent : List UInt8} (h : TlsInv s sent)
    (hq : s.writeQueueSize = 0) (bytes : List UInt8) :
    TlsInv { s with stream := s.stream ++ bytes } (sent ++ bytes) := by
  obtain ⟨hqueue, hstream⟩ := h.queue_eq_nil hq
  exact ⟨by simp [hqueue, hstream], h.count⟩

/-- Queuing the bytes of a push after its first `ret`, which were sent already. -/
theorem TlsInv.asyncWrite {s : TlsState} {sent : List UInt8} {iov : List (List UInt8)} {ret : Nat}
    (h : TlsInv s (sent ++ iov.flatten.take ret)) {env : PushEnv}
    (hok : env.mallocOk = true ∧ env.uvWriteOk = true) :
    TlsInv (asyncWrite s iov (totalLen iov) ret env).2.2
      (sent ++ acceptedBytes [(iov, (asyncWrite s iov (totalLen iov) ret env).1)]) := by
  rw [asyncWrite_ok hok]
  refine ⟨?_, ?_⟩
  · simp only [acceptedBytes_single, ↓reduceIte, List.flatten_append, List.flatten_singleton]
    rw [← List.append_assoc, h.bytes, List.append_assoc, List.take_append_drop]
  · simp [h.count]
    omega

/-- A push whose allocation and `uv_write` succeed moves its bytes to the stream and the queue
when it returns its total length, and leaves both as they were otherwise. -/
theorem TlsInv.push {s : TlsState} {sent : List UInt8} (h : TlsInv s sent)
    (iov : List (List UInt8)) {env : PushEnv} (hok : env.mallocOk = true ∧ env.uvWriteOk = true) :
    TlsInv (kresGnutlsVecPush s iov env).2.2
      (sent ++ acceptedBytes [(iov, (kresGnutlsVecPush s iov env).1)]) := by
  have hlen := length_flatten_eq_totalLen iov
  unfold kresGnutlsVecPush
  dsimp only
  split_ifs with hnil hq hall herr hag
  · -- no buffers: nothing is written and 0 is the total length
    subst hnil
    simpa [acceptedBytes_single, totalLen] using h
  · -- everything written at once
    have htake : iov.flatten.take env.tryWrite.toNat = iov.flatten := by
      rw [hall, Int.toNat_natCast, ← hlen, List.take_length]
    have hs := h.tryWritten hq (iov.flatten.take env.tryWrite.toNat)
    rw [htake] at hs
    rw [acceptedBytes_single, if_pos hall, htake]
    exact hs
  · -- an error other than EAGAIN: nothing was written
    have hzero : env.tryWrite.toNat = 0 := Int.toNat_eq_zero.2 (Int.le_of_lt herr.1)
    have hne : (-1 : Int) ≠ totalLen iov := by omega
    have hs := h.tryWritten hq (iov.flatten.take env.tryWrite.toNat)
    rwa [hzero, List.take_zero, List.append_nil, acceptedBytes_single, if_neg hne,
      List.append_nil]
  · -- EAGAIN: nothing was written, and everything is queued
    have hzero : env.tryWrite.toNat = 0 := by rw [hag]; decide
    have hs := h.tryWritten hq (iov.flatten.take env.tryWrite.toNat)
    rw [hzero] at hs ⊢
    exact hs.asyncWrite hok
  · -- a partial write: the rest is queued
    exact (h.tryWritten hq (iov.flatten.take env.tryWrite.toNat)).asyncWrite hok
  · -- a request is pending: everything is queued after it
    have h0 : TlsInv s (sent ++ iov.flatten.take 0) := by simpa using h
    exact h0.asyncWrite hok

theorem TlsInv.progress {s : TlsState} {sent : List UInt8} (h : TlsInv s sent) (n : Nat) :
    TlsInv (uvWriteProgress s n) sent := by
  unfold uvWriteProgress
  split
  case h_1 => exact h
  case h_2 b rest hqueue =>
    have hb := h.bytes
    have hc := h.count
    rw [hqueue] at hb hc
    split_ifs with hall
    · exact ⟨by simpa [List.take_of_length_le hall] using hb, by simp at hc ⊢; omega⟩
    · refine ⟨?_, by simpa using hc⟩
      rw [List.flatten_cons, List.append_assoc, ← List.append_assoc (b.take n),
        List.take_append_drop]
      simpa using hb

theorem TlsInv.callback {s : TlsState} {sent : List UInt8} (h : TlsInv s sent) :
    TlsInv (uvWriteCallback s) sent := by
  unfold uvWriteCallback onWriteComplete
  split_ifs with hfin
  · exact h
  · exact ⟨h.bytes, by simp; have := h.count; omega⟩

theorem TlsInv.step {s : TlsState} {sent : List UInt8} (h : TlsInv s sent) {e : TlsEvent}
    (he : e.succeeds = true) : TlsInv (tlsStep s e).1 (sent ++ acceptedBytes (tlsStep s e).2.toList) := by
  cases e with
  | push iov env => exact h.push iov (by simpa [TlsEvent.succeeds] using he)
  | progress n => simpa [tlsStep, acceptedBytes_nil] using h.progress n
  | callback => simpa [tlsStep, acceptedBytes_nil] using h.callback

/-- Along a run whose allocations and `uv_write` calls succeed, the stream and the queue carry
the bytes of the accepted calls. -/
theorem TlsInv.run : ∀ {evs : List TlsEvent} {s : TlsState} {sent : List UInt8}, TlsInv s sent →
    (∀ e ∈ evs, e.succeeds = true) →
      TlsInv (tlsRun s evs).1 (sent ++ acceptedBytes (tlsRun s evs).2)
  | [], _, _, h, _ => by simpa [tlsRun, acceptedBytes_nil] using h
  | e :: es, s, sent, h, hok => by
    have hstep := h.step (hok e List.mem_cons_self)
    have hrest := TlsInv.run hstep fun e' he' => hok e' (List.mem_cons_of_mem _ he')
    simpa [tlsRun, acceptedBytes_append, List.append_assoc] using hrest

/-- From a fresh session, when allocation and `uv_write` succeed, the bytes on the stream
followed by the bytes queued are those of the calls that returned their total length, in call
order; `write_queue_size` counts the requests whose callback has not run, and once it is zero
the stream holds exactly those bytes. -/
theorem tlsRun_stream (evs : List TlsEvent) (hok : ∀ e ∈ evs, e.succeeds = true) :
    (tlsRun TlsState.init evs).1.stream ++ (tlsRun TlsState.init evs).1.queue.flatten =
        acceptedBytes (tlsRun TlsState.init evs).2 ∧
      (tlsRun TlsState.init evs).1.writeQueueSize =
        (tlsRun TlsState.init evs).1.queue.length + (tlsRun TlsState.init evs).1.finished ∧
      ((tlsRun TlsState.init evs).1.writeQueueSize = 0 →
        (tlsRun TlsState.init evs).1.stream = acceptedBytes (tlsRun TlsState.init evs).2) := by
  have h := TlsInv.init.run hok
  rw [List.nil_append] at h
  exact ⟨h.bytes, h.count, fun hq => (h.queue_eq_nil hq).2⟩

/-- Two pushes, the first written in part at once, the second queued behind it, then written and
called back. -/
theorem tlsRun_stream_two_pushes :
    (∀ e ∈ [TlsEvent.push [[1, 2], [3]] ⟨1, true, true⟩, .push [[4]] ⟨uvEagain, true, true⟩,
      .progress 2, .progress 1, .callback, .callback], e.succeeds = true) ∧
    (tlsRun TlsState.init [.push [[1, 2], [3]] ⟨1, true, true⟩, .push [[4]] ⟨uvEagain, true, true⟩,
      .progress 2, .progress 1, .callback, .callback]).1.writeQueueSize = 0 ∧
    (tlsRun TlsState.init [.push [[1, 2], [3]] ⟨1, true, true⟩, .push [[4]] ⟨uvEagain, true, true⟩,
        .progress 2, .progress 1, .callback, .callback]).1.stream =
      acceptedBytes (tlsRun TlsState.init [.push [[1, 2], [3]] ⟨1, true, true⟩,
        .push [[4]] ⟨uvEagain, true, true⟩, .progress 2, .progress 1, .callback, .callback]).2 :=
  have hok : ∀ e ∈ [TlsEvent.push [[1, 2], [3]] ⟨1, true, true⟩, .push [[4]] ⟨uvEagain, true, true⟩,
      .progress 2, .progress 1, .callback, .callback], e.succeeds = true := by decide
  have hq : (tlsRun TlsState.init [.push [[1, 2], [3]] ⟨1, true, true⟩,
      .push [[4]] ⟨uvEagain, true, true⟩, .progress 2, .progress 1, .callback,
      .callback]).1.writeQueueSize = 0 := by decide
  ⟨hok, hq, (tlsRun_stream _ hok).2.2 hq⟩

/-- A push whose first byte is written at once and whose `uv_write` then fails returns `-1`: the
call is not accepted, yet its first byte is on the stream. -/
theorem kresGnutlsVecPush_partial_then_fail :
    tlsRun TlsState.init [.push [[1, 2]] ⟨1, true, false⟩] = (⟨[1], [], 0, 0⟩, [([[1, 2]], -1)]) ∧
      acceptedBytes [([[1, 2]], -1)] = [] := by
  decide

/-! ## Reading -/

end KnotResolver.Daemon
