import KnotResolver.Daemon.Session

/-!
# Reading a TCP connection (`daemon/io.c`)

libuv reads a TCP connection into the buffer `handle_getbuf` offers, the free space of the
session's wire buffer, and calls `tcp_recv` with what it read. `tcp_recv` joins the bytes to the
window (`session_wirebuf_consume`), hands the complete messages to the worker
(`session_wirebuf_process`), ends the connection on an error (`worker_end_tcp`) and moves the
window to the start of the buffer (`session_wirebuf_compress`).

Between two reads of a stream of frames the session is `Between`: the indices in the buffer, no
error, the connection open, the window at the start of the buffer and the front of the frames
not submitted yet. `tcp_recv` keeps it (`tcpRecv_between`), and so does every run of reads
(`tcpRecvRun_frames`, by the run rule `tcpRecvRun_inv`): the frames are submitted in the order
of the stream, each whole, and a full buffer always holds a frame to produce.
-/

namespace KnotResolver.Daemon

open Session

/-- libuv's read of `data` into the buffer `handle_getbuf` offered, the free space from
`wire_buf_end_idx`. -/
def uvReadInto (s : Session) (data : List UInt8) : Session :=
  { s with wireBuf := fun i =>
      if s.wireBufEndIdx ≤ i ∧ i < s.wireBufEndIdx + data.length then data.getD (i - s.wireBufEndIdx) 0
      else s.wireBuf i }

/-- `worker_end_tcp`: the tasks of the session end and `session_close` marks it closing. -/
def workerEndTcp (s : Session) : Session := { s with closing := true }

/-- `tcp_recv` on a session without TLS, after libuv read `data`, its `nread` bytes: the session
and the packets submitted to the worker. -/
def tcpRecv (accepted : List UInt8 → Bool) (s : Session) (data : List UInt8) :
    Session × List (List UInt8) :=
  if s.closing then (s, [])
  else if data.length = 0 then (s, [])
  else
    let s := uvReadInto s data
    -- `consumed == data_len` is only asserted
    let s := match sessionWirebufConsume s data.length with
      | .ok s => s
      | .error _ => s
    let (s, ret, log) := sessionWirebufProcess accepted s
    let s := if ret < 0 then workerEndTcp s else s
    (sessionWirebufCompress s, log)

/-- The reads of a connection, each of them into the free space `handle_getbuf` offers at its
time: the session after them and the packets submitted, in order. A read that does not fit is
not one libuv makes (`none`). -/
def tcpRecvRun (accepted : List UInt8 → Bool) : Session → List (List UInt8) →
    Option (Session × List (List UInt8))
  | s, [] => some (s, [])
  | s, data :: reads =>
    if data.length ≤ sessionWirebufGetFreeSize s then
      let (s, log) := tcpRecv accepted s data
      (tcpRecvRun accepted s reads).map fun r => (r.1, log ++ r.2)
    else none

/-! ## The read and its window -/

/-- The read lands after the window. -/
theorem window_uvReadInto {s : Session} (hwf : s.Wf) (data : List UInt8) :
    ({ uvReadInto s data with wireBufEndIdx := s.wireBufEndIdx + data.length } : Session).window =
      s.window ++ data := by
  have hlen : s.wireBufEndIdx + data.length - s.wireBufStartIdx =
      (s.wireBufEndIdx - s.wireBufStartIdx) + data.length := by
    have := hwf.1
    omega
  simp only [window, uvReadInto]
  rw [hlen, bytes_add]
  congr 1
  · -- the window's own bytes are left as they were
    refine List.map_congr_left fun i hi => if_neg fun h => ?_
    have := List.mem_range.1 hi
    omega
  · refine List.ext_getElem (by simp) fun i h₁ h₂ => ?_
    rw [getElem_bytes]
    rw [length_bytes] at h₁
    have hi : s.wireBufStartIdx + (s.wireBufEndIdx - s.wireBufStartIdx) + i - s.wireBufEndIdx = i := by
      have := hwf.1
      omega
    dsimp only
    rw [if_pos (by omega), hi, List.getD_eq_getElem]

theorem sessionWirebufConsume_uvReadInto {s : Session} (hwf : s.Wf) {data : List UInt8}
    (hfree : data.length ≤ sessionWirebufGetFreeSize s) :
    sessionWirebufConsume (uvReadInto s data) data.length =
      .ok { uvReadInto s data with wireBufEndIdx := s.wireBufEndIdx + data.length } := by
  have := hwf.2
  unfold sessionWirebufGetFreeSize at hfree
  unfold sessionWirebufConsume
  rw [if_neg (by omega), if_neg (by simp only [uvReadInto, Int.toNat_natCast]; omega)]
  simp only [Int.toNat_natCast]
  rfl

/-- An empty read (`nread == 0`) does nothing. -/
theorem tcpRecv_nil (accepted : List UInt8 → Bool) (s : Session) : tcpRecv accepted s [] = (s, []) := by
  unfold tcpRecv
  split_ifs with hc hz
  · rfl
  · rfl
  · exact absurd rfl hz

/-- What `tcp_recv` does with a read that fits, on an open connection. -/
theorem tcpRecv_eq {accepted : List UInt8 → Bool} {s : Session} {data : List UInt8} (hwf : s.Wf)
    (hopen : s.closing = false) (hne : data ≠ []) (hfree : data.length ≤ sessionWirebufGetFreeSize s) :
    tcpRecv accepted s data =
      let p := sessionWirebufProcess accepted
        { uvReadInto s data with wireBufEndIdx := s.wireBufEndIdx + data.length }
      (sessionWirebufCompress (if p.2.1 < 0 then workerEndTcp p.1 else p.1), p.2.2) := by
  unfold tcpRecv
  rw [if_neg (by rw [hopen]; decide), if_neg (by rwa [List.length_eq_zero_iff])]
  dsimp only
  rw [sessionWirebufConsume_uvReadInto hwf hfree]

theorem tcpRecvRun_cons {accepted : List UInt8 → Bool} {s : Session} {data : List UInt8}
    {reads : List (List UInt8)} (hfree : data.length ≤ sessionWirebufGetFreeSize s) :
    tcpRecvRun accepted s (data :: reads) =
      (tcpRecvRun accepted (tcpRecv accepted s data).1 reads).map
        fun r => (r.1, (tcpRecv accepted s data).2 ++ r.2) := by
  rw [tcpRecvRun, if_pos hfree]

/-! ## Between two reads -/

/-- The session between two reads of the stream of frames `fs`, of which `u` is still to come:
an open connection with no error, its window at the start of the buffer and the front of the
frames not submitted yet. -/
structure Between (s : Session) (u : List UInt8) (fs : List (List UInt8)) : Prop where
  wf : s.Wf
  tcp : s.handle = some .tcp
  noError : s.wirebufError = false
  notClosing : s.closing = false
  start : s.wireBufStartIdx = 0
  sizePos : 0 < s.wireBufSize
  framed : FramedWindow s u fs
  fits : ∀ f ∈ fs, FrameFits s.wireBufSize f

theorem between_sessionNew (buf : Nat → UInt8) {fs : List (List UInt8)} {u : List UInt8}
    (hu : u = List.framed knotWireWriteU16 fs) (hfits : ∀ f ∈ fs, FrameFits knotWireMaxPktsize f) :
    Between (sessionNew buf) u fs :=
  ⟨⟨Nat.le_refl 0, Nat.zero_le _⟩, rfl, rfl, rfl, rfl, (by decide : 0 < knotWireMaxPktsize),
    by rw [FramedWindow, ← hu]; rfl, hfits⟩

/-- A full buffer holds a frame that can be produced: the stream cannot stop there. -/
theorem Between.free_pos_or_produce {s : Session} {u : List UInt8} {fs : List (List UInt8)}
    (hb : Between s u fs) :
    0 < sessionWirebufGetFreeSize s ∨ ∃ f, (sessionProducePacket s).2 = some f := by
  unfold sessionWirebufGetFreeSize
  by_cases hfull : s.wireBufEndIdx < s.wireBufSize
  · exact .inl (by omega)
  refine .inr ?_
  have hsize := hb.sizePos
  have hlen : s.window.length = s.wireBufSize := by
    have := hb.wf.2
    rw [length_window, hb.start]
    omega
  cases fs with
  | nil =>
    rw [List.eq_nil_of_append_eq_framed_nil hb.framed, List.length_nil] at hlen
    omega
  | cons f fs =>
    obtain ⟨hpos, hmax, hfit⟩ := hb.fits f List.mem_cons_self
    rcases List.framed_cons_split hb.framed with ⟨hlt, -⟩ | ⟨w', hw', -⟩
    · simp only [List.length_append, knotWireWriteU16, List.length_cons, List.length_nil] at hlt
      omega
    · exact ⟨f, by rw [sessionProducePacket_complete hb.wf hb.tcp hw' hpos hmax hfit]⟩

/-- One call of `tcp_recv` on a read that fits: the next frames submitted in order, and the
session between reads again, with every complete frame submitted unless `max_iterations` of them
were accepted. -/
theorem tcpRecv_between (accepted : List UInt8 → Bool) {s : Session} {data u : List UInt8}
    {fs : List (List UInt8)} (hb : Between s (data ++ u) fs) (hne : data ≠ [])
    (hfree : data.length ≤ sessionWirebufGetFreeSize s) :
    ∃ k, (tcpRecv accepted s data).2 = fs.take k ∧ Between (tcpRecv accepted s data).1 u (fs.drop k) ∧
      (NoCompleteFrame (tcpRecv accepted s data).1.window (fs.drop k) ∨
        (s.window.length + data.length) / (knotWireHeaderSize + knotWireQuestionMinSize) + 1 ≤
          ((fs.take k).filter accepted).length) := by
  rw [tcpRecv_eq hb.wf hb.notClosing hne hfree]
  dsimp only
  -- the session once the read joined the window
  let s₁ : Session := { uvReadInto s data with wireBufEndIdx := s.wireBufEndIdx + data.length }
  have hwin₁ : s₁.window = s.window ++ data := window_uvReadInto hb.wf data
  have hwf₁ : s₁.Wf := by
    have := hb.wf.1
    have := hb.wf.2
    unfold sessionWirebufGetFreeSize at hfree
    exact ⟨by dsimp only [s₁, uvReadInto]; omega, by dsimp only [s₁, uvReadInto]; omega⟩
  have hframed₁ : FramedWindow s₁ u fs := by
    unfold FramedWindow
    rw [hwin₁, List.append_assoc]
    exact hb.framed
  obtain ⟨k, hlog, hret, hwin', hwf', herr', hframe', hstop⟩ :=
    sessionWirebufProcess_framed accepted u hwf₁ hb.tcp hb.noError hframed₁ hb.fits
  have hpos : ¬ (sessionWirebufProcess accepted s₁).2.1 < 0 := by
    rw [hret]
    omega
  change ∃ k, (sessionWirebufProcess accepted s₁).2.2 = fs.take k ∧
    Between (sessionWirebufCompress (if (sessionWirebufProcess accepted s₁).2.1 < 0 then
      workerEndTcp (sessionWirebufProcess accepted s₁).1 else (sessionWirebufProcess accepted s₁).1))
      u (fs.drop k) ∧ _
  rw [if_neg hpos]
  have hframe := hframe'.trans (sessionWirebufCompress_frame _)
  refine ⟨k, hlog, ⟨hwf'.compress, ?_, ?_, ?_, sessionWirebufCompress_start _, ?_, ?_, ?_⟩, ?_⟩
  · exact hframe.handle.trans hb.tcp
  · rw [sessionWirebufCompress_error]
    exact herr'
  · exact hframe.closing.trans hb.notClosing
  · rw [hframe.size]
    exact hb.sizePos
  · unfold FramedWindow
    rw [sessionWirebufCompress_window]
    exact hwin'
  · intro f hf
    rw [hframe.size]
    exact hb.fits f (List.mem_of_mem_drop hf)
  · rw [sessionWirebufCompress_window, ← List.length_append, ← hwin₁]
    exact hstop

/-- The run rule: what each call on a read that fits keeps, of the session, the stream still to
come and the frames not submitted, while it submits the next frames, holds after every run of
reads that fit, the frames submitted being the first ones of the stream. -/
theorem tcpRecvRun_inv (accepted : List UInt8 → Bool) (I : Session → List UInt8 → List (List UInt8) → Prop)
    (hstep : ∀ s data u fs, I s (data ++ u) fs → data.length ≤ sessionWirebufGetFreeSize s →
      ∃ k, (tcpRecv accepted s data).2 = fs.take k ∧ I (tcpRecv accepted s data).1 u (fs.drop k)) :
    ∀ (reads : List (List UInt8)) (s : Session) (u : List UInt8) (fs : List (List UInt8))
      (r : Session × List (List UInt8)),
      I s (reads.flatten ++ u) fs → tcpRecvRun accepted s reads = some r →
      ∃ k, r.2 = fs.take k ∧ I r.1 u (fs.drop k)
  | [], s, u, fs, r, hi, hrun => by
    cases hrun
    exact ⟨0, rfl, by simpa using hi⟩
  | data :: reads, s, u, fs, r, hi, hrun => by
    by_cases hfree : data.length ≤ sessionWirebufGetFreeSize s
    · rw [tcpRecvRun_cons hfree] at hrun
      obtain ⟨r', hrun', rfl⟩ := Option.map_eq_some_iff.1 hrun
      rw [List.flatten_cons, List.append_assoc] at hi
      obtain ⟨k, hlog, hi'⟩ := hstep s data _ fs hi hfree
      obtain ⟨j, hlog', hi''⟩ := tcpRecvRun_inv accepted I hstep reads _ u _ r' hi' hrun'
      refine ⟨k + j, ?_, ?_⟩
      · dsimp only
        rw [hlog, hlog', List.take_add]
      · rw [← List.drop_drop]
        exact hi''
    · rw [tcpRecvRun, if_neg hfree] at hrun
      cases hrun

theorem tcpRecv_step_between (accepted : List UInt8 → Bool) (s : Session) (data u : List UInt8)
    (fs : List (List UInt8)) (hb : Between s (data ++ u) fs)
    (hfree : data.length ≤ sessionWirebufGetFreeSize s) :
    ∃ k, (tcpRecv accepted s data).2 = fs.take k ∧ Between (tcpRecv accepted s data).1 u (fs.drop k) := by
  by_cases hne : data = []
  · subst hne
    rw [tcpRecv_nil]
    exact ⟨0, rfl, by simpa using hb⟩
  · obtain ⟨k, hlog, hb', -⟩ := tcpRecv_between accepted hb hne hfree
    exact ⟨k, hlog, hb'⟩

/-- Between reads of messages of at least a header and a minimal question, no frame is left
complete in the buffer. -/
theorem tcpRecv_step_all (accepted : List UInt8 → Bool) (s : Session) (data u : List UInt8)
    (fs : List (List UInt8))
    (hi : Between s (data ++ u) fs ∧ NoCompleteFrame s.window fs ∧
      ∀ f ∈ fs, knotWireHeaderSize + knotWireQuestionMinSize ≤ f.length + 2)
    (hfree : data.length ≤ sessionWirebufGetFreeSize s) :
    ∃ k, (tcpRecv accepted s data).2 = fs.take k ∧
      (Between (tcpRecv accepted s data).1 u (fs.drop k) ∧
        NoCompleteFrame (tcpRecv accepted s data).1.window (fs.drop k) ∧
        ∀ f ∈ fs.drop k, knotWireHeaderSize + knotWireQuestionMinSize ≤ f.length + 2) := by
  obtain ⟨hb, hnc, hbig⟩ := hi
  have hbig' : ∀ k, ∀ f ∈ fs.drop k, knotWireHeaderSize + knotWireQuestionMinSize ≤ f.length + 2 :=
    fun k f hf => hbig f (List.mem_of_mem_drop hf)
  by_cases hne : data = []
  · subst hne
    rw [tcpRecv_nil]
    exact ⟨0, rfl, by simpa using hb, by simpa using hnc, hbig' 0⟩
  · obtain ⟨k, hlog, hb', hstop⟩ := tcpRecv_between accepted hb hne hfree
    refine ⟨k, hlog, hb', hstop.resolve_right fun hcap => ?_, hbig' k⟩
    -- the window after the read held every frame submitted
    have hwin : (s.window ++ data) ++ u = List.framed knotWireWriteU16 fs := by
      rw [List.append_assoc]
      exact hb.framed
    have hlt := count_lt_maxIterations accepted u hwin hb'.framed hbig
    rw [List.length_append] at hlt
    omega

theorem drop_eq_drop_of_take_eq {α : Type} {l : List α} {m n : Nat} (h : l.take m = l.take n) :
    l.drop m = l.drop n := by
  have hl := (List.take_append_drop m l).trans (List.take_append_drop n l).symm
  rw [h] at hl
  exact List.append_cancel_left hl

/-- Reading a stream of frames that fit the buffer into a new session, in any reads that fit:
the packets submitted are the first frames of the stream, in order and each whole, the session
is between reads, and a full buffer holds a frame to produce. When every message is at least a
header and a minimal question, no complete frame is left in the buffer, and once the stream is
read whole every frame has been submitted. -/
theorem tcpRecvRun_frames (accepted : List UInt8 → Bool) (buf : Nat → UInt8) (fs : List (List UInt8))
    (hfits : ∀ f ∈ fs, FrameFits knotWireMaxPktsize f) (reads : List (List UInt8)) (u : List UInt8)
    (hstream : reads.flatten ++ u = List.framed knotWireWriteU16 fs) {r : Session × List (List UInt8)}
    (hrun : tcpRecvRun accepted (sessionNew buf) reads = some r) :
    ∃ k, r.2 = fs.take k ∧ Between r.1 u (fs.drop k) ∧
      (0 < sessionWirebufGetFreeSize r.1 ∨ ∃ f, (sessionProducePacket r.1).2 = some f) ∧
      ((∀ f ∈ fs, knotWireHeaderSize + knotWireQuestionMinSize ≤ f.length + 2) →
        NoCompleteFrame r.1.window (fs.drop k) ∧ (u = [] → r.2 = fs)) := by
  have hb₀ := between_sessionNew buf hstream hfits
  obtain ⟨k, hlog, hb⟩ :=
    tcpRecvRun_inv accepted Between (tcpRecv_step_between accepted) reads _ u fs r hb₀ hrun
  refine ⟨k, hlog, hb, hb.free_pos_or_produce, fun hbig => ?_⟩
  have hnc₀ : NoCompleteFrame (sessionNew buf).window fs := fun _ _ => Nat.succ_pos _
  obtain ⟨k', hlog', -, hnc, -⟩ := tcpRecvRun_inv accepted
    (fun s u fs => Between s u fs ∧ NoCompleteFrame s.window fs ∧
      ∀ f ∈ fs, knotWireHeaderSize + knotWireQuestionMinSize ≤ f.length + 2)
    (tcpRecv_step_all accepted) reads _ u fs r ⟨hb₀, hnc₀, hbig⟩ hrun
  have hdrop : fs.drop k = fs.drop k' := drop_eq_drop_of_take_eq (hlog.symm.trans hlog')
  refine ⟨hdrop ▸ hnc, fun hu => ?_⟩
  -- with the whole stream read, the window holds all the frames left, and none is complete
  subst hu
  have hwin : r.1.window = List.framed knotWireWriteU16 (fs.drop k) := by
    have h := hb.framed
    unfold FramedWindow at h
    rwa [List.append_nil] at h
  cases hrest : fs.drop k with
  | nil => rw [hlog, ← List.take_append_drop k fs, hrest, List.append_nil, List.take_take, Nat.min_self]
  | cons g gs =>
    have hg := hdrop ▸ hnc
    rw [hrest] at hg hwin
    have := hg g rfl
    rw [hwin, List.framed_cons, List.length_append, List.length_append] at this
    simp only [knotWireWriteU16, List.length_cons, List.length_nil] at this
    omega

/-- A message of three bytes, its frame cut in two reads. -/
def splitFrame : List UInt8 := [1, 2, 3]

def splitReads : List (List UInt8) := [[0, 3, 1], [2, 3]]

theorem tcpRecvRun_frames_splitReads :
    (∀ f ∈ [splitFrame], FrameFits knotWireMaxPktsize f) ∧
      splitReads.flatten ++ [] = List.framed knotWireWriteU16 [splitFrame] ∧
      ∃ r, tcpRecvRun (fun _ => true) (sessionNew fun _ => 0) splitReads = some r ∧
        ∃ k, r.2 = [splitFrame].take k ∧ Between r.1 [] ([splitFrame].drop k) ∧
          (0 < sessionWirebufGetFreeSize r.1 ∨ ∃ f, (sessionProducePacket r.1).2 = some f) ∧
          ((∀ f ∈ [splitFrame], knotWireHeaderSize + knotWireQuestionMinSize ≤ f.length + 2) →
            NoCompleteFrame r.1.window ([splitFrame].drop k) ∧ (([] : List UInt8) = [] → r.2 = [splitFrame])) :=
  ⟨by decide, by decide, _, rfl,
    tcpRecvRun_frames (fun _ => true) (fun _ => 0) [splitFrame] (by decide) splitReads [] (by decide) rfl⟩

/-! ## Frames the buffer cannot take, and short messages -/

/-- A message of 65534 bytes: its frame is one byte longer than the buffer. -/
def oversizedFrame : List UInt8 := List.replicate 65534 0

/-- The first read of its frame, which fills the free space of a new session. -/
def oversizedRead : List UInt8 := (List.framed knotWireWriteU16 [oversizedFrame]).take knotWireMaxPktsize

theorem length_oversizedFrame : oversizedFrame.length = 65534 := List.length_replicate

theorem length_oversizedRead : oversizedRead.length = 65535 := by
  rw [oversizedRead, List.length_take, List.framed_cons, List.framed_nil, List.append_nil,
    List.length_append, length_oversizedFrame]
  rfl

/-- After the first read of the frame of `oversizedFrame`, the buffer is full, no error is
flagged and no message can be produced: the connection stalls and the message is never
submitted. -/
theorem tcpRecv_oversizedRead_stalls (accepted : List UInt8 → Bool) (buf : Nat → UInt8) :
    oversizedRead.length ≤ sessionWirebufGetFreeSize (sessionNew buf) ∧
      sessionWirebufGetFreeSize (tcpRecv accepted (sessionNew buf) oversizedRead).1 = 0 ∧
      (tcpRecv accepted (sessionNew buf) oversizedRead).1.wirebufError = false ∧
      (tcpRecv accepted (sessionNew buf) oversizedRead).1.closing = false ∧
      (sessionProducePacket (tcpRecv accepted (sessionNew buf) oversizedRead).1).2 = none ∧
      (tcpRecv accepted (sessionNew buf) oversizedRead).2 = [] := by
  have hlen := length_oversizedRead
  have hwf : (sessionNew buf).Wf := ⟨Nat.le_refl 0, Nat.zero_le _⟩
  have hfree : oversizedRead.length ≤ sessionWirebufGetFreeSize (sessionNew buf) := by
    rw [hlen]
    exact Nat.le_refl _
  have hne : oversizedRead ≠ [] := List.ne_nil_of_length_pos (by rw [hlen]; decide)
  -- the session once the read joined the empty window
  obtain ⟨s₁, hs₁⟩ : ∃ s₁ : Session, { uvReadInto (sessionNew buf) oversizedRead with
      wireBufEndIdx := (sessionNew buf).wireBufEndIdx + oversizedRead.length } = s₁ := ⟨_, rfl⟩
  have hwin₁ : s₁.window = oversizedRead := by
    rw [← hs₁, window_uvReadInto hwf oversizedRead]
    rfl
  have hend₁ : s₁.wireBufEndIdx = 65535 := by
    rw [← hs₁]
    show 0 + oversizedRead.length = 65535
    rw [hlen]
  have hstart₁ : s₁.wireBufStartIdx = 0 := by rw [← hs₁]; rfl
  have hsize₁ : s₁.wireBufSize = 65535 := by rw [← hs₁]; rfl
  have htcp₁ : s₁.handle = some .tcp := by rw [← hs₁]; rfl
  have hwf₁ : s₁.Wf := ⟨by rw [hstart₁]; exact Nat.zero_le _, Nat.le_of_eq (hend₁.trans hsize₁.symm)⟩
  -- the frame's header says 65534, less than the buffer, and the frame is not complete
  have hincomplete : ∀ s : Session, s.Wf → s.handle = some .tcp → s.wireBufSize = 65535 →
      s.window = oversizedRead → sessionProducePacket s = ({ s with wirebufError := false }, none) := by
    intro s hwf htcp hsize hwin
    have hpre : s.window <+: knotWireWriteU16 oversizedFrame.length ++ oversizedFrame := by
      rw [hwin, oversizedRead, List.framed_cons, List.framed_nil, List.append_nil]
      exact List.take_prefix _ _
    refine sessionProducePacket_incomplete hwf htcp hpre (by rw [hwin]; exact hne) ?_ ?_ ?_
    · rw [hwin, hlen, length_oversizedFrame]
      decide
    · rw [length_oversizedFrame]
      decide
    · rw [hsize, length_oversizedFrame]
      decide
  have hprod₁ := hincomplete s₁ hwf₁ htcp₁ hsize₁ hwin₁
  have hse : s₁.wireBufStartIdx ≠ s₁.wireBufEndIdx := by
    rw [hend₁, hstart₁]
    decide
  have hrecv : tcpRecv accepted (sessionNew buf) oversizedRead = ({ s₁ with wirebufError := false }, []) := by
    rw [tcpRecv_eq hwf rfl hne hfree, hs₁, sessionWirebufProcess_of_ne accepted hse]
    dsimp only
    rw [sessionWirebufProcessLoop_of_none accepted _ hprod₁]
    dsimp only
    have hret : ¬ ((0 : Nat) : Int) < 0 := by omega
    rw [if_neg Bool.false_ne_true, if_neg hret, sessionWirebufCompress, if_pos hstart₁]
  have hclosing₁ : s₁.closing = false := by rw [← hs₁]; rfl
  rw [hrecv]
  refine ⟨hfree, ?_, rfl, hclosing₁, ?_, rfl⟩
  · show s₁.wireBufSize - s₁.wireBufEndIdx = 0
    rw [hend₁, hsize₁]
  · show (sessionProducePacket { s₁ with wirebufError := false }).2 = none
    rw [hincomplete { s₁ with wirebufError := false } hwf₁ htcp₁ hsize₁ ((window_setError s₁ false).trans hwin₁)]

/-- The stall with a worker that takes every message, in a buffer of zeros. -/
theorem oversized_frame_stalls :
    oversizedRead.length ≤ sessionWirebufGetFreeSize (sessionNew fun _ => 0) ∧
      sessionWirebufGetFreeSize
        (tcpRecv (fun _ => true) (sessionNew fun _ => 0) oversizedRead).1 = 0 ∧
      (tcpRecv (fun _ => true) (sessionNew fun _ => 0) oversizedRead).1.wirebufError = false ∧
      (tcpRecv (fun _ => true) (sessionNew fun _ => 0) oversizedRead).1.closing = false ∧
      (sessionProducePacket
        (tcpRecv (fun _ => true) (sessionNew fun _ => 0) oversizedRead).1).2 = none ∧
      (tcpRecv (fun _ => true) (sessionNew fun _ => 0) oversizedRead).2 = [] :=
  tcpRecv_oversizedRead_stalls _ _

/-- A message of a bare header, which `knot_pkt_parse` accepts. -/
def headerFrame : List UInt8 := List.replicate 12 0

/-- Six of them, read at once into a new session: `max_iterations` is 84 / 17 + 1 = 5, and the
sixth is left complete in the buffer, although the whole stream was read. -/
example :
    (tcpRecv (fun _ => true) (sessionNew fun _ => 0)
        (List.framed knotWireWriteU16 (List.replicate 6 headerFrame))).2 = List.replicate 5 headerFrame ∧
      (sessionProducePacket (tcpRecv (fun _ => true) (sessionNew fun _ => 0)
        (List.framed knotWireWriteU16 (List.replicate 6 headerFrame))).1).2 = some headerFrame := by
  decide +kernel

end KnotResolver.Daemon
