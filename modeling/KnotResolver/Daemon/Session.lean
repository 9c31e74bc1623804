import KnotResolver.Rrset
import KnotResolver.Framing

/-!
# The wire buffer of a session (`daemon/session.c`)

A session reads a stream into its wire buffer: the bytes from `wire_buf_start_idx` to
`wire_buf_end_idx` have arrived and are not processed yet (the window). On TCP each DNS message
is a frame, a two-byte big-endian length and the message. `session_produce_packet` takes the
first message of the window when it is complete, `session_discard_packet` drops it, and
`session_wirebuf_compress` moves the window to the start of the buffer.
`session_wirebuf_process` hands each message to the worker, at most `max_iterations` accepted
ones a call.

Every function keeps `start ≤ end ≤ size` (`Session.Wf`). On a window that is the front of a
stream of frames, a produced packet is the first frame exactly, and discarding it leaves the
front of the remaining frames (`sessionProducePacket_complete`, `sessionDiscardPacket_complete`).
`session_wirebuf_process` then submits the frames in order (`sessionWirebufProcess_framed`), and
it stops at `max_iterations` only on messages shorter than a header and a minimal question
(`count_lt_maxIterations`).
-/

namespace KnotResolver.Daemon

/-- The libuv handle type of a session. -/
inductive HandleType where
  | tcp
  | udp
  deriving DecidableEq, Repr

/-- `KNOT_WIRE_HEADER_SIZE`. -/
def knotWireHeaderSize : Nat := 12

/-- `KNOT_WIRE_QUESTION_MIN_SIZE`: the root name and the type and class. -/
def knotWireQuestionMinSize : Nat := 5

/-- `knot_wire_read_u16`: two bytes in network order. -/
def knotWireReadU16 (hi lo : UInt8) : Nat := hi.toNat * 256 + lo.toNat

/-- `knot_wire_write_u16`: the two bytes of `n < 2^16` in network order. -/
def knotWireWriteU16 (n : Nat) : List UInt8 := [(n / 256).toUInt8, n.toUInt8]

theorem knotWireReadU16_write {n : Nat} (hn : n < 65536) :
    knotWireReadU16 ((n / 256).toUInt8) n.toUInt8 = n := by
  simp only [knotWireReadU16, Nat.toUInt8, UInt8.toNat_ofNat']
  omega

/-- The part of `struct session` the wire buffer functions use. -/
structure Session where
  handle : Option HandleType
  wireBuf : Nat → UInt8
  wireBufSize : Nat
  wireBufStartIdx : Nat
  wireBufEndIdx : Nat
  wirebufError : Bool
  closing : Bool

namespace Session

/-- The indices stay within the buffer. -/
def Wf (s : Session) : Prop := s.wireBufStartIdx ≤ s.wireBufEndIdx ∧ s.wireBufEndIdx ≤ s.wireBufSize

/-- `len` bytes of the buffer from `off`. -/
def bytes (s : Session) (off len : Nat) : List UInt8 := (List.range len).map fun i => s.wireBuf (off + i)

/-- What has arrived and is not processed yet. -/
def window (s : Session) : List UInt8 := s.bytes s.wireBufStartIdx (s.wireBufEndIdx - s.wireBufStartIdx)

@[simp] theorem length_bytes (s : Session) (off len : Nat) : (s.bytes off len).length = len := by
  simp [bytes]

theorem bytes_add (s : Session) (off m n : Nat) :
    s.bytes off (m + n) = s.bytes off m ++ s.bytes (off + m) n := by
  simp only [bytes, List.range_add, List.map_append, List.map_map]
  congr 1
  exact List.map_congr_left fun i _ => by simp only [Function.comp, Nat.add_assoc]

theorem getElem_bytes (s : Session) (off len i : Nat) (hi : i < (s.bytes off len).length) :
    (s.bytes off len)[i] = s.wireBuf (off + i) := by
  simp [bytes]

@[simp] theorem length_window (s : Session) :
    s.window.length = s.wireBufEndIdx - s.wireBufStartIdx := by
  simp [window]

theorem bytes_two (s : Session) (off : Nat) : s.bytes off 2 = [s.wireBuf off, s.wireBuf (off + 1)] := by
  simp [bytes, List.range_succ]

/-- The bytes of a window split as the window does. -/
theorem window_eq_append {s : Session} {a b : List UInt8} (h : s.window = a ++ b) :
    s.bytes s.wireBufStartIdx a.length = a ∧ s.bytes (s.wireBufStartIdx + a.length) b.length = b := by
  have hlen : s.wireBufEndIdx - s.wireBufStartIdx = a.length + b.length := by
    rw [← length_window, h, List.length_append]
  unfold window at h
  rw [hlen, bytes_add] at h
  exact List.append_inj h (length_bytes _ _ _)

/-- Moving the start forward drops the front of the window. -/
theorem window_advance (s : Session) {n : Nat} (hn : n ≤ s.wireBufEndIdx - s.wireBufStartIdx) :
    ({ s with wireBufStartIdx := s.wireBufStartIdx + n } : Session).window = s.window.drop n := by
  have hsplit : s.wireBufEndIdx - s.wireBufStartIdx =
      n + (s.wireBufEndIdx - (s.wireBufStartIdx + n)) := by omega
  unfold window
  rw [hsplit, bytes_add, List.drop_left' (length_bytes _ _ _)]
  rfl

theorem window_setError (s : Session) (e : Bool) : ({ s with wirebufError := e } : Session).window = s.window :=
  rfl

theorem window_eq_nil {s : Session} (hwf : s.Wf) (h : s.window = []) :
    s.wireBufStartIdx = s.wireBufEndIdx := by
  have := congrArg List.length h
  rw [length_window, List.length_nil] at this
  exact Nat.le_antisymm hwf.1 (by omega)

/-- What the wire buffer functions leave alone. -/
structure Frame (s s' : Session) : Prop where
  handle : s'.handle = s.handle
  size : s'.wireBufSize = s.wireBufSize
  closing : s'.closing = s.closing

theorem Frame.refl (s : Session) : Frame s s := ⟨rfl, rfl, rfl⟩

theorem Frame.trans {s₁ s₂ s₃ : Session} (h₁ : Frame s₁ s₂) (h₂ : Frame s₂ s₃) : Frame s₁ s₃ :=
  ⟨h₂.handle.trans h₁.handle, h₂.size.trans h₁.size, h₂.closing.trans h₁.closing⟩

end Session

open Session

/-- `KNOT_WIRE_MAX_PKTSIZE`. -/
def knotWireMaxPktsize : Nat := 65535

/-- `session_new` for a TCP handle without TLS: the wire buffer `buf` that `malloc` gave, of
`KNOT_WIRE_MAX_PKTSIZE` bytes, and the indices and flags that `calloc` zeroed. -/
def sessionNew (buf : Nat → UInt8) : Session := ⟨some .tcp, buf, knotWireMaxPktsize, 0, 0, false, false⟩

/-- `session_wirebuf_get_free_size`. -/
def sessionWirebufGetFreeSize (s : Session) : Nat := s.wireBufSize - s.wireBufEndIdx

/-- `session_wirebuf_consume`: `len` bytes read into the free space join the window. -/
def sessionWirebufConsume (s : Session) (len : Int) : Except Int Session :=
  if len < 0 then .error (krError EINVAL)
  else if s.wireBufEndIdx + len.toNat > s.wireBufSize then .error (krError EINVAL)
  else .ok { s with wireBufEndIdx := s.wireBufEndIdx + len.toNat }

/-- `session_produce_packet`: the first message of the window (its bytes, which the packet points
to), and the session with the error flag set or cleared. -/
def sessionProducePacket (s : Session) : Session × Option (List UInt8) :=
  let s := { s with wirebufError := false }
  if s.wireBufEndIdx = 0 then (s, none)
  else if s.wireBufStartIdx = s.wireBufEndIdx then
    ({ s with wireBufStartIdx := 0, wireBufEndIdx := 0 }, none)
  else if s.wireBufStartIdx > s.wireBufEndIdx then
    ({ s with wirebufError := true, wireBufStartIdx := 0, wireBufEndIdx := 0 }, none)
  else
    let dataSize := s.wireBufEndIdx - s.wireBufStartIdx
    match s.handle with
    | none => ({ s with wirebufError := true }, none)
    | some .tcp =>
      if dataSize < 2 then (s, none)
      else
        let msgSize := knotWireReadU16 (s.wireBuf s.wireBufStartIdx)
          (s.wireBuf (s.wireBufStartIdx + 1))
        if msgSize ≥ s.wireBufSize then ({ s with wirebufError := true }, none)
        else if msgSize + 2 > dataSize then (s, none)
        else if msgSize = 0 then ({ s with wirebufError := true }, none)
        else (s, some (s.bytes (s.wireBufStartIdx + 2) msgSize))
    | some .udp =>
      if dataSize < 65535 then (s, some (s.bytes s.wireBufStartIdx dataSize))
      else ({ s with wirebufError := true }, none)

/-- `session_wirebuf_discard`. -/
def sessionWirebufDiscard (s : Session) : Session := { s with wireBufStartIdx := 0, wireBufEndIdx := 0 }

/-- `session_wirebuf_compress`: the window moved to the start of the buffer (`memmove`). -/
def sessionWirebufCompress (s : Session) : Session :=
  if s.wireBufStartIdx = 0 then s
  else
    let n := s.wireBufEndIdx - s.wireBufStartIdx
    { s with
      wireBuf := fun i => if i < n then s.wireBuf (s.wireBufStartIdx + i) else s.wireBuf i
      wireBufStartIdx := 0
      wireBufEndIdx := n }

/-- `session_discard_packet` for the packet of `pktSize` bytes that `session_produce_packet` took
from the start of the window: the message is dropped, and a window left empty is reset and one
left shorter than a header is compressed. -/
def sessionDiscardPacket (s : Session) (pktSize : Nat) : Session × Int :=
  let dataSize := s.wireBufEndIdx - s.wireBufStartIdx
  let reset (s : Session) : Session := { s with wireBufStartIdx := 0, wireBufEndIdx := 0 }
  let s := { s with wirebufError := true }
  match s.handle with
  | none => (s, krError EINVAL)
  | some h =>
    -- the size of the message in the buffer, as its length field says on TCP
    let msgSize : Option Nat := match h with
      | .tcp =>
        if dataSize < 2 then none
        else
          let m := knotWireReadU16 (s.wireBuf s.wireBufStartIdx) (s.wireBuf (s.wireBufStartIdx + 1))
          if m + 2 > dataSize then none else some m
      | .udp => some dataSize
    match msgSize with
    | none => (reset s, krError EINVAL)
    | some m =>
      if m < pktSize then (reset s, krError EINVAL)
      else
        let s := { s with
          wireBufStartIdx := s.wireBufStartIdx + (if h = .tcp then m + 2 else pktSize)
          wirebufError := false }
        let rest := s.wireBufEndIdx - s.wireBufStartIdx
        if rest = 0 then (sessionWirebufDiscard s, krOk)
        else if rest < knotWireHeaderSize then (sessionWirebufCompress s, krOk)
        else (s, krOk)

/-- The loop of `session_wirebuf_process`: while a packet is produced and fewer than
`maxIterations` were accepted, submit it to the worker and discard it. `accepted` says whether
`worker_submit` takes the packet (returns other than `kr_error(EILSEQ)`); what the worker does
with it is not part of the session. The submitted packets are collected in order. The fuel is
never short: each round drops at least one byte of the window (`sessionWirebufProcess`). -/
def sessionWirebufProcessLoop (accepted : List UInt8 → Bool) (maxIterations : Nat) :
    Nat → Session → Nat → List (List UInt8) → Session × Nat × List (List UInt8)
  | 0, s, ret, log => (s, ret, log)
  | fuel + 1, s, ret, log =>
    match sessionProducePacket s with
    | (s, none) => (s, ret, log)
    | (s, some pkt) =>
      if ret < maxIterations then
        let ret := if accepted pkt then ret + 1 else ret
        match sessionDiscardPacket s pkt.length with
        | (s, code) =>
          if code < 0 then (s, ret, log ++ [pkt])
          else sessionWirebufProcessLoop accepted maxIterations fuel s ret (log ++ [pkt])
      else (s, ret, log)

/-- `session_wirebuf_process`: the packets submitted, and their count or `-1` on an error. -/
def sessionWirebufProcess (accepted : List UInt8 → Bool) (s : Session) :
    Session × Int × List (List UInt8) :=
  if s.wireBufStartIdx = s.wireBufEndIdx then (s, 0, [])
  else
    let dataSize := s.wireBufEndIdx - s.wireBufStartIdx
    let maxIterations := dataSize / (knotWireHeaderSize + knotWireQuestionMinSize) + 1
    match sessionWirebufProcessLoop accepted maxIterations (dataSize + 1) s 0 [] with
    | (s, ret, log) => (s, if s.wirebufError then -1 else ret, log)

/-! ## What each function does to the window -/

section Window

variable {s : Session}

@[simp] theorem sessionWirebufCompress_frame (s : Session) : Frame s (sessionWirebufCompress s) := by
  unfold sessionWirebufCompress
  split
  · exact Frame.refl s
  · exact ⟨rfl, rfl, rfl⟩

theorem sessionWirebufCompress_start (s : Session) : (sessionWirebufCompress s).wireBufStartIdx = 0 := by
  unfold sessionWirebufCompress
  split
  · assumption
  · rfl

theorem sessionWirebufCompress_end (s : Session) :
    (sessionWirebufCompress s).wireBufEndIdx = s.wireBufEndIdx - s.wireBufStartIdx := by
  unfold sessionWirebufCompress
  split
  next h => rw [h, Nat.sub_zero]
  · rfl

theorem sessionWirebufCompress_error (s : Session) :
    (sessionWirebufCompress s).wirebufError = s.wirebufError := by
  unfold sessionWirebufCompress
  split <;> rfl

/-- `memmove` keeps the window's bytes. -/
theorem sessionWirebufCompress_window (s : Session) : (sessionWirebufCompress s).window = s.window := by
  unfold sessionWirebufCompress
  split
  · rfl
  · simp only [window, bytes, Nat.sub_zero, Nat.zero_add]
    exact List.map_congr_left fun i hi => if_pos (List.mem_range.1 hi)

theorem Session.Wf.compress (hwf : s.Wf) : (sessionWirebufCompress s).Wf := by
  have hs := sessionWirebufCompress_start s
  have he := sessionWirebufCompress_end s
  have hz := (sessionWirebufCompress_frame s).size
  have := hwf.2
  refine ⟨?_, ?_⟩ <;> omega

theorem sessionWirebufDiscard_wf (s : Session) : (sessionWirebufDiscard s).Wf := ⟨Nat.le_refl 0, Nat.zero_le _⟩

/-- An empty window produces nothing, and stays empty. -/
theorem sessionProducePacket_of_window_nil (hwf : s.Wf) (h : s.window = []) :
    (sessionProducePacket s).2 = none ∧ (sessionProducePacket s).1.window = [] ∧
      (sessionProducePacket s).1.Wf ∧ (sessionProducePacket s).1.wirebufError = false := by
  have hse := window_eq_nil hwf h
  unfold sessionProducePacket
  dsimp only
  by_cases he : s.wireBufEndIdx = 0
  · rw [if_pos he]
    exact ⟨rfl, h, hwf, rfl⟩
  · rw [if_neg he, if_pos hse]
    exact ⟨rfl, rfl, ⟨Nat.le_refl 0, Nat.zero_le _⟩, rfl⟩

/-- `session_produce_packet` only sets the error flag and may reset the indices. -/
theorem sessionProducePacket_shape (s : Session) :
    ∃ e, (sessionProducePacket s).1 = { s with wirebufError := e } ∨
      (sessionProducePacket s).1 = { s with wirebufError := e, wireBufStartIdx := 0, wireBufEndIdx := 0 } := by
  unfold sessionProducePacket
  dsimp only
  by_cases h0 : s.wireBufEndIdx = 0
  · rw [if_pos h0]
    exact ⟨false, .inl rfl⟩
  rw [if_neg h0]
  by_cases h1 : s.wireBufStartIdx = s.wireBufEndIdx
  · rw [if_pos h1]
    exact ⟨false, .inr rfl⟩
  rw [if_neg h1]
  by_cases h2 : s.wireBufStartIdx > s.wireBufEndIdx
  · rw [if_pos h2]
    exact ⟨true, .inr rfl⟩
  rw [if_neg h2]
  -- past the checks of the indices, only the error flag changes
  rcases hh : s.handle with _ | _ | _
  · exact ⟨true, .inl rfl⟩
  · dsimp only
    split_ifs <;> exact ⟨_, .inl rfl⟩
  · dsimp only
    split_ifs <;> exact ⟨_, .inl rfl⟩

theorem sessionProducePacket_frame (s : Session) : Frame s (sessionProducePacket s).1 := by
  obtain ⟨e, h | h⟩ := sessionProducePacket_shape s <;> rw [h] <;> exact ⟨rfl, rfl, rfl⟩

theorem Session.Wf.produce (hwf : s.Wf) : (sessionProducePacket s).1.Wf := by
  obtain ⟨e, h | h⟩ := sessionProducePacket_shape s <;> rw [h]
  · exact hwf
  · exact ⟨Nat.le_refl 0, Nat.zero_le _⟩

/-- The header of a frame at the front of the window gives the frame's length. -/
theorem msgSize_of_window {f : List UInt8} {rest : List UInt8} (hmax : f.length < 65536)
    (hwin : s.window = knotWireWriteU16 f.length ++ rest) :
    knotWireReadU16 (s.wireBuf s.wireBufStartIdx) (s.wireBuf (s.wireBufStartIdx + 1)) = f.length := by
  have hhdr := (window_eq_append hwin).1
  rw [show (knotWireWriteU16 f.length).length = 2 from rfl, bytes_two] at hhdr
  simp only [knotWireWriteU16, List.cons.injEq, and_true] at hhdr
  rw [hhdr.1, hhdr.2, knotWireReadU16_write hmax]

/-- A complete first frame is produced as it is. -/
theorem sessionProducePacket_complete (hwf : s.Wf) (htcp : s.handle = some .tcp)
    {f rest : List UInt8} (hwin : s.window = knotWireWriteU16 f.length ++ f ++ rest)
    (hpos : 0 < f.length) (hmax : f.length < 65536) (hfit : f.length + 2 ≤ s.wireBufSize) :
    sessionProducePacket s = ({ s with wirebufError := false }, some f) := by
  rw [List.append_assoc] at hwin
  have hmsg := msgSize_of_window hmax hwin
  have hbody : s.bytes (s.wireBufStartIdx + 2) f.length = f := by
    have h2 := (window_eq_append hwin).2
    rw [List.length_append, bytes_add] at h2
    exact (List.append_inj h2 (length_bytes _ _ _)).1
  have hlen : s.wireBufEndIdx - s.wireBufStartIdx = f.length + 2 + rest.length := by
    rw [← length_window, hwin]
    simp only [List.length_append, knotWireWriteU16, List.length_cons, List.length_nil]
    omega
  have hwf1 := hwf.1
  unfold sessionProducePacket
  dsimp only
  rw [if_neg (by omega), if_neg (by omega), if_neg (by omega), htcp]
  dsimp only
  rw [if_neg (by omega), hmsg, if_neg (by omega), if_neg (by omega), if_neg (by omega)]
  exact Prod.ext rfl (congrArg some hbody)

/-- A first frame not complete yet produces nothing. -/
theorem sessionProducePacket_incomplete (hwf : s.Wf) (htcp : s.handle = some .tcp)
    {f : List UInt8} (hpre : s.window <+: knotWireWriteU16 f.length ++ f) (hne : s.window ≠ [])
    (hlt : s.window.length < f.length + 2) (hmax : f.length < 65536)
    (hfit : f.length < s.wireBufSize) :
    sessionProducePacket s = ({ s with wirebufError := false }, none) := by
  have hpos : 0 < s.wireBufEndIdx - s.wireBufStartIdx := by
    rw [← length_window]
    exact List.length_pos_iff.2 hne
  have hwf1 := hwf.1
  unfold sessionProducePacket
  dsimp only
  rw [if_neg (by omega), if_neg (by omega), if_neg (by omega), htcp]
  dsimp only
  by_cases h2 : s.wireBufEndIdx - s.wireBufStartIdx < 2
  · rw [if_pos h2]
  · rw [if_neg h2]
    -- the window holds the whole header
    obtain ⟨t, ht⟩ : knotWireWriteU16 f.length <+: s.window :=
      List.prefix_of_prefix_length_le (List.prefix_append _ _) hpre
        (by rw [length_window]; simp only [knotWireWriteU16, List.length_cons, List.length_nil]; omega)
    have hmsg := msgSize_of_window hmax ht.symm
    rw [length_window] at hlt
    rw [hmsg, if_neg (by omega), if_pos (by omega)]

/-- Discarding a complete first frame leaves the rest of the window. -/
theorem sessionDiscardPacket_complete (hwf : s.Wf) (htcp : s.handle = some .tcp)
    {f rest : List UInt8} (hwin : s.window = knotWireWriteU16 f.length ++ f ++ rest)
    (hmax : f.length < 65536) :
    (sessionDiscardPacket s f.length).2 = krOk ∧ (sessionDiscardPacket s f.length).1.window = rest ∧
      (sessionDiscardPacket s f.length).1.Wf ∧
      (sessionDiscardPacket s f.length).1.wirebufError = false ∧
      Frame s (sessionDiscardPacket s f.length).1 := by
  rw [List.append_assoc] at hwin
  have hmsg := msgSize_of_window hmax hwin
  have hlen : s.wireBufEndIdx - s.wireBufStartIdx = f.length + 2 + rest.length := by
    rw [← length_window, hwin]
    simp only [List.length_append, knotWireWriteU16, List.length_cons, List.length_nil]
    omega
  -- the session once the frame is dropped
  let s' : Session := { s with wireBufStartIdx := s.wireBufStartIdx + (f.length + 2), wirebufError := false }
  have hadv : s'.window = rest := by
    have hn : f.length + 2 ≤ s.wireBufEndIdx - s.wireBufStartIdx := by omega
    have hhdr : (knotWireWriteU16 f.length ++ f).length = f.length + 2 := by
      simp only [List.length_append, knotWireWriteU16, List.length_cons, List.length_nil]
      omega
    rw [show s'.window = ({ s with wireBufStartIdx := s.wireBufStartIdx + (f.length + 2) } :
      Session).window from rfl, window_advance s hn, hwin, ← List.append_assoc]
    exact List.drop_left' hhdr
  have hwf' : s'.Wf := ⟨by dsimp only [s']; omega, hwf.2⟩
  have hdisc : sessionDiscardPacket s f.length =
      if s'.wireBufEndIdx - s'.wireBufStartIdx = 0 then (sessionWirebufDiscard s', krOk)
      else if s'.wireBufEndIdx - s'.wireBufStartIdx < knotWireHeaderSize then
        (sessionWirebufCompress s', krOk)
      else (s', krOk) := by
    unfold sessionDiscardPacket
    dsimp only
    split
    next h => rw [htcp] at h; cases h
    next h hh =>
      rw [htcp] at hh
      cases hh
      dsimp only
      rw [if_neg (by omega), hmsg, if_neg (by omega)]
      dsimp only
      rw [if_neg (Nat.lt_irrefl _), if_pos rfl]
  rw [hdisc]
  split_ifs with h0 h12
  · refine ⟨rfl, ?_, sessionWirebufDiscard_wf _, rfl, ⟨rfl, rfl, rfl⟩⟩
    have : rest.length = 0 := by dsimp only [s'] at h0; omega
    rw [List.length_eq_zero_iff.1 this]
    rfl
  · refine ⟨rfl, ?_, hwf'.compress, ?_, ?_⟩
    · rw [sessionWirebufCompress_window, hadv]
    · rw [sessionWirebufCompress_error]
    · exact (⟨rfl, rfl, rfl⟩ : Frame s s').trans (sessionWirebufCompress_frame _)
  · exact ⟨rfl, hadv, hwf', rfl, ⟨rfl, rfl, rfl⟩⟩

end Window

/-! ## Processing the front of a stream of frames -/

/-- The header and the bounds of a frame of the stream: a nonempty message that two bytes can
count and the buffer can hold with its header. -/
def FrameFits (size : Nat) (f : List UInt8) : Prop := 0 < f.length ∧ f.length < 65536 ∧ f.length + 2 ≤ size

instance (size : Nat) : DecidablePred (FrameFits size) := fun _ => inferInstanceAs (Decidable (_ ∧ _ ∧ _))

/-- No frame of `fs` is complete in the window `w`. -/
def NoCompleteFrame (w : List UInt8) (fs : List (List UInt8)) : Prop := ∀ f ∈ fs.head?, w.length < f.length + 2

/-- The window is the front of the stream of frames `fs`, `u` being still to come. -/
def FramedWindow (s : Session) (u : List UInt8) (fs : List (List UInt8)) : Prop :=
  s.window ++ u = List.framed knotWireWriteU16 fs

theorem sessionProducePacket_eq_none {s : Session} (h : (sessionProducePacket s).2 = none) :
    sessionProducePacket s = ((sessionProducePacket s).1, none) :=
  Prod.ext rfl h

section Loop

variable (accepted : List UInt8 → Bool) (maxIterations : Nat) (u : List UInt8)

/-- A round that produces nothing ends the loop. -/
theorem sessionWirebufProcessLoop_of_none {s s' : Session} {fuel ret : Nat} {log : List (List UInt8)}
    (h : sessionProducePacket s = (s', none)) :
    sessionWirebufProcessLoop accepted maxIterations (fuel + 1) s ret log = (s', ret, log) := by
  rw [sessionWirebufProcessLoop, h]

/-- What the loop of `session_wirebuf_process` leaves of the front of a stream of frames: the
first `k` frames submitted in order, the accepted ones counted, and the front of the others in
the window, with none of them complete unless the count reached `maxIterations`. -/
def LoopOutcome (fs : List (List UInt8)) (s : Session) (ret : Nat) (log : List (List UInt8))
    (r : Session × Nat × List (List UInt8)) : Prop :=
  ∃ k, r.2.2 = log ++ fs.take k ∧ r.2.1 = ret + ((fs.take k).filter accepted).length ∧
    FramedWindow r.1 u (fs.drop k) ∧ r.1.Wf ∧ r.1.wirebufError = false ∧ Frame s r.1 ∧
    (NoCompleteFrame r.1.window (fs.drop k) ∨ maxIterations ≤ r.2.1)

/-- A round that produces nothing ends the loop with nothing submitted. -/
theorem loopOutcome_stop {fs : List (List UInt8)} {s : Session} {ret : Nat}
    {log : List (List UInt8)} {s₁ : Session} (hwin : FramedWindow s₁ u fs) (hwf : s₁.Wf)
    (herr : s₁.wirebufError = false) (hframe : Frame s s₁)
    (hstop : NoCompleteFrame s₁.window fs ∨ maxIterations ≤ ret) :
    LoopOutcome accepted maxIterations u fs s ret log (s₁, ret, log) :=
  ⟨0, by simp, by simp, by simpa using hwin, hwf, herr, hframe, by simpa using hstop⟩

theorem sessionWirebufProcessLoop_framed :
    ∀ (fs : List (List UInt8)) (fuel : Nat) (s : Session) (ret : Nat) (log : List (List UInt8)),
      s.Wf → s.handle = some .tcp → FramedWindow s u fs → (∀ f ∈ fs, FrameFits s.wireBufSize f) →
      s.window.length < fuel →
      LoopOutcome accepted maxIterations u fs s ret log
        (sessionWirebufProcessLoop accepted maxIterations fuel s ret log)
  | _, 0, _, _, _, _, _, _, _, hfuel => absurd hfuel (Nat.not_lt_zero _)
  | [], fuel + 1, s, ret, log, hwf, _, hwin, _, _ => by
    have hnil := List.eq_nil_of_append_eq_framed_nil hwin
    obtain ⟨hnone, hw, hwf', herr⟩ := sessionProducePacket_of_window_nil hwf hnil
    rw [sessionWirebufProcessLoop, sessionProducePacket_eq_none hnone]
    refine loopOutcome_stop accepted maxIterations u ?_ hwf' herr (sessionProducePacket_frame s)
      (.inl fun _ h => nomatch h)
    unfold FramedWindow at hwin ⊢
    rw [hw, ← hwin, hnil]
  | f :: fs, fuel + 1, s, ret, log, hwf, htcp, hwin, hfits, hfuel => by
    obtain ⟨hpos, hmax, hfit⟩ := hfits f List.mem_cons_self
    rcases List.framed_cons_split hwin with ⟨hlt, hpre⟩ | ⟨w', hw', hrest⟩
    · -- the first frame is not complete: nothing is produced
      by_cases hnil : s.window = []
      · obtain ⟨hnone, hw, hwf', herr⟩ := sessionProducePacket_of_window_nil hwf hnil
        rw [sessionWirebufProcessLoop, sessionProducePacket_eq_none hnone]
        refine loopOutcome_stop accepted maxIterations u ?_ hwf' herr (sessionProducePacket_frame s)
          (.inl fun g hg => ?_)
        · unfold FramedWindow at hwin ⊢
          rw [hw, ← hwin, hnil]
        · cases Option.mem_def.1 hg
          rw [hw]
          exact Nat.succ_pos _
      · have hlt' : s.window.length < f.length + 2 := by
          simp only [List.length_append, knotWireWriteU16, List.length_cons, List.length_nil] at hlt
          omega
        rw [sessionWirebufProcessLoop,
          sessionProducePacket_incomplete hwf htcp hpre hnil hlt' hmax (by omega)]
        exact loopOutcome_stop accepted maxIterations u hwin hwf rfl ⟨rfl, rfl, rfl⟩
          (.inl fun g hg => by cases Option.mem_def.1 hg; exact hlt')
    · -- the first frame is complete: it is produced as it is
      have hprod := sessionProducePacket_complete hwf htcp hw' hpos hmax hfit
      rw [sessionWirebufProcessLoop, hprod]
      dsimp only
      by_cases hcap : ret < maxIterations
      · rw [if_pos hcap]
        let s₁ : Session := { s with wirebufError := false }
        obtain ⟨hcode, hw₂, hwf₂, herr₂, hframe₂⟩ :=
          sessionDiscardPacket_complete (s := s₁) hwf htcp hw' hmax
        rw [show sessionDiscardPacket { s with wirebufError := false } f.length =
          ((sessionDiscardPacket s₁ f.length).1, krOk) from Prod.ext rfl hcode]
        dsimp only
        rw [if_neg (by decide)]
        have hframe : Frame s (sessionDiscardPacket s₁ f.length).1 :=
          (⟨rfl, rfl, rfl⟩ : Frame s s₁).trans hframe₂
        have hlen : s.window.length = f.length + 2 + w'.length := by
          rw [hw']
          simp only [List.length_append, knotWireWriteU16, List.length_cons, List.length_nil]
          omega
        obtain ⟨k, hlog, hret, hwin', hwf', herr', hframe', hstop⟩ :=
          sessionWirebufProcessLoop_framed fs fuel _ _ (log ++ [f]) hwf₂ (hframe.handle.trans htcp)
            (by unfold FramedWindow; rw [hw₂]; exact hrest)
            (fun g hg => by rw [hframe.size]; exact hfits g (List.mem_cons_of_mem _ hg))
            (by rw [hw₂]; omega)
        refine ⟨k + 1, ?_, ?_, hwin', hwf', herr', hframe.trans hframe', hstop⟩
        · rw [hlog, List.take_succ_cons, List.append_assoc, List.singleton_append]
        · rw [hret, List.take_succ_cons, List.filter_cons]
          cases accepted f
          · simp only [Bool.false_eq_true, ↓reduceIte]
          · simp only [↓reduceIte, List.length_cons]
            omega
      · rw [if_neg hcap]
        exact loopOutcome_stop accepted maxIterations u hwin hwf rfl ⟨rfl, rfl, rfl⟩
          (.inr (Nat.le_of_not_lt hcap))

theorem sessionWirebufProcess_of_ne {s : Session} (h : s.wireBufStartIdx ≠ s.wireBufEndIdx) :
    sessionWirebufProcess accepted s =
      let dataSize := s.wireBufEndIdx - s.wireBufStartIdx
      let r := sessionWirebufProcessLoop accepted
        (dataSize / (knotWireHeaderSize + knotWireQuestionMinSize) + 1) (dataSize + 1) s 0 []
      (r.1, if r.1.wirebufError then (-1 : Int) else (r.2.1 : Int), r.2.2) := by
  rw [sessionWirebufProcess, if_neg h]

/-- `session_wirebuf_process` on the front of a stream of frames: the first `k` frames submitted
in order, the others' front left in the window, no error, and every complete frame submitted
unless `max_iterations` of them were accepted. -/
theorem sessionWirebufProcess_framed {s : Session} {fs : List (List UInt8)} (hwf : s.Wf)
    (htcp : s.handle = some .tcp) (herr : s.wirebufError = false) (hwin : FramedWindow s u fs)
    (hfits : ∀ f ∈ fs, FrameFits s.wireBufSize f) :
    ∃ k, (sessionWirebufProcess accepted s).2.2 = fs.take k ∧
      (sessionWirebufProcess accepted s).2.1 = ((fs.take k).filter accepted).length ∧
      FramedWindow (sessionWirebufProcess accepted s).1 u (fs.drop k) ∧
      (sessionWirebufProcess accepted s).1.Wf ∧
      (sessionWirebufProcess accepted s).1.wirebufError = false ∧
      Frame s (sessionWirebufProcess accepted s).1 ∧
      (NoCompleteFrame (sessionWirebufProcess accepted s).1.window (fs.drop k) ∨
        s.window.length / (knotWireHeaderSize + knotWireQuestionMinSize) + 1 ≤
          ((fs.take k).filter accepted).length) := by
  by_cases hse : s.wireBufStartIdx = s.wireBufEndIdx
  · have hnil : s.window = [] := List.length_eq_zero_iff.1 (by rw [length_window]; omega)
    rw [sessionWirebufProcess, if_pos hse]
    refine ⟨0, rfl, rfl, by simpa using hwin, hwf, herr, Frame.refl s, .inl fun g hg => ?_⟩
    rw [hnil]
    exact Nat.succ_pos _
  · obtain ⟨k, hlog, hret, hwin', hwf', herr', hframe', hstop⟩ :=
      sessionWirebufProcessLoop_framed accepted
        ((s.wireBufEndIdx - s.wireBufStartIdx) / (knotWireHeaderSize + knotWireQuestionMinSize) + 1)
        u fs (s.wireBufEndIdx - s.wireBufStartIdx + 1) s 0 [] hwf htcp hwin hfits
        (by rw [length_window]; omega)
    rw [Nat.zero_add] at hret
    rw [List.nil_append] at hlog
    rw [sessionWirebufProcess_of_ne accepted hse]
    refine ⟨k, hlog, ?_, hwin', hwf', herr', hframe', ?_⟩
    · dsimp only
      rw [herr', hret]
      rfl
    · rw [length_window, ← hret]
      exact hstop

/-- Frames of at least `c` bytes with their headers take `c` bytes each. -/
theorem length_mul_le_length_framed {c : Nat} :
    ∀ {fs : List (List UInt8)}, (∀ f ∈ fs, c ≤ f.length + 2) →
      fs.length * c ≤ (List.framed knotWireWriteU16 fs).length
  | [], _ => by simp
  | f :: fs, h => by
    have ih := length_mul_le_length_framed fun g hg => h g (List.mem_cons_of_mem f hg)
    have hf := h f List.mem_cons_self
    rw [List.framed_cons, List.length_append, List.length_append, List.length_cons, Nat.succ_mul]
    simp only [knotWireWriteU16, List.length_cons, List.length_nil]
    omega

/-- Messages of at least a header and a minimal question take the bytes `max_iterations` counts
for each: of the frames the window `w` held, fewer than `max_iterations` were submitted. -/
theorem count_lt_maxIterations {w w' : List UInt8} {fs : List (List UInt8)} {k : Nat}
    (hwin : w ++ u = List.framed knotWireWriteU16 fs)
    (hwin' : w' ++ u = List.framed knotWireWriteU16 (fs.drop k))
    (hbig : ∀ f ∈ fs, knotWireHeaderSize + knotWireQuestionMinSize ≤ f.length + 2) :
    ((fs.take k).filter accepted).length < w.length / (knotWireHeaderSize + knotWireQuestionMinSize) + 1 := by
  -- the submitted frames are the front of the window
  have hle : (List.framed knotWireWriteU16 (fs.take k)).length ≤ w.length := by
    rw [← List.take_append_drop k fs, List.framed_append, ← hwin', ← List.append_assoc] at hwin
    have := congrArg List.length (List.append_cancel_right hwin)
    rw [List.length_append] at this
    omega
  have hsum : (fs.take k).length * (knotWireHeaderSize + knotWireQuestionMinSize) ≤
      (List.framed knotWireWriteU16 (fs.take k)).length :=
    length_mul_le_length_framed fun f hf => hbig f (List.mem_of_mem_take hf)
  have hcount : ((fs.take k).filter accepted).length ≤ (fs.take k).length := List.length_filter_le _ _
  have h17 : knotWireHeaderSize + knotWireQuestionMinSize = 17 := rfl
  rw [h17] at hsum ⊢
  omega

end Loop

end KnotResolver.Daemon
