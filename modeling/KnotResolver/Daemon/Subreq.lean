import KnotResolver.Resolve.QnameCase

/-!
# Coalesced sub-requests (`daemon/worker.c`, `lib/resolve.c`)

When a task is about to send a query that another task has already sent, it waits on that
task (the leader, `subreq_enqueue`) instead. The leader's answer is shared: at the start of the
leader's `qr_task_step`, `subreq_finalize` walks the waiting list from its end. A waiting task with
a pending query takes over the leader's message ID and 0x20 secret, and the leader's secret is
cleared; then `qr_task_step` runs for the waiting task on the same packet. Afterwards the leader goes
on with its own `qr_task_step`. Every `kr_resolve_consume` that passes its checks de-randomises the
QNAME of the packet in place with the secret of its tail query (`Resolve/QnameCase`).

Only one task, the holder (`secretHolder`), ever applies the secret. This is the last waiting task
with a pending query, or the leader when there is none; every other task sees a zero secret or an
empty plan. The QNAME is therefore de-randomised at most once, and exactly once when the holder
gets through its time checks and the `too_many_open` gate (`qrTaskStepLeader_qname`). A waiting task can be older than its leader, and then it
stops at the resolution time limit with the secret it took over. The leader has lost its own
secret by then, so the response keeps its randomised QNAME.
-/

namespace KnotResolver.Daemon

/-- `KR_RESOLVE_TIME_LIMIT`, in milliseconds. -/
def krResolveTimeLimit : UInt64 := 10000

/-- The part of `struct kr_query` the response path reads. -/
structure Query where
  secret : UInt32
  creationTimeMono : UInt64
  deriving DecidableEq, Repr

/-- The part of `struct qr_task` the response path reads: `tail` is `array_tail` of the
`rplan.pending` of its request, `none` when the plan is empty. -/
structure Task where
  finished : Bool
  creationTime : UInt64
  tail : Option Query
  deriving DecidableEq, Repr

/-- The `too_many_open` gate of `struct worker_ctx`. The counters are `size_t`. -/
structure Worker where
  tooManyOpen : Bool
  rconcurrent : UInt64
  rconcurrentHighwatermark : UInt64
  deriving DecidableEq, Repr

/-- The response: its size and its QNAME, `none` when it has no question (`knot_pkt_qname`). -/
structure Packet where
  size : Nat
  qname : Option (List UInt8)
  deriving DecidableEq, Repr

/-- A task that sent a query other tasks wait for (`task->leading`): `qry` is the tail of its
plan, the query that was sent. -/
structure Leader where
  finished : Bool
  creationTime : UInt64
  qry : Query
  waiting : List Task
  deriving Repr

/-- `resolution_time_exceeded`. -/
def resolutionTimeExceeded (qry : Query) (now : UInt64) : Bool :=
  now - qry.creationTimeMono > krResolveTimeLimit

/-- What `kr_resolve_consume` does to the QNAME of the packet. -/
def krResolveConsume (t : Task) (now : UInt64) (pkt : Packet) : Packet :=
  match t.tail with
  -- an empty plan takes the packet as a new query
  | none => pkt
  | some qry =>
    if resolutionTimeExceeded qry now then pkt
    else if pkt.size = 0 then pkt
    else { pkt with qname := pkt.qname.map (consumeQname qry.secret) }

/-- `qr_task_step` after its `subreq_finalize`, up to and including `kr_resolve_consume`. -/
def qrTaskConsume (now : UInt64) (w : Worker) (t : Task) (pkt : Packet) : Worker × Packet :=
  if now - t.creationTime ≥ krResolveTimeLimit then (w, pkt)
  else if w.tooManyOpen then
    if w.rconcurrent < w.rconcurrentHighwatermark - 10 then
      ({ w with tooManyOpen := false }, krResolveConsume t now pkt)
    else (w, if t.tail.isNone then krResolveConsume t now pkt else pkt)
  else (w, krResolveConsume t now pkt)

/-- `qr_task_step` of a waiting task. It enqueued itself instead of sending, so it is not
leading, and its own `subreq_finalize` only closes its timers. -/
def qrTaskStep (now : UInt64) (w : Worker) (t : Task) (pkt : Packet) : Worker × Packet :=
  if t.finished then (w, pkt) else qrTaskConsume now w t pkt

/-- "Reuse MSGID and 0x20 secret": a waiting task with a pending query takes the leader's
secret, and the leader's is cleared. -/
def reuseSecret (leaderSecret : UInt32) (f : Task) : Task × UInt32 :=
  match f.tail with
  | some qry => ({ f with tail := some { qry with secret := leaderSecret } }, 0)
  | none => (f, leaderSecret)

/-- The loop of `subreq_finalize` over `task->waiting`, from the last task to the first: the state
is the worker, the leader's secret and the packet. -/
def notifyWaiting (now : UInt64) : List Task → Worker × UInt32 × Packet → Worker × UInt32 × Packet
  | [], st => st
  | f :: fs, st =>
    let (w, secret, pkt) := notifyWaiting now fs st
    let (f', secret') := reuseSecret secret f
    let (w', pkt') := qrTaskStep now w f' pkt
    (w', secret', pkt')

/-- `subreq_finalize` of a leader: the worker, the leader's query and the packet after the
waiting tasks have stepped. -/
def subreqFinalize (now : UInt64) (w : Worker) (l : Leader) (pkt : Packet) :
    Worker × Query × Packet :=
  let (w', secret, pkt') := notifyWaiting now l.waiting (w, l.qry.secret, pkt)
  (w', { l.qry with secret := secret }, pkt')

/-- `qr_task_step` of a leader, up to and including its own `kr_resolve_consume`. -/
def qrTaskStepLeader (now : UInt64) (w : Worker) (l : Leader) (pkt : Packet) : Worker × Packet :=
  if l.finished then (w, pkt)
  else
    let (w', qry, pkt') := subreqFinalize now w l pkt
    qrTaskConsume now w' ⟨false, l.creationTime, some qry⟩ pkt'

/-! ## Who de-randomises -/

/-- The `too_many_open` gate lets a task with a pending query through. -/
def Worker.admits (w : Worker) : Bool :=
  !w.tooManyOpen || decide (w.rconcurrent < w.rconcurrentHighwatermark - 10)

/-- The secret of the tail query, zero for an empty plan. -/
def Task.secret (t : Task) : UInt32 :=
  match t.tail with
  | some qry => qry.secret
  | none => 0

/-- A task gets to the de-randomisation of `kr_resolve_consume`: it is not finished, neither it
nor its tail query is past the time limit, the gate admits it and the packet is not empty. -/
def Task.reachesConsume (now : UInt64) (admits : Bool) (size : Nat) (t : Task) : Bool :=
  !t.finished && !decide (now - t.creationTime ≥ krResolveTimeLimit) && admits &&
    match t.tail with
    | some qry => !resolutionTimeExceeded qry now && decide (size ≠ 0)
    | none => false

/-- The waiting task that takes the leader's secret: the last one with a pending query. -/
def secretHolder : List Task → Option Task
  | [] => none
  | f :: fs => (secretHolder fs).or (if f.tail.isSome then some f else none)

/-- The leader as the task that consumes after its waiting tasks. -/
def Leader.task (l : Leader) : Task := ⟨false, l.creationTime, some l.qry⟩

@[simp] theorem consumeQname_zero : consumeQname 0 = id := by
  funext qname
  simp [consumeQname]

theorem Task.reachesConsume_of_tail_none {now : UInt64} {admits : Bool} {size : Nat} {t : Task}
    (ht : t.tail = none) : t.reachesConsume now admits size = false := by
  simp [Task.reachesConsume, ht]

/-- `kr_resolve_consume` de-randomises exactly when its checks pass. -/
theorem krResolveConsume_eq (t : Task) (now : UInt64) (pkt : Packet) :
    krResolveConsume t now pkt =
      if (match t.tail with
          | some qry => !resolutionTimeExceeded qry now && decide (pkt.size ≠ 0)
          | none => false) = true
      then { pkt with qname := pkt.qname.map (consumeQname t.secret) } else pkt := by
  unfold krResolveConsume Task.secret
  rcases t with ⟨_, _, _ | qry⟩
  · rfl
  · by_cases hx : resolutionTimeExceeded qry now <;> by_cases hs : pkt.size = 0 <;> simp [hx, hs]

/-- One task's step: the gate keeps what it admits, and the packet is de-randomised with the
task's secret when the task gets that far. -/
theorem qrTaskStep_admits (now : UInt64) (w : Worker) (t : Task) (pkt : Packet) :
    (qrTaskStep now w t pkt).1.admits = w.admits := by
  unfold qrTaskStep qrTaskConsume
  split_ifs <;> simp_all [Worker.admits]

theorem qrTaskStep_packet (now : UInt64) (w : Worker) (t : Task) (pkt : Packet) :
    (qrTaskStep now w t pkt).2 =
      if t.reachesConsume now w.admits pkt.size
      then { pkt with qname := pkt.qname.map (consumeQname t.secret) } else pkt := by
  unfold qrTaskStep qrTaskConsume Task.reachesConsume Worker.admits
  rw [krResolveConsume_eq]
  by_cases hfin : t.finished
  · simp [hfin]
  by_cases ht : now - t.creationTime ≥ krResolveTimeLimit
  · simp [hfin, ht]
  by_cases hopen : w.tooManyOpen
  · by_cases hcount : w.rconcurrent < w.rconcurrentHighwatermark - 10
    · simp [hfin, ht, hopen, hcount]
    · -- the gate turns the task away; with an empty plan the packet is taken as a new query
      rcases t with ⟨_, _, _ | qry⟩ <;> simp [ht, hopen, hcount]
  · simp [hfin, ht, hopen]

theorem size_qrTaskStep (now : UInt64) (w : Worker) (t : Task) (pkt : Packet) :
    (qrTaskStep now w t pkt).2.size = pkt.size := by
  rw [qrTaskStep_packet]
  split_ifs <;> rfl

theorem reuseSecret_snd (secret : UInt32) (f : Task) :
    (reuseSecret secret f).2 = if f.tail.isSome then 0 else secret := by
  unfold reuseSecret
  split <;> simp_all

/-- A waiting task steps with the secret it took over; it applies it when it gets to
`kr_resolve_consume`. -/
theorem qrTaskStep_reuseSecret (now : UInt64) (w : Worker) (secret : UInt32) (f : Task)
    (pkt : Packet) :
    (qrTaskStep now w (reuseSecret secret f).1 pkt).2 =
      if f.reachesConsume now w.admits pkt.size
      then { pkt with qname := pkt.qname.map (consumeQname secret) } else pkt := by
  rw [qrTaskStep_packet]
  unfold reuseSecret
  split
  · simp_all [Task.reachesConsume, Task.secret, resolutionTimeExceeded]
  · simp [Task.reachesConsume_of_tail_none, *]

/-! ## The loop over the waiting tasks -/

section Notify

variable (now : UInt64) (w : Worker) (secret : UInt32) (pkt : Packet)

theorem notifyWaiting_admits :
    ∀ fs : List Task, (notifyWaiting now fs (w, secret, pkt)).1.admits = w.admits
  | [] => rfl
  | f :: fs => by
    simp only [notifyWaiting]
    rw [qrTaskStep_admits, notifyWaiting_admits fs]

theorem size_notifyWaiting :
    ∀ fs : List Task, (notifyWaiting now fs (w, secret, pkt)).2.2.size = pkt.size
  | [] => rfl
  | f :: fs => by
    simp only [notifyWaiting]
    rw [size_qrTaskStep, size_notifyWaiting fs]

/-- The leader keeps its secret exactly when no waiting task has a pending query. -/
theorem secret_notifyWaiting :
    ∀ fs : List Task, (notifyWaiting now fs (w, secret, pkt)).2.1 =
      if (secretHolder fs).isSome then 0 else secret
  | [] => rfl
  | f :: fs => by
    simp only [notifyWaiting, secretHolder]
    rw [reuseSecret_snd, secret_notifyWaiting fs]
    by_cases hf : f.tail.isSome <;> by_cases hh : (secretHolder fs).isSome <;>
      simp [hf, hh]

/-- Over the whole loop only the holder applies the leader's secret: the tasks before it have no
pending query, and those after it took over a zero secret. -/
theorem qname_notifyWaiting :
    ∀ fs : List Task, (notifyWaiting now fs (w, secret, pkt)).2.2.qname =
      match secretHolder fs with
      | some f =>
        if f.reachesConsume now w.admits pkt.size then pkt.qname.map (consumeQname secret)
        else pkt.qname
      | none => pkt.qname
  | [] => rfl
  | f :: fs => by
    simp only [notifyWaiting, secretHolder]
    rw [qrTaskStep_reuseSecret, notifyWaiting_admits, size_notifyWaiting, secret_notifyWaiting,
      apply_ite Packet.qname, qname_notifyWaiting fs]
    cases secretHolder fs with
    | some h => simp
    | none =>
      by_cases hf : f.tail.isSome
      · simp [hf]
      · simp [hf, Task.reachesConsume_of_tail_none (Option.not_isSome_iff_eq_none.1 hf)]

end Notify

/-! ## The leader's step -/

/-- After its waiting tasks, the leader steps as a task with the secret they left it. -/
theorem qrTaskStepLeader_eq {now : UInt64} {w : Worker} {l : Leader} {pkt : Packet}
    (hfin : l.finished = false) :
    qrTaskStepLeader now w l pkt =
      qrTaskStep now (notifyWaiting now l.waiting (w, l.qry.secret, pkt)).1
        (reuseSecret (notifyWaiting now l.waiting (w, l.qry.secret, pkt)).2.1 l.task).1
        (notifyWaiting now l.waiting (w, l.qry.secret, pkt)).2.2 := by
  simp [qrTaskStepLeader, subreqFinalize, qrTaskStep, reuseSecret, Leader.task, hfin]

/-- The QNAME after the leader's step: it is de-randomised with the leader's secret once, by the
holder, if the holder gets to its `kr_resolve_consume`, and left as it is otherwise. -/
theorem qrTaskStepLeader_qname (now : UInt64) (w : Worker) (l : Leader) (pkt : Packet) :
    (qrTaskStepLeader now w l pkt).2.qname =
      if l.finished = false ∧
          ((secretHolder l.waiting).getD l.task).reachesConsume now w.admits pkt.size
      then pkt.qname.map (consumeQname l.qry.secret) else pkt.qname := by
  cases hfin : l.finished
  · rw [qrTaskStepLeader_eq hfin, qrTaskStep_reuseSecret, notifyWaiting_admits,
      size_notifyWaiting, secret_notifyWaiting, apply_ite Packet.qname, qname_notifyWaiting]
    cases secretHolder l.waiting with
    | some h => simp
    | none => simp
  · simp [qrTaskStepLeader, hfin]

/-- A request started 10.5 s ago that now waits for a sub-request sent by a younger leader. -/
def staleFollower : Task := ⟨false, 0, some ⟨0x6b1f, 9000⟩⟩

/-- The leader, started 5 s ago, whose query for the name a went out with secret 0x2f3c9e41. -/
def youngLeader : Leader := ⟨false, 5000, ⟨0x2f3c9e41, 8000⟩, [staleFollower]⟩

/-- The waiting task takes the secret and stops at the resolution time limit; the leader consumes
with a zero secret, and the response keeps the randomised name. -/
theorem subreq_secret_lost :
    (qrTaskStepLeader 10500 ⟨false, 0, 0⟩ youngLeader
        ⟨29, some (randomizedQnameCase (Ta.knotDnameWire [[0x61]]) 0x2f3c9e41)⟩).2.qname =
      some (randomizedQnameCase (Ta.knotDnameWire [[0x61]]) 0x2f3c9e41) ∧
    randomizedQnameCase (Ta.knotDnameWire [[0x61]]) 0x2f3c9e41 ≠ Ta.knotDnameWire [[0x61]] := by
  decide

end KnotResolver.Daemon
