import KnotResolver.Request

/-!
# The resolution plan (`lib/rplan.c`)

A request's plan holds the queries it has created: `pending` lists those still to resolve, the
tail being the one the resolver works on, and `resolved` those done. Here the plan keeps every
query it has created in `queries`, at the position that stands for its pointer, and the two
arrays hold positions. A query points to the query it was made for (`parent`), and
`kr_rplan_satisfies` follows those pointers to tell whether a question is already being asked
on the way up, which is how `ns_resolve_addr` avoids dependency loops.

From `kr_rplan_init`, every run of pushes that name as parent NULL or an earlier query, and of
pops, keeps the plan well formed (`KrRplan.Wf`): each query is pending or resolved, never both
and never twice, uids count the queries created, parents come before their children, and a
query inherits the creation time of its parent. So `kr_rplan_satisfies` stops after at most as
many steps as there are queries and answers whether some query on the parent chain asks the
question (`KrRplan.Wf.krRplanSatisfies_eq`), and every query's creation time is that of the
query its chain starts from.

`knot_dname_is_equal` of libknot compares names byte for byte, and no name equals `NULL`. The
allocation failures (`array_reserve_mm`, `query_create`), the zone cut and name server set a
query starts with (`kr_zonecut_init`, `kr_nsrep_copy_set` when forwarding), `reorder` and the
wall-clock timestamp are left out.
-/

namespace KnotResolver

/-- The fields of `struct kr_query` that `rplan.c` sets and reads: `parent` is the position of the
parent query in the plan (`NULL` is `none`), `sname` is `NULL` for `kr_rplan_push_empty`, and the
times are those of `kr_now`. -/
structure RplanQuery where
  parent : Option Nat
  sname : Option Dname
  sclass : UInt16
  stype : UInt16
  uid : UInt32
  flags : KrQflags
  timestampMono : Nat
  creationTimeMono : Nat
  deriving Repr, DecidableEq

/-- `struct kr_rplan`: every query created, at the position of its pointer, the positions in
`pending` and `resolved` (the tail last), `next_uid`, and `request->options`. -/
structure KrRplan where
  queries : List RplanQuery
  pending : List Nat
  resolved : List Nat
  nextUid : UInt32
  options : KrQflags
  deriving Repr

/-- `kr_rplan_init`. -/
def krRplanInit (options : KrQflags) : KrRplan := ⟨[], [], [], 0, options⟩

/-- `kr_rplan_empty`. -/
def krRplanEmpty (rplan : KrRplan) : Bool := rplan.pending.length == 0

/-- `kr_rplan_push_query`: a new query at the tail of `pending`, with the next uid, the request's
options as flags, the name lower-cased, class and type 0, and the creation time of its parent or
the time now. `none` when the parent pointer is no query of the plan. -/
def krRplanPushQuery (rplan : KrRplan) (parent : Option Nat) (name : Option Dname) (now : Nat) :
    Option (KrRplan × Nat) := do
  let creation ← match parent with
    | none => some now
    | some p => (rplan.queries[p]?).map (·.creationTimeMono)
  let qry : RplanQuery :=
    { parent, sname := name.map knotDnameToLower, sclass := 0, stype := 0, uid := rplan.nextUid,
      flags := rplan.options, timestampMono := now, creationTimeMono := creation }
  pure ({ rplan with
    queries := rplan.queries ++ [qry]
    pending := rplan.pending ++ [rplan.queries.length]
    nextUid := rplan.nextUid + 1 }, rplan.queries.length)

/-- `kr_rplan_push_empty`. -/
def krRplanPushEmpty (rplan : KrRplan) (parent : Option Nat) (now : Nat) : Option (KrRplan × Nat) :=
  krRplanPushQuery rplan parent none now

/-- `kr_rplan_push`: then `qry->sclass = cls` and `qry->stype = type`. -/
def krRplanPush (rplan : KrRplan) (parent : Option Nat) (name : Dname) (cls type : UInt16)
    (now : Nat) : Option (KrRplan × Nat) := do
  let (rplan, qry) ← krRplanPushQuery rplan parent (some name) now
  pure ({ rplan with
    queries := rplan.queries.modify qry (fun q => { q with sclass := cls, stype := type }) }, qry)

/-- `kr_rplan_pop`: the loop from the tail of `pending` removes the last occurrence of `qry`,
sliding the rest down, and appends `qry` to `resolved`; nothing changes when `qry` is not
pending. It returns `KNOT_EOK` either way. -/
def krRplanPop (rplan : KrRplan) (qry : Nat) : KrRplan × Int :=
  if rplan.pending.contains qry then
    ({ rplan with
      pending := (rplan.pending.reverse.erase qry).reverse
      resolved := rplan.resolved ++ [qry] }, knotEok)
  else (rplan, knotEok)

/-- The test of `kr_rplan_satisfies` on one query. -/
def RplanQuery.asks (q : RplanQuery) (name : Dname) (cls type : UInt16) : Bool :=
  q.sclass == cls && q.stype == type && q.sname == some name

/-- `kr_rplan_satisfies`: up the `parent` pointers from `closure`, whether some query asks for
`name`, `cls` and `type`. `fuel` bounds the loop; `none` is a pointer that is no query of the
plan, or a chain longer than `fuel`. -/
def krRplanSatisfies (rplan : KrRplan) (name : Dname) (cls type : UInt16) :
    Nat → Option Nat → Option Bool
  | _, none => some false
  | 0, some _ => none
  | fuel + 1, some closure => do
    let q ← rplan.queries[closure]?
    if q.asks name cls type then pure true
    else krRplanSatisfies rplan name cls type fuel q.parent

/-- `kr_rplan_resolved`. -/
def krRplanResolved (rplan : KrRplan) : Option Nat := rplan.resolved.getLast?

/-- `kr_rplan_last`. -/
def krRplanLast (rplan : KrRplan) : Option Nat :=
  if !krRplanEmpty rplan then rplan.pending.getLast? else krRplanResolved rplan

/-- The loop of `kr_rplan_find_resolved` over the resolved queries `rest`: the first that asks
for `name`, `cls` and `type` and, unless `parent` is `NULL`, has that parent. -/
def krRplanFindResolved (rplan : KrRplan) (parent : Option Nat) (name : Dname) (cls type : UInt16) :
    List Nat → Option (Option Nat)
  | [] => some none
  | i :: rest => do
    let q ← rplan.queries[i]?
    if q.asks name cls type && (parent.isNone || q.parent == parent) then pure (some i)
    else krRplanFindResolved rplan parent name cls type rest

/-! ## The invariant -/

namespace KrRplan

/-- `a` is `c` or lies on the chain of `parent` pointers up from `c`. -/
inductive Ancestor (rplan : KrRplan) : Nat → Nat → Prop
  | refl (c : Nat) : Ancestor rplan c c
  | parent {a c p : Nat} {q : RplanQuery} : rplan.queries[c]? = some q → q.parent = some p →
      Ancestor rplan a p → Ancestor rplan a c

/-- A plan built from `kr_rplan_init`: every query is pending or resolved, once; uids count the
queries; a parent comes before its child, and the child has its creation time. -/
structure Wf (rplan : KrRplan) : Prop where
  partition : (rplan.pending ++ rplan.resolved).Perm (List.range rplan.queries.length)
  nextUid_eq : rplan.nextUid = rplan.queries.length.toUInt32
  uid_eq : ∀ (i : Nat) (q : RplanQuery), rplan.queries[i]? = some q → q.uid = i.toUInt32
  parent_lt : ∀ (i : Nat) (q : RplanQuery) (p : Nat), rplan.queries[i]? = some q →
    q.parent = some p → p < i
  creation_eq : ∀ (i : Nat) (q : RplanQuery) (p : Nat) (pq : RplanQuery), rplan.queries[i]? = some q →
    q.parent = some p →
    rplan.queries[p]? = some pq → q.creationTimeMono = pq.creationTimeMono

end KrRplan

theorem krRplanInit_wf (options : KrQflags) : (krRplanInit options).Wf where
  partition := by simp [krRplanInit]
  nextUid_eq := rfl
  uid_eq := by simp [krRplanInit]
  parent_lt := by simp [krRplanInit]
  creation_eq := by simp [krRplanInit]

theorem krRplanPop_queries (rplan : KrRplan) (qry : Nat) :
    (krRplanPop rplan qry).1.queries = rplan.queries := by
  unfold krRplanPop
  split <;> rfl

namespace KrRplan.Wf

variable {r : KrRplan}

/-- A new query at the tail of `pending` keeps the invariant when it has the next uid and its
parent, if any, is an earlier query whose creation time it has. -/
theorem snoc (h : r.Wf) {q : RplanQuery} (huid : q.uid = r.nextUid)
    (hparent : ∀ p, q.parent = some p → p < r.queries.length ∧
      ∀ pq, r.queries[p]? = some pq → q.creationTimeMono = pq.creationTimeMono) :
    ({ r with
      queries := r.queries ++ [q]
      pending := r.pending ++ [r.queries.length]
      nextUid := r.nextUid + 1 } : KrRplan).Wf := by
  -- a position of the old queries reads the same; the new one reads `q`
  have hget : ∀ (i : Nat) (qi : RplanQuery), (r.queries ++ [q])[i]? = some qi →
      (i < r.queries.length ∧ r.queries[i]? = some qi) ∨ (i = r.queries.length ∧ qi = q) := by
    intro i qi hi
    rcases Nat.lt_or_ge i r.queries.length with hlt | hge
    · exact .inl ⟨hlt, by rwa [List.getElem?_append_left hlt] at hi⟩
    · rw [List.getElem?_append_right hge] at hi
      cases hk : i - r.queries.length with
      | zero =>
        rw [hk] at hi
        obtain rfl : q = qi := by simpa using hi
        exact .inr ⟨by omega, rfl⟩
      | succ k =>
        rw [hk] at hi
        simp at hi
  refine ⟨?_, ?_, fun i qi hi => ?_, fun i qi p hi hp => ?_, fun i qi p pq hi hp hpq => ?_⟩
  · rw [List.length_append, List.length_singleton, List.range_succ, List.append_assoc,
      ← List.append_assoc, List.append_assoc r.pending]
    exact (List.perm_append_comm.append_left _).trans
      ((List.append_assoc _ _ _).symm ▸ h.partition.append_right _)
  · rw [h.nextUid_eq, List.length_append, List.length_singleton]
    simp
  · rcases hget i qi hi with ⟨-, hi⟩ | ⟨rfl, rfl⟩
    · exact h.uid_eq i qi hi
    · rw [huid, h.nextUid_eq]
  · rcases hget i qi hi with ⟨hlt, hi⟩ | ⟨rfl, rfl⟩
    · exact h.parent_lt i qi p hi hp
    · exact (hparent p hp).1
  · rcases hget i qi hi with ⟨hlt, hi⟩ | ⟨rfl, rfl⟩
    · have hpi := h.parent_lt i qi p hi hp
      rw [List.getElem?_append_left (by omega)] at hpq
      exact h.creation_eq i qi p pq hi hp hpq
    · have hplt := (hparent p hp).1
      rw [List.getElem?_append_left hplt] at hpq
      exact (hparent p hp).2 pq hpq

/-- Changing fields of a query other than its parent, uid and creation time keeps the
invariant. -/
theorem modify (h : r.Wf) (i : Nat) (f : RplanQuery → RplanQuery)
    (hf : ∀ q, (f q).parent = q.parent ∧ (f q).uid = q.uid ∧ (f q).creationTimeMono = q.creationTimeMono) :
    ({ r with queries := r.queries.modify i f } : KrRplan).Wf := by
  -- a position reads a query with the same parent, uid and creation time as before
  have hget : ∀ (j : Nat) (qj : RplanQuery), (r.queries.modify i f)[j]? = some qj →
      ∃ q : RplanQuery, r.queries[j]? = some q ∧
      qj.parent = q.parent ∧ qj.uid = q.uid ∧ qj.creationTimeMono = q.creationTimeMono := by
    intro j qj hj
    rw [List.getElem?_modify] at hj
    obtain ⟨q, hq, rfl⟩ := Option.map_eq_some_iff.1 hj
    refine ⟨q, hq, ?_⟩
    split
    · exact hf q
    · exact ⟨rfl, rfl, rfl⟩
  refine ⟨by simpa using h.partition, by simpa using h.nextUid_eq, fun j qj hj => ?_,
    fun j qj p hj hp => ?_, fun j qj p pq hj hp hpq => ?_⟩
  · obtain ⟨q, hq, -, huid, -⟩ := hget j qj hj
    rw [huid, h.uid_eq j q hq]
  · obtain ⟨q, hq, hpar, -⟩ := hget j qj hj
    exact h.parent_lt j q p hq (hpar ▸ hp)
  · obtain ⟨q, hq, hpar, -, hc⟩ := hget j qj hj
    obtain ⟨pq', hpq', -, -, hc'⟩ := hget p pq hpq
    rw [hc, hc', h.creation_eq j q p pq' hq (hpar ▸ hp) hpq']

/-- `kr_rplan_push_query` with NULL or a query of the plan as parent succeeds, puts the new query
at the tail of `pending` and keeps the invariant. -/
theorem krRplanPushQuery (h : r.Wf) {parent : Option Nat} (hp : parent.all (· < r.queries.length))
    (name : Option Dname) (now : Nat) :
    ∃ r', KnotResolver.krRplanPushQuery r parent name now = some (r', r.queries.length) ∧ r'.Wf ∧
      r'.queries.length = r.queries.length + 1 ∧ r'.pending = r.pending ++ [r.queries.length] ∧
      r'.resolved = r.resolved := by
  cases parent with
  | none =>
    refine ⟨_, rfl, ?_, by simp, rfl, rfl⟩
    exact h.snoc rfl fun p hp => by cases hp
  | some p =>
    have hplt : p < r.queries.length := by simpa using hp
    obtain ⟨pq, hpq⟩ : ∃ pq, r.queries[p]? = some pq := ⟨_, List.getElem?_eq_getElem hplt⟩
    simp only [KnotResolver.krRplanPushQuery, hpq, Option.map_some]
    refine ⟨_, rfl, ?_, by simp, rfl, rfl⟩
    refine h.snoc rfl fun p' hp' => ?_
    cases hp'
    exact ⟨hplt, fun pq' hpq' => by rw [hpq] at hpq'; cases hpq'; rfl⟩

theorem krRplanPush (h : r.Wf) {parent : Option Nat} (hp : parent.all (· < r.queries.length))
    (name : Dname) (cls type : UInt16) (now : Nat) :
    ∃ r', KnotResolver.krRplanPush r parent name cls type now = some (r', r.queries.length) ∧ r'.Wf ∧
      r'.queries.length = r.queries.length + 1 := by
  obtain ⟨r', hpush, hwf, hlen, -⟩ := h.krRplanPushQuery hp (some name) now
  refine ⟨{ r' with queries := (r'.queries.modify r.queries.length
    fun q => { q with sclass := cls, stype := type }) }, by simp [KnotResolver.krRplanPush, hpush],
    hwf.modify _ _ fun q => ⟨rfl, rfl, rfl⟩, by simpa using hlen⟩

/-- The pending queries are distinct. -/
theorem pending_nodup (h : r.Wf) : r.pending.Nodup :=
  (List.nodup_append.1 (h.partition.nodup_iff.2 List.nodup_range)).1

/-- `kr_rplan_pop` moves a pending query to the tail of `resolved` and leaves the other pending
queries in their order; it keeps the invariant. -/
theorem krRplanPop (h : r.Wf) (qry : Nat) :
    (KnotResolver.krRplanPop r qry).1.Wf ∧
      (KnotResolver.krRplanPop r qry).1.pending = r.pending.erase qry ∧
      (KnotResolver.krRplanPop r qry).1.resolved =
        if qry ∈ r.pending then r.resolved ++ [qry] else r.resolved := by
  unfold KnotResolver.krRplanPop
  by_cases hq : qry ∈ r.pending
  · -- with no duplicates, the last occurrence is the only one
    have herase : (r.pending.reverse.erase qry).reverse = r.pending.erase qry := by
      rw [(List.nodup_reverse.2 h.pending_nodup).erase_eq_filter, List.filter_reverse,
        List.reverse_reverse, h.pending_nodup.erase_eq_filter]
    rw [if_pos (List.contains_iff_mem.2 hq), if_pos hq, herase]
    refine ⟨⟨?_, h.nextUid_eq, h.uid_eq, h.parent_lt, h.creation_eq⟩, rfl, rfl⟩
    refine List.Perm.trans ?_ h.partition
    rw [← List.append_assoc]
    exact (List.perm_append_singleton qry _).trans ((List.perm_cons_erase hq).symm.append_right _)
  · rw [if_neg (mt List.contains_iff_mem.1 hq), if_neg hq, List.erase_of_not_mem hq]
    exact ⟨h, rfl, rfl⟩

end KrRplan.Wf

/-! ## Parent chains -/

namespace KrRplan

/-- The ancestors of a query are the query itself and those of its parent. -/
theorem ancestor_iff {rplan : KrRplan} {a c : Nat} {q : RplanQuery} (hq : rplan.queries[c]? = some q) :
    rplan.Ancestor a c ↔ a = c ∨ ∃ p, q.parent = some p ∧ rplan.Ancestor a p := by
  constructor
  · intro h
    cases h with
    | refl => exact .inl rfl
    | parent hc hp ha =>
      rw [hq] at hc
      cases hc
      exact .inr ⟨_, hp, ha⟩
  · rintro (rfl | ⟨p, hp, ha⟩)
    · exact .refl a
    · exact .parent hq hp ha

namespace Wf

variable {r : KrRplan}

/-- `kr_rplan_satisfies` from a query of the plan stops within as many steps as there are
queries before it, and answers whether some query on its parent chain asks for `name`, `cls`
and `type`. -/
theorem krRplanSatisfies_eq (h : r.Wf) (name : Dname) (cls type : UInt16) :
    ∀ (fuel c : Nat), c < r.queries.length → c < fuel →
      ∃ b, KnotResolver.krRplanSatisfies r name cls type fuel (some c) = some b ∧
        (b = true ↔ ∃ a q, r.Ancestor a c ∧ r.queries[a]? = some q ∧ q.asks name cls type = true)
  | 0, _, _, hf => absurd hf (Nat.not_lt_zero _)
  | fuel + 1, c, hc, hf => by
    obtain ⟨q, hq⟩ : ∃ q, r.queries[c]? = some q := ⟨_, List.getElem?_eq_getElem hc⟩
    simp only [KnotResolver.krRplanSatisfies, hq, Option.bind_eq_bind, Option.bind_some,
      Option.pure_def]
    by_cases hask : q.asks name cls type = true
    · exact ⟨true, by simp [hask], iff_of_true rfl ⟨c, q, .refl c, hq, hask⟩⟩
    rw [if_neg hask]
    -- otherwise the answer is the parent's
    have hup : (∃ a qa, r.Ancestor a c ∧ r.queries[a]? = some qa ∧ qa.asks name cls type = true) ↔
        ∃ p, q.parent = some p ∧
          ∃ a qa, r.Ancestor a p ∧ r.queries[a]? = some qa ∧ qa.asks name cls type = true := by
      constructor
      · rintro ⟨a, qa, ha, hqa, hasks⟩
        rcases (ancestor_iff hq).1 ha with rfl | ⟨p, hp, ha⟩
        · rw [hq] at hqa
          cases hqa
          exact absurd hasks hask
        · exact ⟨p, hp, a, qa, ha, hqa, hasks⟩
      · rintro ⟨p, hp, a, qa, ha, hqa, hasks⟩
        exact ⟨a, qa, .parent hq hp ha, hqa, hasks⟩
    cases hpar : q.parent with
    | none =>
      refine ⟨false, by cases fuel <;> rfl, iff_of_false Bool.false_ne_true fun hex => ?_⟩
      obtain ⟨p, hp, -⟩ := hup.1 hex
      rw [hpar] at hp
      cases hp
    | some p =>
      have hpc := h.parent_lt c q p hq hpar
      obtain ⟨b, hb, hiff⟩ := krRplanSatisfies_eq h name cls type fuel p (by omega) (by omega)
      refine ⟨b, hb, hiff.trans ⟨fun hex => hup.2 ⟨p, hpar, hex⟩, fun hex => ?_⟩⟩
      obtain ⟨p', hp', hex'⟩ := hup.1 hex
      rw [hpar] at hp'
      cases hp'
      exact hex'

/-- Every query has the creation time of the query its parent chain starts from. -/
theorem creation_root (h : r.Wf) :
    ∀ (c : Nat) (q : RplanQuery), r.queries[c]? = some q →
      ∃ a qa, r.Ancestor a c ∧ r.queries[a]? = some qa ∧ qa.parent = none ∧
        q.creationTimeMono = qa.creationTimeMono := by
  intro c
  induction c using Nat.strong_induction_on with
  | _ c ih =>
    intro q hq
    cases hpar : q.parent with
    | none => exact ⟨c, q, .refl c, hq, hpar, rfl⟩
    | some p =>
      have hpc := h.parent_lt c q p hq hpar
      have hplen : p < r.queries.length := by
        have := (List.getElem?_eq_some_iff.1 hq).1
        omega
      obtain ⟨pq, hpq⟩ : ∃ pq, r.queries[p]? = some pq := ⟨_, List.getElem?_eq_getElem hplen⟩
      obtain ⟨a, qa, ha, hqa, hroot, hcre⟩ := ih p hpc pq hpq
      exact ⟨a, qa, .parent hq hpar ha, hqa, hroot, (h.creation_eq c q p pq hq hpar hpq).trans hcre⟩

end Wf

end KrRplan

/-! ## Runs -/

/-- A call on the plan: `kr_rplan_push`, `kr_rplan_push_empty` or `kr_rplan_pop`, with the time
`kr_now` gives. -/
inductive RplanOp where
  | push (parent : Option Nat) (name : Dname) (cls type : UInt16) (now : Nat)
  | pushEmpty (parent : Option Nat) (now : Nat)
  | pop (qry : Nat)
  deriving Repr, DecidableEq

/-- The call on the plan; `none` when a push reads a parent pointer that is no query of it. -/
def RplanOp.step : RplanOp → KrRplan → Option KrRplan
  | .push parent name cls type now, r => (krRplanPush r parent name cls type now).map (·.1)
  | .pushEmpty parent now, r => (krRplanPushEmpty r parent now).map (·.1)
  | .pop qry, r => some (krRplanPop r qry).1

/-- A run of calls. -/
def rplanRun : KrRplan → List RplanOp → Option KrRplan
  | r, [] => some r
  | r, op :: ops => (op.step r).bind fun r' => rplanRun r' ops

/-- Every push of `ops` names as parent NULL or a query created before it, when the plan holds
`n` queries as the run starts. -/
def RplanOp.parentsBefore : Nat → List RplanOp → Bool
  | _, [] => true
  | n, .push parent .. :: ops => parent.all (· < n) && parentsBefore (n + 1) ops
  | n, .pushEmpty parent _ :: ops => parent.all (· < n) && parentsBefore (n + 1) ops
  | n, .pop _ :: ops => parentsBefore n ops

/-- Every run whose pushes name NULL or earlier queries as parents succeeds and keeps the
invariant. -/
theorem rplanRun_wf : ∀ (ops : List RplanOp) {r : KrRplan}, r.Wf →
    RplanOp.parentsBefore r.queries.length ops = true → ∃ r', rplanRun r ops = some r' ∧ r'.Wf
  | [], r, h, _ => ⟨r, rfl, h⟩
  | .push parent name cls type now :: ops, r, h, hops => by
    simp only [RplanOp.parentsBefore, Bool.and_eq_true] at hops
    obtain ⟨r₁, hpush, h₁, hlen⟩ := h.krRplanPush hops.1 name cls type now
    obtain ⟨r', hrun, h'⟩ := rplanRun_wf ops h₁ (by rw [hlen]; exact hops.2)
    exact ⟨r', by simp [rplanRun, RplanOp.step, hpush, hrun], h'⟩
  | .pushEmpty parent now :: ops, r, h, hops => by
    simp only [RplanOp.parentsBefore, Bool.and_eq_true] at hops
    obtain ⟨r₁, hpush, h₁, hlen, -⟩ := h.krRplanPushQuery hops.1 none now
    obtain ⟨r', hrun, h'⟩ := rplanRun_wf ops h₁ (by rw [hlen]; exact hops.2)
    exact ⟨r', by simp [rplanRun, RplanOp.step, krRplanPushEmpty, hpush, hrun], h'⟩
  | .pop qry :: ops, r, h, hops => by
    simp only [RplanOp.parentsBefore] at hops
    obtain ⟨h₁, -⟩ := h.krRplanPop qry
    obtain ⟨r', hrun, h'⟩ := rplanRun_wf ops h₁ (by rw [krRplanPop_queries]; exact hops)
    exact ⟨r', by simp [rplanRun, RplanOp.step, hrun], h'⟩

/-! ## What a run shows -/

/-- From `kr_rplan_init`, every run of `kr_rplan_push`, `kr_rplan_push_empty` and `kr_rplan_pop`
whose pushes name NULL or an earlier query as parent succeeds, and leaves every query it created
either pending or resolved, exactly once; the `i`-th query created has uid `i` modulo `2 ^ 32`
and any parent of it was created before it. -/
theorem rplanRun_partition (options : KrQflags) (ops : List RplanOp)
    (hops : RplanOp.parentsBefore 0 ops = true) :
    ∃ r, rplanRun (krRplanInit options) ops = some r ∧
      (r.pending ++ r.resolved).Perm (List.range r.queries.length) ∧
      ∀ (i : Nat) (q : RplanQuery), r.queries[i]? = some q →
        q.uid = i.toUInt32 ∧ ∀ p, q.parent = some p → p < i := by
  obtain ⟨r, hrun, h⟩ := rplanRun_wf ops (krRplanInit_wf options) hops
  exact ⟨r, hrun, h.partition, fun i q hq => ⟨h.uid_eq i q hq, fun p hp => h.parent_lt i q p hq hp⟩⟩

/-- A plan whose second query asks for the address of a name server of the first, and a third
query made for neither. -/
def nsAddrPlanOps : List RplanOp :=
  [.push none [[0x61], [0x65, 0x78]] 1 1 5, .push (some 0) [[0x6e, 0x73], [0x65, 0x78]] 1 28 6,
    .pop 1, .pushEmpty none 7]

theorem rplanRun_partition_nsAddr :
    RplanOp.parentsBefore 0 nsAddrPlanOps = true ∧
      ∃ r, rplanRun (krRplanInit {}) nsAddrPlanOps = some r ∧
        (r.pending ++ r.resolved).Perm (List.range r.queries.length) ∧
        ∀ (i : Nat) (q : RplanQuery), r.queries[i]? = some q →
          q.uid = i.toUInt32 ∧ ∀ p, q.parent = some p → p < i :=
  ⟨by decide, rplanRun_partition {} nsAddrPlanOps (by decide)⟩

/-- From `kr_rplan_init`, after every run whose pushes name NULL or an earlier query as parent,
`kr_rplan_satisfies` from any query of the plan stops within as many steps as there are queries
and answers whether some query on its parent chain, itself included, asks for the name, class
and type. -/
theorem rplanRun_satisfies (options : KrQflags) (ops : List RplanOp)
    (hops : RplanOp.parentsBefore 0 ops = true) :
    ∃ r, rplanRun (krRplanInit options) ops = some r ∧
      ∀ (name : Dname) (cls type : UInt16) (c : Nat), c < r.queries.length →
        ∃ b, krRplanSatisfies r name cls type r.queries.length (some c) = some b ∧
          (b = true ↔ ∃ a q, r.Ancestor a c ∧ r.queries[a]? = some q ∧ q.asks name cls type = true) := by
  obtain ⟨r, hrun, h⟩ := rplanRun_wf ops (krRplanInit_wf options) hops
  exact ⟨r, hrun, fun name cls type c hc => h.krRplanSatisfies_eq name cls type _ c hc hc⟩

theorem rplanRun_satisfies_nsAddr :
    RplanOp.parentsBefore 0 nsAddrPlanOps = true ∧
      ∃ r, rplanRun (krRplanInit {}) nsAddrPlanOps = some r ∧
        ∀ (name : Dname) (cls type : UInt16) (c : Nat), c < r.queries.length →
          ∃ b, krRplanSatisfies r name cls type r.queries.length (some c) = some b ∧
            (b = true ↔ ∃ a q, r.Ancestor a c ∧ r.queries[a]? = some q ∧
              q.asks name cls type = true) :=
  ⟨by decide, rplanRun_satisfies {} nsAddrPlanOps (by decide)⟩

/-- From `kr_rplan_init`, after every run whose pushes name NULL or an earlier query as parent,
every query has the creation time of the query without parent that its chain starts from: a
sub-query's time is counted from the request's own query. -/
theorem rplanRun_creationTime (options : KrQflags) (ops : List RplanOp)
    (hops : RplanOp.parentsBefore 0 ops = true) :
    ∃ r, rplanRun (krRplanInit options) ops = some r ∧
      ∀ (c : Nat) (q : RplanQuery), r.queries[c]? = some q →
        ∃ a qa, r.Ancestor a c ∧ r.queries[a]? = some qa ∧ qa.parent = none ∧
          q.creationTimeMono = qa.creationTimeMono := by
  obtain ⟨r, hrun, h⟩ := rplanRun_wf ops (krRplanInit_wf options) hops
  exact ⟨r, hrun, h.creation_root⟩

theorem rplanRun_creationTime_nsAddr :
    RplanOp.parentsBefore 0 nsAddrPlanOps = true ∧
      ∃ r, rplanRun (krRplanInit {}) nsAddrPlanOps = some r ∧
        ∀ (c : Nat) (q : RplanQuery), r.queries[c]? = some q →
          ∃ a qa, r.Ancestor a c ∧ r.queries[a]? = some qa ∧ qa.parent = none ∧
            q.creationTimeMono = qa.creationTimeMono :=
  ⟨by decide, rplanRun_creationTime {} nsAddrPlanOps (by decide)⟩

example : (rplanRun (krRplanInit {}) nsAddrPlanOps).map (fun r => (r.pending, r.resolved)) =
    some ([0, 2], [1]) := by
  decide

end KnotResolver
