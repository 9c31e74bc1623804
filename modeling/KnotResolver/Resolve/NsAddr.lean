import KnotResolver.Rplan
import KnotResolver.Zonecut.Nsset
import KnotResolver.Zonecut.FindCached

/-!
# Resolving the address of a name server (`ns_resolve_addr` of `lib/resolve.c`)

When the name server `kr_resolve_produce` elected for a query has no address, `ns_resolve_addr`
plans a sub-query for one: for its AAAA records first unless IPv6 is off, then for its A records
unless IPv4 is off, with the flags `AWAIT_IPV6` and `AWAIT_IPV4` remembering what was tried. It
bails out instead when the question is already asked on the way up from the query's parent
(`kr_rplan_satisfies`), which is how the resolver avoids dependency loops, and when both families
were tried: then the name server is marked unusable and dropped from the cut, except at the root,
where the cut falls back to the root hints. On an error `kr_resolve_produce` forgets the name
server and the families it waited for, to elect another.

`struct kr_query` is split here: `RplanQuery` holds the fields the plan reads, and `NsQuery` the
flags, the name server and the zone cut that `ns_resolve_addr` reads and writes besides, kept by
position of the query. The cut's name servers are the map `NssetMap` that the trie of
`Zonecut/Nsset` holds; the reputation cache `ctx->cache_rep` is a function of names written by
`Function.update`. `kr_rplan_push` and `kr_zonecut_copy` are assumed to find memory, `TCP` and
the trust anchor that `kr_zonecut_copy_trust` copies are left out.

The new query's name is lower-cased by `query_create`, while `kr_rplan_satisfies` compares the
name server's name as elected, byte for byte. For names in lower case, every run of pushes, pops,
elections, zone cuts and address steps keeps the plan well formed and free of dependency loops:
no query that `ns_resolve_addr` planned asks a question that a query above its parent asks
(`addrRun_loopFree`). With a name in upper case the guard misses the repeated question, as the
second example after that theorem shows.
-/

namespace KnotResolver

open Zonecut

/-- `EHOSTUNREACH`. -/
def EHOSTUNREACH : Int := 113

/-- The flags of `struct kr_qflags` that `ns_resolve_addr` reads and writes and `KrQflags` leaves
out. -/
structure NsFlags where
  awaitIpv4 : Bool := false
  awaitIpv6 : Bool := false
  noThrottle : Bool := false
  deriving Repr, DecidableEq

/-- The fields of a `struct kr_query` beyond the plan's that `ns_resolve_addr` reads and writes:
its flags above, the name server `ns.name` (NULL is `none`) and `ns.reputation`, and the name and
the name servers (keyed by wire name) of its zone cut. -/
structure NsQuery where
  flags : NsFlags
  nsName : Option Dname
  nsReputation : UInt32
  cutName : Dname
  cutNsset : NssetMap

/-- A query as `kr_rplan_push_query` leaves it: the request's flags, no name server yet, and the
cut `kr_zonecut_init` makes at the root without name servers. -/
def NsQuery.init (options : NsFlags) : NsQuery := ⟨options, none, 0, [], fun _ => none⟩

/-- What the address step reads of the context and the request: `options.NO_IPV6`,
`options.NO_IPV4`, the root hints (`root_hints.nsset`, NULL is `none`), and the flags of
`request->options` that `KrQflags` leaves out. -/
structure NsAddrCtx where
  noIpv6 : Bool
  noIpv4 : Bool
  rootHints : Option NssetMap
  options : NsFlags

/-- The request as the address step works on it: the plan, the other fields of each query by
its position, and the reputation cache. -/
structure AddrState where
  rplan : KrRplan
  ns : Nat → NsQuery
  cacheRep : Dname → Option UInt32

/-! ## The functions -/

/-- `kr_zonecut_set_sbelt`: the cut moves to the root with a copy of the root hints; `EINVAL`
without root hints. -/
def krZonecutSetSbelt (ctx : NsAddrCtx) (q : NsQuery) : Int × NsQuery :=
  match ctx.rootHints with
  | none => (krError EINVAL, q)
  | some hints => (krOk, { q with cutName := [], cutNsset := hints })

/-- `kr_nsrep_update_rep`: the reputation into the query's `ns` and into the cache under its
name. -/
def krNsrepUpdateRep (q : NsQuery) (reputation : UInt32) (cacheRep : Dname → Option UInt32) :
    NsQuery × (Dname → Option UInt32) :=
  ({ q with nsReputation := reputation },
    match q.nsName with
    | some name => Function.update cacheRep name (some reputation)
    | none => cacheRep)

/-- `invalidate_ns` for a name server without address: `kr_zonecut_del_all` of its name. -/
def invalidateNs (q : NsQuery) : NsQuery :=
  match q.nsName with
  | some name => { q with cutNsset := (q.cutNsset.delAll (Ta.knotDnameWire name)).2 }
  | none => q

/-- The start of `ns_resolve_addr`: AAAA unless it was tried or IPv6 is off, else A unless it was
tried or IPv4 is off, marking the name server `KR_NS_NOIP6`, else 0. -/
def nsNextType (ctx : NsAddrCtx) (q : NsQuery) (cacheRep : Dname → Option UInt32) :
    UInt16 × NsQuery × (Dname → Option UInt32) :=
  if !q.flags.awaitIpv6 && !ctx.noIpv6 then
    (knotRrtypeAaaa, { q with flags := { q.flags with awaitIpv6 := true } }, cacheRep)
  else if !q.flags.awaitIpv4 && !ctx.noIpv4 then
    let q := { q with flags := { q.flags with awaitIpv4 := true } }
    let r := krNsrepUpdateRep q (q.nsReputation ||| krNsNoip6) cacheRep
    (knotRrtypeA, r.1, r.2)
  else (0, q, cacheRep)

/-- The guard of `ns_resolve_addr`: no type left, or the question asked on the way up from the
parent. `kr_rplan_satisfies` is false for a NULL name. -/
def nsBailOut (rplan : KrRplan) (parent : Option Nat) (name : Option Dname) (nextType : UInt16) :
    Option Bool :=
  if nextType = 0 then some true
  else match name with
    | none => some false
    | some name => krRplanSatisfies rplan name knotClassIn nextType rplan.queries.length parent

/-- `ns_resolve_addr` on the query at `qry`: the return code and the request after it. `none` when
`qry` is no query of the plan. -/
def nsResolveAddr (ctx : NsAddrCtx) (s : AddrState) (qry : Nat) (now : Nat) :
    Option (Int × AddrState) := do
  let rq ← s.rplan.queries[qry]?
  let (nextType, q, cacheRep) := nsNextType ctx (s.ns qry) s.cacheRep
  let bail ← nsBailOut s.rplan rq.parent q.nsName nextType
  if bail then
    if nextType = 0 ∧ q.cutName = [] then
      -- no family left at the root: fall back to the root hints, even bad servers
      let q := (krZonecutSetSbelt ctx q).2
      pure (krError EAGAIN,
        { s with ns := Function.update s.ns qry { q with flags := { q.flags with noThrottle := true } },
                 cacheRep })
    else
      let r := krNsrepUpdateRep q (q.nsReputation ||| krNsNoip4 ||| krNsNoip6) cacheRep
      pure (krError EHOSTUNREACH,
        { s with ns := Function.update s.ns qry (invalidateNs r.1), cacheRep := r.2 })
  else
    match q.nsName with
    -- `kr_rplan_push` of a NULL name fails
    | none => pure (krError ENOMEM, { s with ns := Function.update s.ns qry q, cacheRep })
    | some name =>
      let (rplan, next) ← krRplanPush s.rplan (some qry) name knotClassIn nextType now
      -- `next->flags.NONAUTH = true`
      let rplan := { rplan with
        queries := rplan.queries.modify next fun n => { n with flags := { n.flags with nonauth := true } } }
      if q.cutName = [] then
        let (ret, nextNs) := krZonecutSetSbelt ctx (NsQuery.init ctx.options)
        let q := if ret = krOk then
            let q := (krZonecutSetSbelt ctx q).2
            { q with flags := { q.flags with noThrottle := true } }
          else q
        pure (ret, ⟨rplan, Function.update (Function.update s.ns qry q) next nextNs, cacheRep⟩)
      else
        -- `next->flags.AWAIT_CUT = true`
        let rplan := { rplan with
          queries := rplan.queries.modify next fun n => { n with flags := { n.flags with awaitCut := true } } }
        pure (krOk, ⟨rplan, Function.update (Function.update s.ns qry q) next (NsQuery.init ctx.options),
          cacheRep⟩)

/-- The address step of `kr_resolve_produce`: `ns_resolve_addr`, and on an error the query
forgets its name server and the families it waited for, to elect another. -/
def resolveProduceAddr (ctx : NsAddrCtx) (s : AddrState) (qry : Nat) (now : Nat) :
    Option (Int × AddrState) := do
  let (ret, s) ← nsResolveAddr ctx s qry now
  if ret ≠ 0 then
    let q := s.ns qry
    let q := { q with flags := { q.flags with awaitIpv6 := false, awaitIpv4 := false }, nsName := none }
    pure (ret, { s with ns := Function.update s.ns qry q })
  else pure (ret, s)

/-! ## Loops in the plan -/

namespace KrRplan

/-- No query that `ns_resolve_addr` planned, those with `NONAUTH`, asks a question that a query
above its parent asks. -/
def LoopFree (r : KrRplan) : Prop :=
  ∀ (c p a : Nat) (qc qa : RplanQuery) (name : Dname), r.queries[c]? = some qc →
    qc.flags.nonauth = true → qc.parent = some p → qc.sname = some name →
    r.Ancestor a p → a ≠ p → r.queries[a]? = some qa → qa.asks name qc.sclass qc.stype = false

variable {r r' : KrRplan}

theorem Ancestor.of_queries_eq (hq : r.queries = r'.queries) {a c : Nat} (h : r.Ancestor a c) :
    r'.Ancestor a c := by
  induction h with
  | refl => exact .refl _
  | parent hc hp _ ih => exact .parent (hq ▸ hc) hp ih

theorem LoopFree.of_queries_eq (hq : r.queries = r'.queries) (h : r.LoopFree) : r'.LoopFree :=
  fun c p a qc qa name hc hna hp hs ha hap hqa =>
    h c p a qc qa name (hq ▸ hc) hna hp hs (ha.of_queries_eq hq.symm) hap (hq ▸ hqa)

/-- An ancestor comes no later than its descendant. -/
theorem Wf.ancestor_le (h : r.Wf) {a c : Nat} (ha : r.Ancestor a c) : a ≤ c := by
  induction ha with
  | refl => exact Nat.le_refl _
  | @parent c p q hc hp _ ih => exact ih.trans (h.parent_lt c q p hc hp).le

/-- In a well-formed plan that extends `r`, the ancestors of a query of `r` are those it has in
`r`. -/
theorem Ancestor.of_extends (h' : r'.Wf) (hq : ∀ i < r.queries.length, r'.queries[i]? = r.queries[i]?)
    {a c : Nat} (h : r'.Ancestor a c) (hc : c < r.queries.length) : r.Ancestor a c := by
  induction h with
  | refl => exact .refl _
  | @parent c p q hqc hp _ ih =>
    have hpc := h'.parent_lt c q p hqc hp
    exact .parent (hq c hc ▸ hqc) hp (ih (by omega))

/-- A query appended to a plan free of loops keeps it so when, planned by `ns_resolve_addr`, it
asks a question no query above its parent asks. -/
theorem LoopFree.snoc (h : r.LoopFree) (h' : r'.Wf) {q : RplanQuery}
    (hq : r'.queries = r.queries ++ [q])
    (hnew : q.flags.nonauth = true → ∀ p name, q.parent = some p → q.sname = some name →
      ∀ a qa, r.Ancestor a p → a ≠ p → r.queries[a]? = some qa → qa.asks name q.sclass q.stype = false) :
    r'.LoopFree := by
  have hold : ∀ i < r.queries.length, r'.queries[i]? = r.queries[i]? := fun i hi => by
    rw [hq, List.getElem?_append_left hi]
  intro c p a qc qa name hc hna hp hs ha hap hqa
  -- the parent is an old query, and so are its ancestors
  have hpc := h'.parent_lt c qc p hc hp
  have hclen : c < r.queries.length + 1 := by
    simpa [hq] using (List.getElem?_eq_some_iff.1 hc).1
  have hplen : p < r.queries.length := by omega
  have har := ha.of_extends h' hold hplen
  have halen : a < r.queries.length := Nat.lt_of_le_of_lt (h'.ancestor_le ha) hplen
  rw [hold a halen] at hqa
  rcases Nat.lt_or_ge c r.queries.length with hlt | hge
  · exact h c p a qc qa name (hold c hlt ▸ hc) hna hp hs har hap hqa
  · -- the new query
    rw [hq, List.getElem?_append_right hge] at hc
    obtain rfl : qc = q := by
      have : c - r.queries.length = 0 := by omega
      simpa [this] using hc.symm
    exact hnew hna p name hp hs a qa har hap hqa

end KrRplan

theorem modify_length_append_singleton {α : Type u} (l : List α) (x : α) (f : α → α) :
    (l ++ [x]).modify l.length f = l ++ [f x] := by
  rw [List.modify_eq_take_cons_drop (by simp)]
  simp

/-- `kr_rplan_push_query` appends one query under NULL or a query of the plan, with the request's
flags and the name lower-cased. -/
theorem krRplanPushQuery_eq_some {r r' : KrRplan} {parent : Option Nat} {name : Option Dname}
    {now n : Nat} (h : krRplanPushQuery r parent name now = some (r', n)) :
    n = r.queries.length ∧ parent.all (· < r.queries.length) ∧ r'.options = r.options ∧
      ∃ q : RplanQuery, r'.queries = r.queries ++ [q] ∧ q.parent = parent ∧
        q.sname = name.map knotDnameToLower ∧ q.flags = r.options := by
  unfold krRplanPushQuery at h
  cases parent with
  | none =>
    simp only [Option.bind_eq_bind, Option.bind_some, Option.pure_def, Option.some.injEq] at h
    obtain ⟨rfl, rfl⟩ := Prod.mk.inj h
    exact ⟨rfl, rfl, rfl, _, rfl, rfl, rfl, rfl⟩
  | some p =>
    cases hp : r.queries[p]? with
    | none => simp [hp] at h
    | some pq =>
      simp only [hp, Option.map_some, Option.bind_eq_bind, Option.bind_some, Option.pure_def,
        Option.some.injEq] at h
      obtain ⟨rfl, rfl⟩ := Prod.mk.inj h
      exact ⟨rfl, by simpa using (List.getElem?_eq_some_iff.1 hp).1, rfl, _, rfl, rfl, rfl, rfl⟩

/-- `kr_rplan_push` appends one query: the question asked, under the parent given, with the
request's flags. -/
theorem krRplanPush_eq_some {r r' : KrRplan} {parent : Option Nat} {name : Dname} {cls type : UInt16}
    {now n : Nat} (h : krRplanPush r parent name cls type now = some (r', n)) :
    n = r.queries.length ∧ parent.all (· < r.queries.length) ∧ r'.options = r.options ∧
      ∃ q : RplanQuery, r'.queries = r.queries ++ [q] ∧ q.parent = parent ∧
        q.sname = some (knotDnameToLower name) ∧ q.sclass = cls ∧ q.stype = type ∧ q.flags = r.options := by
  unfold krRplanPush at h
  cases h₀ : krRplanPushQuery r parent (some name) now with
  | none => simp [h₀] at h
  | some x =>
  obtain ⟨r₀, m⟩ := x
  simp only [h₀, Option.bind_eq_bind, Option.bind_some, Option.pure_def, Option.some.injEq] at h
  obtain ⟨rfl, rfl⟩ := Prod.mk.inj h
  obtain ⟨rfl, hp, hopt, q, hq, hpar, hsn, hfl⟩ := krRplanPushQuery_eq_some h₀
  refine ⟨rfl, hp, hopt, { q with sclass := cls, stype := type }, ?_, hpar, by simpa using hsn, rfl,
    rfl, hfl⟩
  rw [hq, modify_length_append_singleton]

namespace KrRplan.Wf

variable {r r' : KrRplan} {parent : Option Nat} {now n : Nat}

theorem of_krRplanPushQuery (h : r.Wf) {name : Option Dname}
    (hpush : KnotResolver.krRplanPushQuery r parent name now = some (r', n)) : r'.Wf := by
  obtain ⟨-, hp, -⟩ := krRplanPushQuery_eq_some hpush
  obtain ⟨r'', h'', hwf, -⟩ := h.krRplanPushQuery hp name now
  rw [hpush] at h''
  obtain ⟨rfl, -⟩ := Prod.mk.inj (Option.some.inj h'')
  exact hwf

theorem of_krRplanPush (h : r.Wf) {name : Dname} {cls type : UInt16}
    (hpush : KnotResolver.krRplanPush r parent name cls type now = some (r', n)) : r'.Wf := by
  obtain ⟨-, hp, -⟩ := krRplanPush_eq_some hpush
  obtain ⟨r'', h'', hwf, -⟩ := h.krRplanPush hp name cls type now
  rw [hpush] at h''
  obtain ⟨rfl, -⟩ := Prod.mk.inj (Option.some.inj h'')
  exact hwf

end KrRplan.Wf

/-! ## What one address step does -/

section Step

variable {ctx : NsAddrCtx} {s s' : AddrState} {qry now : Nat} {ret : Int}

@[simp] theorem krNsrepUpdateRep_nsName (q : NsQuery) (reputation : UInt32)
    (cacheRep : Dname → Option UInt32) : (krNsrepUpdateRep q reputation cacheRep).1.nsName = q.nsName :=
  rfl

@[simp] theorem invalidateNs_nsName (q : NsQuery) : (invalidateNs q).nsName = q.nsName := by
  unfold invalidateNs
  split <;> rfl

@[simp] theorem krZonecutSetSbelt_nsName (q : NsQuery) : (krZonecutSetSbelt ctx q).2.nsName = q.nsName := by
  unfold krZonecutSetSbelt
  split <;> rfl

@[simp] theorem nsNextType_nsName (q : NsQuery) (cacheRep : Dname → Option UInt32) :
    (nsNextType ctx q cacheRep).2.1.nsName = q.nsName := by
  unfold nsNextType
  split
  · rfl
  · split <;> rfl

/-- When the guard of `ns_resolve_addr` lets a push through, a type was chosen and no query above
`qry` asks the question. -/
theorem KrRplan.Wf.nsBailOut_eq_false {r : KrRplan} (h : r.Wf) {rq : RplanQuery}
    (hq : r.queries[qry]? = some rq) {name : Dname} {t : UInt16}
    (hb : nsBailOut r rq.parent (some name) t = some false) :
    t ≠ 0 ∧ ∀ a qa, r.Ancestor a qry → a ≠ qry → r.queries[a]? = some qa →
      qa.asks name knotClassIn t = false := by
  unfold nsBailOut at hb
  split at hb
  · cases hb
  next ht =>
  refine ⟨ht, fun a qa ha hne hqa => ?_⟩
  rcases (KrRplan.ancestor_iff hq).1 ha with rfl | ⟨p, hp, hap⟩
  · exact absurd rfl hne
  -- the guard asked `kr_rplan_satisfies` from the parent, which sees every ancestor of it
  have hqlen : qry < r.queries.length := (List.getElem?_eq_some_iff.1 hq).1
  have hpq := h.parent_lt qry rq p hq hp
  obtain ⟨b, hb', hiff⟩ :=
    h.krRplanSatisfies_eq name knotClassIn t r.queries.length p (by omega) (by omega)
  rw [hp] at hb
  obtain rfl : b = false := Option.some.inj (hb'.symm.trans hb)
  cases hasks : qa.asks name knotClassIn t
  · rfl
  · exact absurd (hiff.2 ⟨a, qa, hap, hqa, hasks⟩) Bool.false_ne_true

/-- An update that gives `i` no name server `i` did not have gives none anywhere. -/
theorem nsName_update_of {ns : Nat → NsQuery} {i : Nat} {q : NsQuery}
    (hq : ∀ name, q.nsName = some name → (ns i).nsName = some name) :
    ∀ j name, (Function.update ns i q j).nsName = some name → (ns j).nsName = some name := by
  intro j name hj
  by_cases hji : j = i
  · subst hji
    rw [Function.update_self] at hj
    exact hq name hj
  · rwa [Function.update_of_ne hji] at hj

/-- What `ns_resolve_addr` can do: it reads a query of the plan, gives no query a name server it
did not have, and either leaves the plan or pushes the question its guard let through, setting
flags of the new query only. -/
theorem nsResolveAddr_cases (h : nsResolveAddr ctx s qry now = some (ret, s')) :
    ∃ rq, s.rplan.queries[qry]? = some rq ∧
      (∀ i name, (s'.ns i).nsName = some name → (s.ns i).nsName = some name) ∧
      (s'.rplan = s.rplan ∨
        ∃ (name : Dname) (t : UInt16) (r₁ : KrRplan) (f : KrQflags → KrQflags),
          (s.ns qry).nsName = some name ∧
          nsBailOut s.rplan rq.parent (some name) t = some false ∧
          krRplanPush s.rplan (some qry) name knotClassIn t now = some (r₁, s.rplan.queries.length) ∧
          s'.rplan = { r₁ with queries := (r₁.queries.modify s.rplan.queries.length
            fun n => { n with flags := f n.flags }) }) := by
  unfold nsResolveAddr at h
  cases hrq : s.rplan.queries[qry]? with
  | none => simp [hrq] at h
  | some rq =>
  refine ⟨rq, rfl, ?_⟩
  rcases hn : nsNextType ctx (s.ns qry) s.cacheRep with ⟨t, q, c⟩
  have hqn : q.nsName = (s.ns qry).nsName := by
    rw [← @nsNextType_nsName ctx (s.ns qry) s.cacheRep, hn]
  simp only [hrq, hn, Option.bind_eq_bind, Option.bind_some] at h
  cases hb : nsBailOut s.rplan rq.parent q.nsName t with
  | none => simp [hb] at h
  | some bail =>
  simp only [hb, Option.bind_some] at h
  cases bail with
  | true =>
    -- bailing out leaves the plan, and the query its name server
    simp only [if_true] at h
    split at h
    all_goals
      simp only [Option.pure_def, Option.some.injEq, Prod.mk.injEq] at h
      obtain ⟨-, rfl⟩ := h
      exact ⟨nsName_update_of fun name hname => by simpa [hqn] using hname, .inl rfl⟩
  | false =>
    simp only [Bool.false_eq_true, if_false] at h
    cases hname : q.nsName with
    | none =>
      simp only [hname, Option.pure_def, Option.some.injEq, Prod.mk.injEq] at h
      obtain ⟨-, rfl⟩ := h
      exact ⟨nsName_update_of fun name hn => by simp [hname] at hn, .inl rfl⟩
    | some name =>
    simp only [hname] at h
    cases hpush : krRplanPush s.rplan (some qry) name knotClassIn t now with
    | none => simp [hpush] at h
    | some x =>
    obtain ⟨r₁, next⟩ := x
    obtain ⟨rfl, -⟩ := krRplanPush_eq_some hpush
    simp only [hpush, Option.bind_some] at h
    rw [hname] at hb
    -- the queries keep their name servers; the new one has none
    have hkeep : ∀ (q' : NsQuery) (nextNs : NsQuery), q'.nsName = q.nsName → nextNs.nsName = none →
        ∀ i n, (Function.update (Function.update s.ns qry q') s.rplan.queries.length nextNs i).nsName =
          some n → (s.ns i).nsName = some n := by
      intro q' nextNs hq' hnext i n hi
      refine nsName_update_of (fun n hn => ?_) i n
        (nsName_update_of (fun n hn => by simp [hnext] at hn) i n hi)
      rwa [hq', hqn] at hn
    split at h
    · -- at the root
      simp only [Option.pure_def, Option.some.injEq, Prod.mk.injEq] at h
      obtain ⟨-, rfl⟩ := h
      refine ⟨hkeep _ _ (by split <;> simp) (by simp [NsQuery.init]),
        .inr ⟨name, t, r₁, fun fl => { fl with nonauth := true }, hqn ▸ hname, hb, hpush, rfl⟩⟩
    · simp only [Option.pure_def, Option.some.injEq, Prod.mk.injEq] at h
      obtain ⟨-, rfl⟩ := h
      refine ⟨hkeep _ _ rfl rfl,
        .inr ⟨name, t, r₁, fun fl => { fl with nonauth := true, awaitCut := true }, hqn ▸ hname, hb,
          hpush, ?_⟩⟩
      simp only [List.modify_modify_eq]
      rfl

/-- The push of `ns_resolve_addr`, whatever flags it sets on the new query, keeps the plan well
formed and free of loops when the name server's name is in lower case. -/
theorem KrRplan.LoopFree.nsResolveAddr_push {r r₁ : KrRplan} (hlf : r.LoopFree) (h : r.Wf)
    {rq : RplanQuery} (hq : r.queries[qry]? = some rq) {name : Dname}
    (hlow : knotDnameToLower name = name) {t : UInt16}
    (hb : nsBailOut r rq.parent (some name) t = some false)
    (hpush : krRplanPush r (some qry) name knotClassIn t now = some (r₁, r.queries.length))
    (f : KrQflags → KrQflags) :
    ({ r₁ with queries := (r₁.queries.modify r.queries.length fun n => { n with flags := f n.flags }) } :
      KrRplan).Wf ∧
    ({ r₁ with queries := (r₁.queries.modify r.queries.length fun n => { n with flags := f n.flags }) } :
      KrRplan).LoopFree := by
  obtain ⟨-, -, -, q, hq₁, hpar, hsn, hcls, htype, -⟩ := krRplanPush_eq_some hpush
  obtain ⟨-, hnot⟩ := h.nsBailOut_eq_false hq hb
  have hwf := (h.of_krRplanPush hpush).modify r.queries.length (fun n => { n with flags := f n.flags })
    fun _ => ⟨rfl, rfl, rfl⟩
  refine ⟨hwf, hlf.snoc hwf (q := { q with flags := f q.flags }) ?_ ?_⟩
  · show r₁.queries.modify _ _ = _
    rw [hq₁, modify_length_append_singleton]
  · -- the new query hangs below `qry` and asks for the name server's address
    intro _ p name' hp hs a qa ha hap hqa
    obtain rfl : p = qry := Option.some.inj (hp.symm.trans hpar)
    obtain rfl : name' = name := by rw [← hlow]; exact Option.some.inj (hs.symm.trans hsn)
    rw [show ({ q with flags := f q.flags } : RplanQuery).sclass = knotClassIn from hcls,
      show ({ q with flags := f q.flags } : RplanQuery).stype = t from htype]
    exact hnot a qa ha hap hqa

/-- What every run keeps: the plan well formed and free of loops, the request's options without
`NONAUTH`, and every elected name server in lower case. -/
structure AddrState.Inv (s : AddrState) : Prop where
  wf : s.rplan.Wf
  loopFree : s.rplan.LoopFree
  options_nonauth : s.rplan.options.nonauth = false
  lower : ∀ i name, (s.ns i).nsName = some name → knotDnameToLower name = name

theorem AddrState.Inv.nsResolveAddr (hs : s.Inv) (h : nsResolveAddr ctx s qry now = some (ret, s')) :
    s'.Inv := by
  obtain ⟨rq, hrq, hkeep, hpl | ⟨name, t, r₁, f, hname, hb, hpush, hr⟩⟩ := nsResolveAddr_cases h
  · refine ⟨?_, ?_, ?_, fun i n hi => hs.lower i n (hkeep i n hi)⟩ <;> rw [hpl]
    exacts [hs.wf, hs.loopFree, hs.options_nonauth]
  · obtain ⟨hwf, hlf⟩ := hs.loopFree.nsResolveAddr_push hs.wf hrq (hs.lower qry name hname) hb hpush f
    obtain ⟨-, -, hopt, -⟩ := krRplanPush_eq_some hpush
    refine ⟨hr ▸ hwf, hr ▸ hlf, ?_, fun i n hi => hs.lower i n (hkeep i n hi)⟩
    rw [hr]
    exact hopt ▸ hs.options_nonauth

/-- The address step of `kr_resolve_produce` keeps the invariant: clearing the name server after
an error only takes a name away. -/
theorem AddrState.Inv.resolveProduceAddr (hs : s.Inv)
    (h : resolveProduceAddr ctx s qry now = some (ret, s')) : s'.Inv := by
  unfold KnotResolver.resolveProduceAddr at h
  cases h₀ : KnotResolver.nsResolveAddr ctx s qry now with
  | none => simp [h₀] at h
  | some x =>
  obtain ⟨ret₀, s₀⟩ := x
  have hs₀ := hs.nsResolveAddr h₀
  simp only [h₀, Option.bind_eq_bind, Option.bind_some] at h
  split at h
  all_goals
    simp only [Option.pure_def, Option.some.injEq, Prod.mk.injEq] at h
    obtain ⟨-, rfl⟩ := h
  · exact ⟨hs₀.wf, hs₀.loopFree, hs₀.options_nonauth,
      fun i n hi => hs₀.lower i n (nsName_update_of (fun n hn => by simp at hn) i n hi)⟩
  · exact hs₀

end Step

/-! ## Runs -/

/-- A step of the request: a call on the plan by any other caller, the election of a name server
by `kr_nsrep_elect`, a zone cut found for a query, or the address step. -/
inductive AddrOp where
  | plan (op : RplanOp)
  | elect (qry : Nat) (name : Dname) (reputation : UInt32)
  | cut (qry : Nat) (name : Dname) (nsset : NssetMap)
  | resolveAddr (qry : Nat) (now : Nat)

/-- The step on the request. A step that names no query of the plan is skipped: the source only
ever passes pointers to queries. -/
def AddrOp.step (ctx : NsAddrCtx) : AddrOp → AddrState → AddrState
  | .plan (.pop qry), s => { s with rplan := (krRplanPop s.rplan qry).1 }
  | .plan op, s => ((op.step s.rplan).map fun r =>
      { s with rplan := r, ns := Function.update s.ns s.rplan.queries.length (NsQuery.init ctx.options) }).getD s
  | .elect qry name reputation, s =>
    { s with ns := Function.update s.ns qry { s.ns qry with nsName := some name, nsReputation := reputation } }
  | .cut qry name nsset, s =>
    { s with ns := Function.update s.ns qry { s.ns qry with cutName := name, cutNsset := nsset } }
  | .resolveAddr qry now, s => ((resolveProduceAddr ctx s qry now).map (·.2)).getD s

/-- A run of steps. -/
def addrRun (ctx : NsAddrCtx) (s : AddrState) (ops : List AddrOp) : AddrState :=
  ops.foldl (fun s op => op.step ctx s) s

/-- The elections of a step are of names in lower case. -/
def AddrOp.ElectsLower : AddrOp → Prop
  | .elect _ name _ => knotDnameToLower name = name
  | _ => True

instance (op : AddrOp) : Decidable op.ElectsLower :=
  match op with
  | .elect _ name _ => inferInstanceAs (Decidable (knotDnameToLower name = name))
  | .plan _ => inferInstanceAs (Decidable True)
  | .cut .. => inferInstanceAs (Decidable True)
  | .resolveAddr .. => inferInstanceAs (Decidable True)

namespace AddrState.Inv

variable {ctx : NsAddrCtx} {s : AddrState}

/-- A query pushed by another caller carries the request's flags, so no `NONAUTH`, and no name
server yet. -/
theorem snoc (hs : s.Inv) {r' : KrRplan} (hwf : r'.Wf) (hopt : r'.options = s.rplan.options)
    {q : RplanQuery} (hq : r'.queries = s.rplan.queries ++ [q]) (hfl : q.flags = s.rplan.options)
    (options : NsFlags) :
    ({ s with rplan := r', ns := Function.update s.ns s.rplan.queries.length (NsQuery.init options) } :
      AddrState).Inv := by
  refine ⟨hwf, hs.loopFree.snoc hwf hq fun hna => ?_, hopt ▸ hs.options_nonauth, fun i n hi => ?_⟩
  · rw [hfl, hs.options_nonauth] at hna
    cases hna
  · exact hs.lower i n (nsName_update_of (fun n hn => by simp [NsQuery.init] at hn) i n hi)

/-- Every step keeps the invariant. -/
theorem step (hs : s.Inv) {op : AddrOp} (hop : op.ElectsLower) : (op.step ctx s).Inv := by
  match op with
  | .plan (.pop qry) =>
    obtain ⟨hwf, -⟩ := hs.wf.krRplanPop qry
    have hopt : (krRplanPop s.rplan qry).1.options = s.rplan.options := by
      unfold krRplanPop
      split <;> rfl
    exact ⟨hwf, hs.loopFree.of_queries_eq (krRplanPop_queries _ _).symm, hopt ▸ hs.options_nonauth,
      hs.lower⟩
  | .plan (.push parent name cls type now) =>
    simp only [AddrOp.step, RplanOp.step]
    cases hpush : krRplanPush s.rplan parent name cls type now with
    | none => exact hs
    | some x =>
      obtain ⟨-, -, hopt, q, hq, -, -, -, -, hfl⟩ := krRplanPush_eq_some hpush
      exact hs.snoc (hs.wf.of_krRplanPush hpush) hopt hq hfl _
  | .plan (.pushEmpty parent now) =>
    simp only [AddrOp.step, RplanOp.step, krRplanPushEmpty]
    cases hpush : krRplanPushQuery s.rplan parent none now with
    | none => exact hs
    | some x =>
      obtain ⟨-, -, hopt, q, hq, -, -, hfl⟩ := krRplanPushQuery_eq_some hpush
      exact hs.snoc (hs.wf.of_krRplanPushQuery hpush) hopt hq hfl _
  | .elect qry name reputation =>
    refine ⟨hs.wf, hs.loopFree, hs.options_nonauth, fun i n hi => ?_⟩
    by_cases hiq : i = qry
    · subst hiq
      simp only [AddrOp.step, Function.update_self, Option.some.injEq] at hi
      exact hi ▸ hop
    · simp only [AddrOp.step, Function.update_of_ne hiq] at hi
      exact hs.lower i n hi
  | .cut qry name nsset =>
    refine ⟨hs.wf, hs.loopFree, hs.options_nonauth, fun i n hi => hs.lower i n ?_⟩
    exact nsName_update_of (q := { s.ns qry with cutName := name, cutNsset := nsset })
      (fun n hn => hn) i n hi
  | .resolveAddr qry now =>
    simp only [AddrOp.step]
    cases h : KnotResolver.resolveProduceAddr ctx s qry now with
    | none => exact hs
    | some x => exact hs.resolveProduceAddr h

end AddrState.Inv

/-- From `kr_rplan_init`, with request options without `NONAUTH` and names elected in lower case,
every run of pushes and pops by any caller, elections, zone cuts and address steps of
`kr_resolve_produce` keeps the plan well formed, and no query that `ns_resolve_addr` planned asks
the question of a query above its parent: a name server's address is never looked up again
further down the chain that needs it. -/
theorem addrRun_loopFree (ctx : NsAddrCtx) (options : KrQflags) (hopt : options.nonauth = false)
    (cacheRep : Dname → Option UInt32) (ops : List AddrOp) (hops : ∀ op ∈ ops, op.ElectsLower) :
    (addrRun ctx ⟨krRplanInit options, fun _ => NsQuery.init ctx.options, cacheRep⟩ ops).rplan.Wf ∧
      (addrRun ctx ⟨krRplanInit options, fun _ => NsQuery.init ctx.options, cacheRep⟩ ops).rplan.LoopFree := by
  have hinit : AddrState.Inv ⟨krRplanInit options, fun _ => NsQuery.init ctx.options, cacheRep⟩ :=
    ⟨krRplanInit_wf options, fun c _ _ _ _ _ hc => by simp [krRplanInit] at hc, hopt,
      fun _ _ h => by simp [NsQuery.init] at h⟩
  have h : (addrRun ctx ⟨krRplanInit options, fun _ => NsQuery.init ctx.options, cacheRep⟩ ops).Inv := by
    unfold addrRun
    exact List.foldl_invariant AddrState.Inv (fun _ op hop hs => hs.step (hops op hop)) hinit
  exact ⟨h.wf, h.loopFree⟩

/-- The request for `a.ex.` A, whose zone cut `ex.` has the name server `ns` without address; the
same server is then elected for each address query, at the same cut. -/
def nsLoopOps (ns : Dname) : List AddrOp :=
  [.plan (.push none [[0x61], [0x65, 0x78]] knotClassIn knotRrtypeA 1),
    .elect 0 ns 0, .cut 0 [[0x65, 0x78]] (fun _ => none), .resolveAddr 0 2,
    .elect 1 ns 0, .cut 1 [[0x65, 0x78]] (fun _ => none), .resolveAddr 1 3,
    .elect 2 ns 0, .cut 2 [[0x65, 0x78]] (fun _ => none), .resolveAddr 2 4]

/-- IPv4 and IPv6 on, no root hints, no flags in the request's options. -/
def nsLoopCtx : NsAddrCtx := ⟨false, false, none, {}⟩

theorem addrRun_loopFree_nsLoop :
    ({} : KrQflags).nonauth = false ∧ (∀ op ∈ nsLoopOps [[0x6e, 0x73], [0x65, 0x78]], op.ElectsLower) ∧
      (addrRun nsLoopCtx ⟨krRplanInit {}, fun _ => NsQuery.init nsLoopCtx.options, fun _ => none⟩
        (nsLoopOps [[0x6e, 0x73], [0x65, 0x78]])).rplan.Wf ∧
      (addrRun nsLoopCtx ⟨krRplanInit {}, fun _ => NsQuery.init nsLoopCtx.options, fun _ => none⟩
        (nsLoopOps [[0x6e, 0x73], [0x65, 0x78]])).rplan.LoopFree :=
  ⟨rfl, by decide, addrRun_loopFree nsLoopCtx {} rfl (fun _ => none) _ (by decide)⟩

/-- With `ns.ex.` the third address step finds the AAAA question of `ns.ex.` asked by the parent's
parent and plans nothing: the queries ask for `a.ex.` A and twice for `ns.ex.` AAAA. -/
example : ((addrRun nsLoopCtx ⟨krRplanInit {}, fun _ => NsQuery.init nsLoopCtx.options, fun _ => none⟩
    (nsLoopOps [[0x6e, 0x73], [0x65, 0x78]])).rplan.queries.map fun q => (q.parent, q.stype)) =
    [(none, knotRrtypeA), (some 0, knotRrtypeAaaa), (some 1, knotRrtypeAaaa)] := by
  decide

/-- With `NS.ex.` the guard compares the name as elected with the lower-cased names the plan
holds, misses the question asked by the parent's parent, and plans it once more. -/
example : ((addrRun nsLoopCtx ⟨krRplanInit {}, fun _ => NsQuery.init nsLoopCtx.options, fun _ => none⟩
    (nsLoopOps [[0x4e, 0x53], [0x65, 0x78]])).rplan.queries.map fun q => (q.parent, q.sname, q.stype)) =
    [(none, some [[0x61], [0x65, 0x78]], knotRrtypeA), (some 0, some [[0x6e, 0x73], [0x65, 0x78]], knotRrtypeAaaa),
      (some 1, some [[0x6e, 0x73], [0x65, 0x78]], knotRrtypeAaaa),
      (some 2, some [[0x6e, 0x73], [0x65, 0x78]], knotRrtypeAaaa)] := by
  decide

end KnotResolver
