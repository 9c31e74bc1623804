import KnotResolver.Generic.SelectSort
import KnotResolver.Zonecut.FindCached

/-!
# Choosing name server addresses (`lib/nsrep.c`)

`eval_addr_set` elects the best addresses of one name server. Each address of the set gets a
score from the RTT cache (`curAddrScore`). It is then inserted into an array of
`KR_NSREP_MAXADDR` slots, before the first slot it beats, and the last slot drops out
(`electInsert`). An IPv6 newcomer gets the `FAVOUR_IPV6` bonus against the incumbent it is
compared with. An IPv4 newcomer gets no bonus, and an IPv6 incumbent keeps none. So the winner
can depend on the order of the set (`evalAddrSet_order_dependent`).

`kr_nsrep_sort` scores the addresses of a forwarding target. An address unknown to the cache
scores 1. A live one keeps its RTT, or scores 1 when a coin says to re-probe it. A timed-out one
scores `KR_NS_MAX_SCORE + 1`, except the first whose retry interval has elapsed: it is promoted
to 1, and its timestamp is reset. IPv4 addresses then get `FAVOUR_IPV6` more. A selection sort
swaps the scores and the addresses in step (`Generic.selectSort`). `krNsrepSort_sorted` gathers
what the function guarantees in `NsrepSortSpec`.

The RTT cache is a function from raw addresses to entries, and its writes are updates of it.
`kr_now` is the time of the event loop, fixed for one call. The byte each `kr_rand_coin` draws is
a parameter, indexed by the address it is drawn for.
-/

namespace KnotResolver.Nsrep

open Zonecut Generic

/-! ## Constants of `lib/nsrep.h` -/

/-- `KR_CONN_RTT_MAX`. -/
def krConnRttMax : UInt32 := 2000

/-- `KR_NS_MAX_SCORE`. -/
def krNsMaxScore : UInt32 := 20 * krConnRttMax

/-- `KR_NS_FWD_TIMEOUT`. -/
def krNsFwdTimeout : UInt32 := 95 * 10000 / 100

/-- `KR_NS_LONG`. -/
def krNsLong : UInt32 := 3 * krNsTimeout / 4

/-- `KR_NS_GLUED`. -/
def krNsGlued : UInt32 := 10

/-- `KR_NSREP_MAXADDR`. -/
def krNsrepMaxaddr : Nat := 4

/-- `FAVOUR_IPV6`, a bonus of 20 ms for IPv6. -/
def favourIpv6 : UInt32 := 20

/-- `now - tout_timestamp`, clamped to `UINT_MAX`, is past the retry interval. -/
def retryElapsed (retry : UInt32) (now toutTimestamp : UInt64) : Bool :=
  let elapsed := now - toutTimestamp
  let elapsed := if elapsed > 0xFFFFFFFF then 0xFFFFFFFF else elapsed
  elapsed > retry.toUInt64

/-- `kr_rand_coin(nomin, denomin)` with `rnd` the byte `kr_rand_bytes(1)` draws: true with a
probability of about `nomin / denomin`. -/
def krRandCoin (rnd : UInt8) (nomin denomin : UInt32) : Bool :=
  if nomin ≥ denomin then true
  else if nomin ≤ 0 then false
  else
    -- threshold = how many parts from 256 are a success
    let threshold := (nomin * 256 + denomin / 2) / denomin
    let threshold := if threshold = 0 then 1 else threshold
    let threshold := if threshold = 256 then 255 else threshold
    rnd.toUInt32 < threshold

/-! ## `eval_addr_set` -/

/-- Slot `i` of the three arrays `eval_addr_set` moves in step: `addr[i]` (the address, by its
value), `rtt_cache_entry_ptr[i]` (the key of the cache entry it points to, `none` for NULL) and
`rtt_cache_entry_score[i]`. -/
structure Candidate where
  addr : Option (List UInt8)
  entry : Option (List UInt8)
  score : UInt32
  deriving DecidableEq, Repr

/-- The slots on entry: the caller's `addr_choice` is all NULL, and the scores are
`{ score, KR_NS_MAX_SCORE + 1, }`, so zero after the first two. -/
def electInit (score : UInt32) : List Candidate :=
  [⟨none, none, score⟩, ⟨none, none, krNsMaxScore + 1⟩, ⟨none, none, 0⟩, ⟨none, none, 0⟩]

/-- `cur_addr_score`: `KR_NS_GLUED` for an address the RTT cache does not know, its cached score
otherwise, and `KR_NS_LONG - 1` for a timed-out address whose retry interval has elapsed. -/
def curAddrScore (ctx : CutCtx) (now : UInt64) : Option RttEntry → UInt32
  | none => krNsGlued
  | some e =>
    if e.score ≥ krNsTimeout ∧
        retryElapsed ctx.cacheRttToutRetryInterval now e.toutTimestamp then krNsLong - 1
    else e.score

/-- The loop over the slots for an address of score `cur`. A timed-out address goes before the
first slot of a higher score. Another goes before the first slot whose score, plus `favour`, is
above its own. The "shake down" moves the later slots one down; the caller drops the last. -/
def electInsert (cur favour : UInt32) (c : Candidate) : List Candidate → List Candidate
  | [] => []
  | d :: ds =>
    if cur ≥ krNsTimeout ∧ cur ≥ d.score then d :: electInsert cur favour c ds
    else if cur ≥ krNsTimeout ∨ cur < d.score + favour then c :: d :: ds
    else d :: electInsert cur favour c ds

/-- The validity and the bonus of an address by its length: `none` is `assert(!EINVAL)` on an
address that is neither IPv4 nor IPv6. -/
def addrFavour (noIpv4 noIpv6 : Bool) (len : Nat) : Option (Bool × UInt32) :=
  if len = 16 then some (!noIpv6, favourIpv6)
  else if len = 4 then some (!noIpv4, 0)
  else none

/-- One address of the set, in the first loop of `eval_addr_set`. -/
def evalAddr (ctx : CutCtx) (noIpv4 noIpv6 : Bool) (now : UInt64) (cands : List Candidate)
    (val : List UInt8) : Option (List Candidate) := do
  let (isValid, favour) ← addrFavour noIpv4 noIpv6 val.length
  if !isValid then return cands
  let cached := ctx.cacheRtt val
  let cur := curAddrScore ctx now cached
  return (electInsert cur favour ⟨some val, cached.map fun _ => val, cur⟩ cands).take
    krNsrepMaxaddr

/-- The second loop: the timestamp of a chosen timed-out address whose retry interval has
elapsed is reset to `now`. -/
def probeTimeouted (ctx : CutCtx) (now : UInt64) (cache : List UInt8 → Option RttEntry)
    (c : Candidate) : List UInt8 → Option RttEntry :=
  match c.entry with
  | none => cache
  | some key =>
    match cache key with
    | none => cache
    | some e =>
      if e.score < krNsTimeout then cache
      else if !retryElapsed ctx.cacheRttToutRetryInterval now e.toutTimestamp then cache
      else Function.update cache key (some { e with toutTimestamp := now })

/-- `eval_addr_set` over the addresses of the pack, in the order the walk from `pack_head` meets
them: the score returned, the `addr` array, and the RTT cache after it. -/
def evalAddrSet (ctx : CutCtx) (noIpv4 noIpv6 : Bool) (score : UInt32) (now : UInt64)
    (addrSet : List (List UInt8)) :
    Option (UInt32 × List (Option (List UInt8)) × (List UInt8 → Option RttEntry)) := do
  let cands ← addrSet.foldlM (evalAddr ctx noIpv4 noIpv6 now) (electInit score)
  let cache := cands.foldl (probeTimeouted ctx now) ctx.cacheRtt
  return ((cands.headD ⟨none, none, 0⟩).score, cands.map Candidate.addr, cache)

/-! ### Without the bonus

An IPv4 newcomer, with no bonus, goes before the first slot of a higher score, whether it timed
out or not. The head slot then keeps the lowest score seen, and for a set of IPv4 addresses the
score `eval_addr_set` returns is the minimum of the caller's score and theirs. -/

/-- An IPv4 address, `192.0.2.1`. -/
def addrA : List UInt8 := [192, 0, 2, 1]

/-- An IPv6 address, `2001:db8::1`. -/
def addrB : List UInt8 := [0x20, 0x01, 0x0d, 0xb8, 0, 0, 0, 0, 0, 0, 0, 0, 0, 0, 0, 1]

/-- A context whose RTT cache has `192.0.2.1` at 100 ms and `2001:db8::1` at 110 ms. -/
def rttCtx : CutCtx where
  cache := Cache.emptyCdb
  cacheRtt a := if a = addrA then some ⟨100, 0⟩ else if a = addrB then some ⟨110, 0⟩ else none
  cacheRep _ := none
  cacheRttToutRetryInterval := 1000

/-- The IPv6 address is 10 ms slower, within its 20 ms bonus, so it should win in any order. It
wins only when it comes second: first, it is the incumbent, and the IPv4 newcomer needs no bonus
to beat it. The score returned differs with the order too. -/
theorem evalAddrSet_order_dependent :
    curAddrScore rttCtx 0 (rttCtx.cacheRtt addrA) = 100 ∧
      curAddrScore rttCtx 0 (rttCtx.cacheRtt addrB) = 110 ∧
      (evalAddrSet rttCtx false false krNsMaxScore 0 [addrA, addrB]).map
          (fun r => (r.1, r.2.1.head?)) = some (110, some (some addrB)) ∧
      (evalAddrSet rttCtx false false krNsMaxScore 0 [addrB, addrA]).map
          (fun r => (r.1, r.2.1.head?)) = some (100, some (some addrA)) := by
  decide

/-! ## `kr_nsrep_sort` -/

/-- `union inaddr` in `ns->addr`, by its family. -/
inductive InAddr where
  | unspec
  | inet (addr : List UInt8)
  | inet6 (addr : List UInt8)
  deriving DecidableEq, Repr

/-- `kr_inaddr(sa)`, `kr_family_len(sa->sa_family)` bytes long: the key of the RTT cache. -/
def InAddr.key : InAddr → List UInt8
  | .unspec => []
  | .inet a => a
  | .inet6 a => a

/-- The fields of `struct kr_nsrep` that `kr_nsrep_sort` writes. -/
structure KrNsrep where
  score : UInt32
  reputation : UInt32
  addr : List InAddr
  deriving DecidableEq, Repr

/-- What the first loop of `kr_nsrep_sort` carries from one address to the next: the RTT cache
and `timeouted_address_is_already_selected`. -/
structure SortState where
  cacheRtt : List UInt8 → Option RttEntry
  selected : Bool

/-- `scores[i]` before the advantage to IPv6, drawing the byte `rnd` for the coin. -/
def rttScore (ctx : CutCtx) (now : UInt64) (rnd : UInt8) (st : SortState) (sa : InAddr) :
    Nat × SortState :=
  match st.cacheRtt sa.key with
  | none => (1, st)
  | some e =>
    if e.score < krNsFwdTimeout then
      -- some probability to bump bad ones up for re-probe
      (if !krRandCoin rnd e.score krNsFwdTimeout then 1 else e.score.toNat, st)
    else if retryElapsed ctx.cacheRttToutRetryInterval now e.toutTimestamp && !st.selected then
      (1, ⟨Function.update st.cacheRtt sa.key (some { e with toutTimestamp := now }), true⟩)
    else (krNsMaxScore.toNat + 1, st)

/-- Give advantage to IPv6: an IPv4 address of a finite score gets `FAVOUR_IPV6` more. -/
def favourScore (sa : InAddr) (s : Nat) : Nat :=
  match sa with
  | .inet _ => if s ≤ krNsMaxScore.toNat then s + favourIpv6.toNat else s
  | _ => s

/-- The first loop of `kr_nsrep_sort`: the scores of the addresses before the first
`AF_UNSPEC`. Address `i` draws the byte `rnd i`. -/
def nsrepScores (ctx : CutCtx) (now : UInt64) (rnd : Nat → UInt8) :
    Nat → SortState → List InAddr → List Nat × SortState
  | _, st, [] => ([], st)
  | i, st, sa :: addrs =>
    if sa = .unspec then ([], st)
    else
      let (s, st) := rttScore ctx now (rnd i) st sa
      let (ss, st) := nsrepScores ctx now rnd (i + 1) st addrs
      (favourScore sa s :: ss, st)

/-- `kr_nsrep_sort`: the value returned, `ns` after it, and the RTT cache after it. -/
def krNsrepSort (ctx : CutCtx) (now : UInt64) (rnd : Nat → UInt8) (ns : KrNsrep) :
    Int × KrNsrep × (List UInt8 → Option RttEntry) :=
  let ns := { ns with reputation := 0, score := krNsMaxScore + 1 }
  if ns.addr.headD .unspec = .unspec then (krError EINVAL, ns, ctx.cacheRtt)
  else
    let (scores, st) :=
      nsrepScores ctx now rnd 0 ⟨ctx.cacheRtt, false⟩ (ns.addr.take krNsrepMaxaddr)
    let count := scores.length
    -- select-sort the addresses, swapping the scores beside them
    let (scores, addr) := selectSort count scores ns.addr
    let ns := { ns with addr := addr }
    let ns := if count > 0 then { ns with score := (scores.headD 0).toUInt32, reputation := 0 }
      else ns
    (krOk, ns, st.cacheRtt)

/-! ### The scores -/

section Scores

variable (ctx : CutCtx) (now : UInt64)

/-- The score `kr_nsrep_sort` gives an address before the bonus, by its entry `e?` in the RTT
cache at the call: 1 for an address the cache does not know, the RTT of a live one or 1 by the
coin, and for a timed-out one `KR_NS_MAX_SCORE + 1`, or 1 when it is the address promoted, whose
retry interval has elapsed. -/
def BaseScore (rnd : UInt8) (e? : Option RttEntry) (promoted : Bool) (b : Nat) : Prop :=
  match e? with
  | none => promoted = false ∧ b = 1
  | some e =>
    if e.score < krNsFwdTimeout then
      promoted = false ∧ b = if krRandCoin rnd e.score krNsFwdTimeout then e.score.toNat else 1
    else if promoted then
      retryElapsed ctx.cacheRttToutRetryInterval now e.toutTimestamp = true ∧ b = 1
    else b = krNsMaxScore.toNat + 1

/-- The state of the first loop, from the cache `c0` at the call: nothing is promoted yet, or
one timed-out entry of `c0` has its timestamp at `now`. -/
def SortState.Reached (c0 : List UInt8 → Option RttEntry) (st : SortState) : Prop :=
  (st.selected = false ∧ st.cacheRtt = c0) ∨
    (st.selected = true ∧ ∃ k e, c0 k = some e ∧ krNsFwdTimeout ≤ e.score ∧
      st.cacheRtt = Function.update c0 k (some { e with toutTimestamp := now }))

/-- Once an address is promoted, every entry the loop reads scores as in `c0`, and no address is
promoted again: the score is as if the cache were `c0` and the address not promoted. -/
theorem rttScore_of_selected {c0 : List UInt8 → Option RttEntry} {st : SortState}
    (hsel : st.selected = true) (k : List UInt8) (e : RttEntry) (hk : c0 k = some e)
    (hfwd : krNsFwdTimeout ≤ e.score)
    (hc : st.cacheRtt = Function.update c0 k (some { e with toutTimestamp := now }))
    (rnd : UInt8) (sa : InAddr) :
    BaseScore ctx now rnd (c0 sa.key) false (rttScore ctx now rnd st sa).1 ∧
      (rttScore ctx now rnd st sa).2 = st := by
  unfold rttScore
  by_cases hkey : sa.key = k
  · -- the promoted entry: still timed out, and the flag bars a second promotion
    have hnlt : ¬e.score < krNsFwdTimeout := UInt32.not_lt.2 hfwd
    rw [hc, hkey, Function.update_self, hk]
    simp only [BaseScore, hnlt, if_false, hsel, Bool.not_true, Bool.and_false]
    exact ⟨rfl, rfl⟩
  · rw [hc, Function.update_of_ne hkey]
    cases c0 sa.key with
    | none => exact ⟨⟨rfl, rfl⟩, rfl⟩
    | some e' =>
      by_cases hlt : e'.score < krNsFwdTimeout
      · cases hcoin : krRandCoin rnd e'.score krNsFwdTimeout <;> simp [BaseScore, hlt, hcoin]
      · simp [BaseScore, hlt, hsel]

/-- One address of the first loop: its score is the bonus over a base score from `c0`, and it is
promoted only when nothing was before. -/
theorem rttScore_spec {c0 : List UInt8 → Option RttEntry} {st : SortState}
    (h : st.Reached now c0) (rnd : UInt8) (sa : InAddr) :
    ∃ p, BaseScore ctx now rnd (c0 sa.key) p (rttScore ctx now rnd st sa).1 ∧
      (rttScore ctx now rnd st sa).2.Reached now c0 ∧
      (p = false → (rttScore ctx now rnd st sa).2 = st) ∧
      (p = true → st.selected = false ∧ (rttScore ctx now rnd st sa).2.selected = true ∧
        ∃ e, c0 sa.key = some e ∧ (rttScore ctx now rnd st sa).2.cacheRtt =
          Function.update c0 sa.key (some { e with toutTimestamp := now })) := by
  rcases h with ⟨hsel, hc⟩ | ⟨hsel, k, e, hk, hfwd, hc⟩
  · -- nothing promoted yet: the cache is `c0`
    unfold rttScore
    rw [hc]
    cases hkey : c0 sa.key with
    | none => exact ⟨false, ⟨rfl, rfl⟩, .inl ⟨hsel, hc⟩, fun _ => rfl, fun h => absurd h (by decide)⟩
    | some e =>
      dsimp only
      by_cases hlt : e.score < krNsFwdTimeout
      · -- a live address: the coin decides, and the state stays
        rw [if_pos hlt]
        refine ⟨false, ?_, .inl ⟨hsel, hc⟩, fun _ => rfl, fun h => absurd h (by decide)⟩
        cases hcoin : krRandCoin rnd e.score krNsFwdTimeout <;> simp [BaseScore, hlt, hcoin]
      · rw [if_neg hlt]
        by_cases hel : retryElapsed ctx.cacheRttToutRetryInterval now e.toutTimestamp = true
        · -- the promotion
          have hfwd : krNsFwdTimeout ≤ e.score := UInt32.not_lt.1 hlt
          rw [if_pos (by simp [hel, hsel])]
          refine ⟨true, ?_, .inr ⟨rfl, sa.key, e, hkey, hfwd, rfl⟩, fun h => absurd h (by decide),
            fun _ => ⟨hsel, rfl, e, rfl, rfl⟩⟩
          simp [BaseScore, hlt, hel]
        · rw [if_neg (by simp [hel])]
          refine ⟨false, ?_, .inl ⟨hsel, hc⟩, fun _ => rfl, fun h => absurd h (by decide)⟩
          simp [BaseScore, hlt]
  · obtain ⟨hb, hst⟩ := rttScore_of_selected ctx now hsel k e hk hfwd hc rnd sa
    refine ⟨false, hb, ?_, fun _ => hst, fun h => absurd h (by decide)⟩
    rw [hst]
    exact .inr ⟨hsel, k, e, hk, hfwd, hc⟩

/-- What the first loop computes from address `i` on, over `addrs` and from the state `st`: the
scores `sc` and the state `st'`, with `promoted` flagging the address promoted. -/
structure ScoresFrom (c0 : List UInt8 → Option RttEntry) (rnd : Nat → UInt8) (i : Nat)
    (addrs : List InAddr) (st : SortState) (sc : List Nat) (st' : SortState)
    (promoted : List Bool) : Prop where
  length_eq : sc.length = (addrs.takeWhile (· != .unspec)).length
  length_promoted : promoted.length = sc.length
  base : ∀ j (hj : j < sc.length), ∃ b,
    BaseScore ctx now (rnd (i + j)) (c0 (addrs.getD j .unspec).key) (promoted.getD j false) b ∧
      sc[j] = favourScore (addrs.getD j .unspec) b
  count_le : promoted.count true ≤ 1
  of_selected : st.selected = true → promoted.count true = 0
  cache : (promoted.count true = 0 ∧ st' = st) ∨
    ∃ j e, promoted.getD j false = true ∧ c0 (addrs.getD j .unspec).key = some e ∧
      st'.cacheRtt = Function.update c0 (addrs.getD j .unspec).key
        (some { e with toutTimestamp := now })

theorem scoresFrom_nil {c0 : List UInt8 → Option RttEntry} {rnd : Nat → UInt8} {i : Nat}
    {addrs : List InAddr} {st : SortState} (h : (addrs.takeWhile (· != .unspec)).length = 0) :
    ScoresFrom ctx now c0 rnd i addrs st [] st [] where
  length_eq := h.symm
  length_promoted := rfl
  base := fun _ hj => absurd hj (Nat.not_lt_zero _)
  count_le := Nat.zero_le 1
  of_selected := fun _ => rfl
  cache := .inl ⟨rfl, rfl⟩

/-- A flag set at some index counts. -/
theorem count_true_pos_of_getD {ps : List Bool} {j : Nat} (h : ps.getD j false = true) :
    0 < ps.count true := by
  rw [List.getD_eq_getElem?_getD] at h
  cases hj : ps[j]? with
  | none => rw [hj] at h; exact absurd h (by decide)
  | some x =>
    rw [hj, Option.getD_some] at h
    subst h
    exact List.count_pos_iff.2 (List.mem_of_getElem? hj)

/-- One more address before the rest of the loop. -/
theorem ScoresFrom.cons {c0 : List UInt8 → Option RttEntry} {rnd : Nat → UInt8} {i : Nat}
    {sa : InAddr} {addrs : List InAddr} {st st1 st2 : SortState} {b : Nat} {ss : List Nat}
    {p : Bool} {ps : List Bool} (hsa : sa ≠ .unspec)
    (hb : BaseScore ctx now (rnd i) (c0 sa.key) p b) (hp0 : p = false → st1 = st)
    (hp1 : p = true → st.selected = false ∧ st1.selected = true ∧ ∃ e, c0 sa.key = some e ∧
      st1.cacheRtt = Function.update c0 sa.key (some { e with toutTimestamp := now }))
    (ih : ScoresFrom ctx now c0 rnd (i + 1) addrs st1 ss st2 ps) :
    ScoresFrom ctx now c0 rnd i (sa :: addrs) st (favourScore sa b :: ss) st2 (p :: ps) := by
  have hne : (sa != .unspec) = true := bne_iff_ne.2 hsa
  -- a promotion here leaves none for the rest
  have hrest : p = true → ps.count true = 0 ∧ st2 = st1 := fun hp => by
    have h0 := ih.of_selected (hp1 hp).2.1
    refine ⟨h0, ?_⟩
    rcases ih.cache with ⟨_, h⟩ | ⟨j, _, hj, _⟩
    · exact h
    · exact absurd h0 (Nat.pos_iff_ne_zero.1 (count_true_pos_of_getD hj))
  refine ⟨?_, ?_, ?_, ?_, ?_, ?_⟩
  · rw [List.takeWhile_cons, if_pos hne, List.length_cons, List.length_cons, ih.length_eq]
  · rw [List.length_cons, List.length_cons, ih.length_promoted]
  · intro j hj
    cases j with
    | zero => exact ⟨b, hb, rfl⟩
    | succ j =>
      obtain ⟨b', hb', heq⟩ := ih.base j (by simpa using hj)
      refine ⟨b', ?_, heq⟩
      rw [show i + (j + 1) = i + 1 + j by omega]
      exact hb'
  · cases p with
    | false => simpa using ih.count_le
    | true => simp [(hrest rfl).1]
  · intro hsel
    cases p with
    | false => simpa [hp0 rfl] using ih.of_selected (by rw [hp0 rfl]; exact hsel)
    | true => exact absurd hsel (by simp [(hp1 rfl).1])
  · cases p with
    | true =>
      obtain ⟨_, _, e, he, hc⟩ := hp1 rfl
      exact .inr ⟨0, e, rfl, he, by rw [(hrest rfl).2]; exact hc⟩
    | false =>
      rcases ih.cache with ⟨h0, h⟩ | ⟨j, e, hj, he, hc⟩
      · exact .inl ⟨by simpa using h0, by rw [h, hp0 rfl]⟩
      · exact .inr ⟨j + 1, e, hj, he, hc⟩

/-- The first loop of `kr_nsrep_sort`, from any reachable state. -/
theorem nsrepScores_spec (c0 : List UInt8 → Option RttEntry) (rnd : Nat → UInt8) :
    ∀ (i : Nat) (st : SortState) (addrs : List InAddr), st.Reached now c0 →
      ∃ promoted, ScoresFrom ctx now c0 rnd i addrs st (nsrepScores ctx now rnd i st addrs).1
        (nsrepScores ctx now rnd i st addrs).2 promoted
  | _, _, [], _ => ⟨[], scoresFrom_nil ctx now rfl⟩
  | i, st, sa :: addrs, h => by
    rw [nsrepScores]
    by_cases hsa : sa = .unspec
    · -- the loop breaks at `AF_UNSPEC`
      rw [if_pos hsa]
      exact ⟨[], scoresFrom_nil ctx now (by simp [hsa])⟩
    · rw [if_neg hsa]
      obtain ⟨p, hb, hr, hp0, hp1⟩ := rttScore_spec ctx now h (rnd i) sa
      obtain ⟨ps, ih⟩ := nsrepScores_spec c0 rnd (i + 1) _ addrs hr
      exact ⟨p :: ps, ScoresFrom.cons ctx now hsa hb hp0 hp1 ih⟩

/-- No score reaches `2 ^ 32`: a base score is at most `KR_NS_MAX_SCORE + 1`, and the bonus goes
only to finite ones. -/
theorem favourScore_lt_of_baseScore {rnd : UInt8} {e? : Option RttEntry} {p : Bool} {b : Nat}
    (hb : BaseScore ctx now rnd e? p b) (sa : InAddr) : favourScore sa b < 2 ^ 32 := by
  have hle : b ≤ krNsMaxScore.toNat + 1 := by
    unfold BaseScore at hb
    have hmax : krNsMaxScore.toNat = 40000 := rfl
    cases e? with
    | none => omega
    | some e =>
      -- a live score is below `KR_NS_FWD_TIMEOUT`
      have hfwd : krNsFwdTimeout.toNat = 9500 := rfl
      dsimp only at hb
      split_ifs at hb with hlt
      · have := UInt32.lt_iff_toNat_lt.1 hlt
        omega
      all_goals omega
  unfold favourScore
  have hmax : krNsMaxScore.toNat = 40000 := rfl
  have hfav : favourIpv6.toNat = 20 := rfl
  cases sa <;> dsimp only <;> (try split_ifs) <;> omega

/-- Every score the first loop computes fits the `uint32_t` of `ns->score`. -/
theorem ScoresFrom.lt_two_pow {c0 : List UInt8 → Option RttEntry} {rnd : Nat → UInt8} {i : Nat}
    {addrs : List InAddr} {st st' : SortState} {sc : List Nat} {promoted : List Bool}
    (hs : ScoresFrom ctx now c0 rnd i addrs st sc st' promoted) : ∀ s ∈ sc, s < 2 ^ 32 := by
  intro s hsc
  obtain ⟨j, hj, rfl⟩ := List.mem_iff_getElem.1 hsc
  obtain ⟨b, hb, heq⟩ := hs.base j hj
  rw [heq]
  exact favourScore_lt_of_baseScore ctx now hb _

end Scores

/-! ### The sort -/

theorem getD_take_of_lt {α : Type*} {l : List α} {n j : Nat} (d : α) (h : j < n) :
    (l.take n).getD j d = l.getD j d := by
  rw [List.getD_eq_getElem?_getD, List.getD_eq_getElem?_getD, List.getElem?_take_of_lt h]

theorem lt_length_of_getD {ps : List Bool} {j : Nat} (h : ps.getD j false = true) :
    j < ps.length := by
  rw [List.getD_eq_getElem?_getD] at h
  by_contra hj
  rw [List.getElem?_eq_none (by omega)] at h
  exact absurd h (by decide)

/-- What `kr_nsrep_sort` guarantees. `sc` holds the scores it computed for the addresses before
the first `AF_UNSPEC`, in their order on entry, `promoted` flags the address it promoted, and `r`
is what it returns. The addresses come out permuted with their scores, which are sorted, and
`ns->score` is the smallest. Each score is the IPv4 penalty over a base score from the cache at the
call. At most one address is promoted, and the cache changes only there. -/
structure NsrepSortSpec (ctx : CutCtx) (now : UInt64) (rnd : Nat → UInt8) (ns : KrNsrep)
    (sc : List Nat) (promoted : List Bool) (r : Int × KrNsrep × (List UInt8 → Option RttEntry)) :
    Prop where
  ret : r.1 = krOk
  count_pos : 0 < sc.length
  count_eq : sc.length = ((ns.addr.take krNsrepMaxaddr).takeWhile (· != .unspec)).length
  sorted : ∃ ss : List Nat, ss.Pairwise (· ≤ ·) ∧ (ss.zip r.2.1.addr).Perm (sc.zip ns.addr)
  rest : r.2.1.addr.drop sc.length = ns.addr.drop sc.length
  score_mem : r.2.1.score.toNat ∈ sc
  score_le : ∀ s ∈ sc, r.2.1.score.toNat ≤ s
  reputation : r.2.1.reputation = 0
  length_promoted : promoted.length = sc.length
  base : ∀ i (hi : i < sc.length), ∃ b,
    BaseScore ctx now (rnd i) (ctx.cacheRtt (ns.addr.getD i .unspec).key) (promoted.getD i false) b ∧
      sc[i] = favourScore (ns.addr.getD i .unspec) b
  promoted_le : promoted.count true ≤ 1
  cache : (promoted.count true = 0 ∧ r.2.2 = ctx.cacheRtt) ∨
    ∃ i e, promoted.getD i false = true ∧ ctx.cacheRtt (ns.addr.getD i .unspec).key = some e ∧
      r.2.2 = Function.update ctx.cacheRtt (ns.addr.getD i .unspec).key
        (some { e with toutTimestamp := now })

/-- The first address is scored: the array does not start with `AF_UNSPEC`. -/
theorem length_takeWhile_pos {addr : List InAddr} (h0 : addr.headD .unspec ≠ .unspec) :
    0 < ((addr.take krNsrepMaxaddr).takeWhile (· != .unspec)).length := by
  cases addr with
  | nil => exact absurd rfl h0
  | cons sa rest =>
    have hne : (sa != .unspec) = true := bne_iff_ne.2 h0
    rw [krNsrepMaxaddr, List.take_succ_cons, List.takeWhile_cons, if_pos hne, List.length_cons]
    exact Nat.succ_pos _

/-- The first of a permutation of a nonempty list is one of its elements. -/
theorem headD_mem_of_perm {ss sc : List Nat} (hss : ss.Perm sc) (hpos : 0 < sc.length) :
    ss.headD 0 ∈ sc := by
  cases ss with
  | nil => exact absurd hss.length_eq (by simp; omega)
  | cons x xs => exact hss.subset List.mem_cons_self

/-- The smallest of sorted scores is the first. -/
theorem headD_le_of_pairwise {ss : List Nat} (h : ss.Pairwise (· ≤ ·)) :
    ∀ s ∈ ss, ss.headD 0 ≤ s := by
  cases ss with
  | nil => exact fun _ hs => absurd hs List.not_mem_nil
  | cons x xs =>
    intro s hs
    rcases List.mem_cons.1 hs with rfl | hs
    · exact Nat.le_refl _
    · exact List.rel_of_pairwise_cons h hs

/-- `kr_nsrep_sort` on an address array that does not start with `AF_UNSPEC`, for every RTT cache,
time and coin. -/
theorem krNsrepSort_sorted (ctx : CutCtx) (now : UInt64) (rnd : Nat → UInt8) (ns : KrNsrep)
    (h0 : ns.addr.headD .unspec ≠ .unspec) :
    ∃ promoted, NsrepSortSpec ctx now rnd ns
      (nsrepScores ctx now rnd 0 ⟨ctx.cacheRtt, false⟩ (ns.addr.take krNsrepMaxaddr)).1 promoted
      (krNsrepSort ctx now rnd ns) := by
  obtain ⟨promoted, hs⟩ := nsrepScores_spec ctx now ctx.cacheRtt rnd 0 ⟨ctx.cacheRtt, false⟩
    (ns.addr.take krNsrepMaxaddr) (.inl ⟨rfl, rfl⟩)
  unfold krNsrepSort
  rw [if_neg h0]
  generalize nsrepScores ctx now rnd 0 ⟨ctx.cacheRtt, false⟩ (ns.addr.take krNsrepMaxaddr) = res
    at hs ⊢
  obtain ⟨sc, st⟩ := res
  dsimp only at hs ⊢
  have hpos : 0 < sc.length := hs.length_eq ▸ length_takeWhile_pos h0
  have hcount : sc.length ≤ krNsrepMaxaddr := by
    rw [hs.length_eq]
    exact Nat.le_trans (List.takeWhile_sublist _).length_le (List.length_take_le _ _)
  have hlen : sc.length ≤ ns.addr.length := by
    rw [hs.length_eq]
    exact Nat.le_trans (List.takeWhile_sublist _).length_le (List.length_take_le' _ _)
  -- the selection sort
  obtain ⟨hsorted, hperm, hdrop, hlk, hlv⟩ := selectSort_spec sc ns.addr hlen
  generalize selectSort sc.length sc ns.addr = srt at hsorted hperm hdrop hlk hlv ⊢
  obtain ⟨ss, addr'⟩ := srt
  dsimp only at hsorted hperm hdrop hlk hlv ⊢
  rw [if_pos hpos]
  -- the sorted scores are those computed
  have hss : ss.Perm sc := by
    have h := hperm.map Prod.fst
    rwa [List.map_fst_zip (by omega), List.map_fst_zip hlen] at h
  have hhead : ss.headD 0 ∈ sc := headD_mem_of_perm hss hpos
  -- the smallest score fits `ns->score`
  have hscore : (ss.headD 0).toUInt32.toNat = ss.headD 0 := by
    have := hs.lt_two_pow ctx now _ hhead
    simp only [Nat.toUInt32, UInt32.toNat_ofNat']
    omega
  -- the addresses scored are the first ones of the array
  have hget : ∀ j, j < sc.length → (ns.addr.take krNsrepMaxaddr).getD j .unspec =
      ns.addr.getD j .unspec := fun j hj => getD_take_of_lt _ (by omega)
  refine ⟨promoted, rfl, hpos, hs.length_eq, ⟨ss, hsorted, hperm⟩, hdrop, ?_, ?_, rfl,
    hs.length_promoted, ?_, hs.count_le, ?_⟩
  · rw [hscore]
    exact hhead
  · intro s hsc
    rw [hscore]
    exact headD_le_of_pairwise hsorted s (hss.symm.subset hsc)
  · intro i hi
    obtain ⟨b, hb, heq⟩ := hs.base i hi
    rw [Nat.zero_add, hget i hi] at hb
    rw [hget i hi] at heq
    exact ⟨b, hb, heq⟩
  · rcases hs.cache with ⟨h, hst⟩ | ⟨j, e, hj, he, hc⟩
    · exact .inl ⟨h, by rw [hst]⟩
    · have hjl : j < sc.length := hs.length_promoted ▸ lt_length_of_getD hj
      rw [hget j hjl] at he hc
      exact .inr ⟨j, e, hj, he, hc⟩

/-- The two addresses of `rttCtx`'s cache, IPv4 first. -/
def nsTwoAddrs : KrNsrep := ⟨0, 0, [.inet addrA, .inet6 addrB, .unspec, .unspec]⟩

/-- With the coin drawing zero, both cached RTTs are kept. The IPv4 address, 100 ms plus its
penalty of 20, goes after the IPv6 one at 110 ms. -/
theorem krNsrepSort_sorted_ipv6_first :
    nsTwoAddrs.addr.headD .unspec ≠ .unspec ∧
      (∃ promoted, NsrepSortSpec rttCtx 0 (fun _ => 0) nsTwoAddrs
        (nsrepScores rttCtx 0 (fun _ => 0) 0 ⟨rttCtx.cacheRtt, false⟩
          (nsTwoAddrs.addr.take krNsrepMaxaddr)).1 promoted
        (krNsrepSort rttCtx 0 (fun _ => 0) nsTwoAddrs)) ∧
      (krNsrepSort rttCtx 0 (fun _ => 0) nsTwoAddrs).2.1 =
        ⟨110, 0, [.inet6 addrB, .inet addrA, .unspec, .unspec]⟩ :=
  ⟨by decide, krNsrepSort_sorted rttCtx 0 (fun _ => 0) nsTwoAddrs (by decide), by decide⟩

end KnotResolver.Nsrep
