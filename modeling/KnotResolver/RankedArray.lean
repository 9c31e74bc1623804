import KnotResolver.Ranked
import KnotResolver.Fold

/-! Adding an RRset to a ranked array (`kr_ranked_rrarray_add` of `lib/utils.c`). Records of one
RRset arrive one by one, so an RRset of the same query that is already stashed absorbs the new
records instead of getting a second entry; a new entry marked for the wire takes the mark from
the entries of other queries forming the same RRset.

`kr_ranked_rrarray_set_wire` marks the entries of a query, and with `check_dups` clears the mark
of the entries of other queries forming the same RRset; `set_yield` of `lib/resolve.c` sets the
yielded flag of a query's entries. Each of these calls, and an add that makes a new entry, keeps
entries of two queries from forming the same RRset on the wire (`crossUnique_rankedRun`). An add
that merges into a stashed entry marks it for the wire without clearing the other queries'
entries, so the same RRset can reach the wire twice (`rankedRrarray_merge_wire_dup`). -/

namespace KnotResolver

/-- `rrsets_match`: the two would form the same RRset. -/
def rrsetsMatch (rr1 rr2 : Rrset) : Bool :=
  rr1.type == rr2.type && rr1.rclass == rr2.rclass &&
    (rr2.type != knotRrtypeRrsig ||
      rr1.rdata.knotRrsigTypeCovered == rr2.rdata.knotRrsigTypeCovered) &&
    rr1.owner == rr2.owner

/-- `knot_rdataset_merge`: the union of two record sets (libknot keeps them in canonical order,
which nothing here reads). -/
def knotRdatasetMerge (rrs add : List Rdata) : List Rdata := rrs ++ add.filter (· ∉ rrs)

/-- The backward scan of `kr_ranked_rrarray_add`, over the array read from its end: the first
entry of the same query forming the same RRset absorbs the records, provided it has the same rank
and is not cached. A yielded entry or one of another query ends the scan with `none`. -/
def mergeStashed (rr : Rrset) (rank : UInt8) (toWire : Bool) (qryUid : UInt32) :
    List RankedEntry → Option (Int × List RankedEntry)
  | [] => none
  | stashed :: rest =>
    if stashed.yielded then none
    else if stashed.qryUid ≠ qryUid then none
    else if !rrsetsMatch stashed.rr rr then
      (mergeStashed rr rank toWire qryUid rest).map fun r => (r.1, stashed :: r.2)
    else if stashed.rank = rank ∧ stashed.cached = false then
      some (krOk, { stashed with
        toWire := stashed.toWire || toWire
        rr := { stashed.rr with rrs := knotRdatasetMerge stashed.rr.rrs rr.rrs } } :: rest)
    else some (krError EEXIST, stashed :: rest)

/-- `to_wire_ensure_unique` for a new entry `e0`: entries of other queries forming the same RRset
lose their mark for the wire. -/
def toWireEnsureUnique (arr : List RankedEntry) (e0 : RankedEntry) : List RankedEntry :=
  if !e0.toWire then arr
  else arr.map fun ei =>
    if ei.qryUid = e0.qryUid ∨ ei.toWire = false then ei
    else if rrsetsMatch ei.rr e0.rr then { ei with toWire := false } else ei

/-- `kr_ranked_rrarray_add`. -/
def krRankedRrarrayAdd (arr : List RankedEntry) (rr : Rrset) (rank : UInt8) (toWire : Bool)
    (qryUid : UInt32) : Int × List RankedEntry :=
  match mergeStashed rr rank toWire qryUid arr.reverse with
  | some r => (r.1, r.2.reverse)
  | none =>
    let entry : RankedEntry := { qryUid, rank, toWire, rr }
    (krOk, toWireEnsureUnique (arr ++ [entry]) entry)

/-- `kr_ranked_rrarray_set_wire`, one round: an entry of the query that passes `extraCheck` gets
the mark, and with `check_dups` the entries of other queries forming the same RRset lose theirs. -/
def setWireStep (toWire : Bool) (qryUid : UInt32) (checkDups : Bool)
    (extraCheck : Option (RankedEntry → Bool)) (arr : List RankedEntry) (i : Nat) :
    List RankedEntry :=
  match arr[i]? with
  | none => arr
  | some entry =>
    if entry.qryUid ≠ qryUid then arr
    else if extraCheck.any (fun check => !check entry) then arr
    else
      let entry := { entry with toWire }
      if checkDups then toWireEnsureUnique (arr.set i entry) entry else arr.set i entry

/-- `kr_ranked_rrarray_set_wire`. `to_wire_ensure_unique` cannot fail on an index of the array,
so the call always returns `kr_ok`. -/
def krRankedRrarraySetWire (arr : List RankedEntry) (toWire : Bool) (qryUid : UInt32)
    (checkDups : Bool) (extraCheck : Option (RankedEntry → Bool)) : List RankedEntry :=
  (List.range arr.length).foldl (setWireStep toWire qryUid checkDups extraCheck) arr

/-- `set_yield` of `lib/resolve.c`. -/
def setYield (arr : List RankedEntry) (qryUid : UInt32) (yielded : Bool) : List RankedEntry :=
  arr.map fun entry => if entry.qryUid = qryUid then { entry with yielded } else entry

/-- The calls that change a ranked array. -/
inductive RankedOp where
  | add (rr : Rrset) (rank : UInt8) (toWire : Bool) (qryUid : UInt32)
  | setWire (toWire : Bool) (qryUid : UInt32) (checkDups : Bool)
      (extraCheck : Option (RankedEntry → Bool))
  | setYield (qryUid : UInt32) (yielded : Bool)

/-- The array after a call. -/
def rankedStep (arr : List RankedEntry) : RankedOp → List RankedEntry
  | .add rr rank toWire qryUid => (krRankedRrarrayAdd arr rr rank toWire qryUid).2
  | .setWire toWire qryUid checkDups extraCheck =>
    krRankedRrarraySetWire arr toWire qryUid checkDups extraCheck
  | .setYield qryUid yielded => setYield arr qryUid yielded

/-- The array after a sequence of calls. -/
def rankedRun (arr : List RankedEntry) (ops : List RankedOp) : List RankedEntry :=
  ops.foldl rankedStep arr

/-! ## RRsets of two queries on the wire -/

/-- Entries of two queries, both marked for the wire, forming the same RRset: the RRset would be
written twice. -/
def CrossDup (x y : RankedEntry) : Prop :=
  x.qryUid ≠ y.qryUid ∧ x.toWire = true ∧ y.toWire = true ∧ rrsetsMatch x.rr y.rr = true

instance (x y : RankedEntry) : Decidable (CrossDup x y) :=
  inferInstanceAs (Decidable (_ ∧ _))

/-- No two queries have the same RRset on the wire. -/
def CrossUnique (arr : List RankedEntry) : Prop := ∀ x ∈ arr, ∀ y ∈ arr, ¬CrossDup x y

instance (arr : List RankedEntry) : Decidable (CrossUnique arr) :=
  inferInstanceAs (Decidable (∀ x ∈ arr, ∀ y ∈ arr, ¬CrossDup x y))

theorem rrsetsMatch_comm (rr1 rr2 : Rrset) : rrsetsMatch rr1 rr2 = rrsetsMatch rr2 rr1 := by
  by_cases ht : rr1.type = rr2.type
  · simp only [rrsetsMatch]
    rw [ht, BEq.comm (a := rr1.rclass), BEq.comm (a := rr1.owner),
      BEq.comm (a := rr1.rdata.knotRrsigTypeCovered)]
  · -- RRsets of two types match neither way
    have h1 : (rr1.type == rr2.type) = false := by simpa using ht
    have h2 : (rr2.type == rr1.type) = false := by simpa using Ne.symm ht
    simp only [rrsetsMatch, h1, h2, Bool.false_and]

/-- An entry left on the wire by `to_wire_ensure_unique` was in the array, and, when `e0` is on
the wire, belongs to the query of `e0` or does not form its RRset. -/
theorem mem_toWireEnsureUnique {arr : List RankedEntry} {e0 x : RankedEntry}
    (hx : x ∈ toWireEnsureUnique arr e0) (hw : x.toWire = true) :
    x ∈ arr ∧ (e0.toWire = true → x.qryUid ≠ e0.qryUid → rrsetsMatch x.rr e0.rr = false) := by
  unfold toWireEnsureUnique at hx
  split at hx
  case isTrue he0 => exact ⟨hx, fun h => by simp [h] at he0⟩
  case isFalse =>
    obtain ⟨ei, hei, rfl⟩ := List.mem_map.1 hx
    -- a cleared entry is off the wire, so only the entries kept as they were remain
    split_ifs at hw ⊢ with hskip hm
    · exact ⟨hei, fun _ hq => by simp_all⟩
    · exact ⟨hei, fun _ _ => by simpa using hm⟩

/-- `to_wire_ensure_unique` for an entry `e0` restores the invariant of an array made of
entries of an array that has it and of `e0`. -/
theorem crossUnique_toWireEnsureUnique {base arr : List RankedEntry} {e0 : RankedEntry}
    (hbase : CrossUnique base) (harr : ∀ x ∈ arr, x ∈ base ∨ x = e0) :
    CrossUnique (toWireEnsureUnique arr e0) := by
  rintro x hx y hy ⟨hq, hxw, hyw, hm⟩
  obtain ⟨hx', hxe⟩ := mem_toWireEnsureUnique hx hxw
  obtain ⟨hy', hye⟩ := mem_toWireEnsureUnique hy hyw
  rcases harr x hx' with hxb | rfl <;> rcases harr y hy' with hyb | rfl
  · exact hbase x hxb y hyb ⟨hq, hxw, hyw, hm⟩
  · rw [hxe hyw hq] at hm
    exact Bool.false_ne_true hm
  · rw [rrsetsMatch_comm, hye hxw (Ne.symm hq)] at hm
    exact Bool.false_ne_true hm
  · exact hq rfl

/-- An add that makes a new entry keeps the invariant. -/
theorem crossUnique_krRankedRrarrayAdd {arr : List RankedEntry} {rr : Rrset} {rank : UInt8}
    {toWire : Bool} {qryUid : UInt32} (h : CrossUnique arr)
    (hnew : mergeStashed rr rank toWire qryUid arr.reverse = none) :
    CrossUnique (krRankedRrarrayAdd arr rr rank toWire qryUid).2 := by
  rw [krRankedRrarrayAdd, hnew]
  exact crossUnique_toWireEnsureUnique h fun x hx => by simpa using hx

section SetWire

variable {toWire : Bool} {qryUid : UInt32} {checkDups : Bool}
  {extraCheck : Option (RankedEntry → Bool)}

/-- A round of `kr_ranked_rrarray_set_wire` that checks duplicates or clears marks keeps the
invariant. -/
theorem crossUnique_setWireStep (hdup : checkDups = true ∨ toWire = false)
    {arr : List RankedEntry} (h : CrossUnique arr) (i : Nat) :
    CrossUnique (setWireStep toWire qryUid checkDups extraCheck arr i) := by
  unfold setWireStep
  split
  case h_1 => exact h
  case h_2 entry _ =>
    split_ifs with hq hcheck hc
    · exact h
    · exact h
    · exact crossUnique_toWireEnsureUnique h fun x hx => List.mem_or_eq_of_mem_set hx
    · -- without the check the mark is only cleared, so a marked entry is an old one
      have hw : toWire = false := hdup.resolve_left (by simpa using hc)
      have hold : ∀ x ∈ arr.set i { entry with toWire }, x.toWire = true → x ∈ arr :=
        fun x hx hxw => (List.mem_or_eq_of_mem_set hx).resolve_right fun he => by simp_all
      rintro x hx y hy hd
      exact h x (hold x hx hd.2.1) y (hold y hy hd.2.2.1) hd

theorem crossUnique_krRankedRrarraySetWire (hdup : checkDups = true ∨ toWire = false)
    {arr : List RankedEntry} (h : CrossUnique arr) :
    CrossUnique (krRankedRrarraySetWire arr toWire qryUid checkDups extraCheck) :=
  List.foldl_invariant CrossUnique (fun _ i _ hs => crossUnique_setWireStep hdup hs i) h

end SetWire

/-- `set_yield` touches no mark, query or RRset. -/
theorem crossUnique_setYield {arr : List RankedEntry} (h : CrossUnique arr) (qryUid : UInt32)
    (yielded : Bool) : CrossUnique (setYield arr qryUid yielded) := by
  have hview : ∀ e : RankedEntry, ∀ e' ∈ setYield [e] qryUid yielded,
      e'.qryUid = e.qryUid ∧ e'.toWire = e.toWire ∧ e'.rr = e.rr := by
    intro e e' he'
    simp only [setYield, List.map_cons, List.map_nil, List.mem_singleton] at he'
    split at he' <;> simp [he']
  rintro x hx y hy ⟨hq, hxw, hyw, hm⟩
  obtain ⟨a, ha, rfl⟩ := List.mem_map.1 hx
  obtain ⟨b, hb, rfl⟩ := List.mem_map.1 hy
  obtain ⟨hqa, hwa, hra⟩ := hview a _ (List.mem_singleton_self _)
  obtain ⟨hqb, hwb, hrb⟩ := hview b _ (List.mem_singleton_self _)
  rw [hqa, hqb] at hq
  rw [hwa] at hxw
  rw [hwb] at hyw
  rw [hra, hrb] at hm
  exact h a ha b hb ⟨hq, hxw, hyw, hm⟩

/-- The calls that keep the invariant: all but an add that merges into a stashed entry and a
`set_wire` that marks entries without checking duplicates. -/
def RankedOp.KeepsCross (arr : List RankedEntry) : RankedOp → Prop
  | .add rr rank toWire qryUid => mergeStashed rr rank toWire qryUid arr.reverse = none
  | .setWire toWire _ checkDups _ => checkDups = true ∨ toWire = false
  | .setYield _ _ => True

/-- A run all of whose calls keep the invariant, each from the array it is made on. -/
def KeepsCrossRun : List RankedEntry → List RankedOp → Prop
  | _, [] => True
  | arr, op :: ops => op.KeepsCross arr ∧ KeepsCrossRun (rankedStep arr op) ops

theorem crossUnique_rankedStep {arr : List RankedEntry} {op : RankedOp} (h : CrossUnique arr)
    (hop : op.KeepsCross arr) : CrossUnique (rankedStep arr op) := by
  cases op with
  | add rr rank toWire qryUid => exact crossUnique_krRankedRrarrayAdd h hop
  | setWire toWire qryUid checkDups extraCheck => exact crossUnique_krRankedRrarraySetWire hop h
  | setYield qryUid yielded => exact crossUnique_setYield h qryUid yielded

/-- From an array without an RRset of two queries on the wire, a run of calls none of which
merges into a stashed entry or marks without checking keeps it so. -/
theorem crossUnique_rankedRun {ops : List RankedOp} :
    ∀ {arr : List RankedEntry}, CrossUnique arr → KeepsCrossRun arr ops →
      CrossUnique (rankedRun arr ops) := by
  induction ops with
  | nil => exact fun h _ => h
  | cons op ops ih =>
    rintro arr h ⟨hop, hops⟩
    exact ih (crossUnique_rankedStep h hop) hops

/-- The A record of `ns.`, as glue. -/
def nsGlue : Rrset :=
  { owner := [[0x6e, 0x73]], type := knotRrtypeA, rclass := 1, ttl := 300,
    rrs := [.raw [192, 0, 2, 1]] }

/-- Query 2 puts the glue on the wire and query 1 stashes it off the wire, both with rank 0; when
query 1 then adds it for the wire, the add merges into its stashed entry, which both queries
now have on the wire. -/
theorem rankedRrarray_merge_wire_dup :
    CrossUnique (rankedRun [] [.add nsGlue 0 true 2, .add nsGlue 0 false 1]) ∧
      (krRankedRrarrayAdd (rankedRun [] [.add nsGlue 0 true 2, .add nsGlue 0 false 1])
        nsGlue 0 true 1).1 = krOk ∧
      ∃ x ∈ (krRankedRrarrayAdd (rankedRun [] [.add nsGlue 0 true 2, .add nsGlue 0 false 1])
          nsGlue 0 true 1).2,
        ∃ y ∈ (krRankedRrarrayAdd (rankedRun [] [.add nsGlue 0 true 2, .add nsGlue 0 false 1])
          nsGlue 0 true 1).2, CrossDup x y := by
  -- neither add of the run merges into a stashed entry, so the run keeps the invariant
  have hkeeps : KeepsCrossRun [] [.add nsGlue 0 true 2, .add nsGlue 0 false 1] := ⟨rfl, rfl, trivial⟩
  refine ⟨crossUnique_rankedRun (by decide) hkeeps, ?_⟩
  decide

end KnotResolver
