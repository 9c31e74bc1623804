import KnotResolver.Generic.MapWf
import KnotResolver.Fold

/-!
# The crit-bit tree is a finite map

What `map_t` is for: a finite map from C strings to values (`AList` here). A tree with the
invariant holds such a map when its leaves are the map's entries (`MapT.Refines`); then
`map_get` reads the map (`MapT.Refines.mapGet`), and `map_set` and `map_del` change the tree as
`insert` and `erase` change the map and return 0 or 1 as the key was absent or present
(`MapT.Refines.mapSet`, `MapT.Refines.mapDel`). From `map_make`, every run of calls therefore
reads the map the same calls build (`mapRun_refines`).

`map_walk_prefixed` calls its callback on the entries whose key starts with the prefix, in the
order of `strcmp`, until it returns nonzero (`mapWalkPrefixed_eq`).
-/

namespace KnotResolver.Generic

variable {α : Type u}

/-! ## The first difference -/

section Diff

variable (key : List UInt8)

/-- One more byte of `str` matched: the round of the loops of `map_set` that goes on. -/
theorem getD_snoc_match {pre : List UInt8} {u : UInt8}
    (hpre : ∀ j < pre.length, key.getD j 0 = pre.getD j 0) (hu : key.getD pre.length 0 = u) :
    ∀ j < (pre ++ [u]).length, key.getD j 0 = (pre ++ [u]).getD j 0 := by
  intro j hj
  rw [List.length_append, List.length_singleton] at hj
  rcases Nat.lt_succ_iff_lt_or_eq.1 hj with hj | rfl
  · rw [List.getD_append _ _ _ _ hj]
    exact hpre j hj
  · simpa using hu

/-- The loops of `map_set` find no difference only when the key matches `str` up to and including
the terminator of `str`. -/
theorem cbtDiffFrom_eq_none : ∀ (rest pre : List UInt8),
    cbtDiffFrom key rest pre.length = none → (∀ j < pre.length, key.getD j 0 = pre.getD j 0) →
      ∀ j ≤ (pre ++ rest).length, key.getD j 0 = (pre ++ rest).getD j 0
  | [], pre, hd, hpre, j, hj => by
    rw [cbtDiffFrom] at hd
    split at hd
    · cases hd
    next hz =>
    rw [List.append_nil] at hj ⊢
    rcases Nat.lt_or_eq_of_le hj with hj | rfl
    · exact hpre j hj
    · rw [List.getD_eq_default _ _ (Nat.le_refl _)]
      simpa using hz
  | u :: rest, pre, hd, hpre, j, hj => by
    rw [cbtDiffFrom] at hd
    split at hd
    · cases hd
    next hu =>
    have h := cbtDiffFrom_eq_none rest (pre ++ [u]) (by simpa using hd)
      (getD_snoc_match key hpre (not_not.1 hu)) j (by simpa using hj)
    simpa using h

/-- Where the loops of `map_set` find a difference, the key matches `str` before that byte and the
difference there is not zero. -/
theorem cbtDiffFrom_eq_some : ∀ (rest pre : List UInt8) {newbyte : Nat} {d : UInt8},
    cbtDiffFrom key rest pre.length = some (newbyte, d) →
    (∀ j < pre.length, key.getD j 0 = pre.getD j 0) →
      (∀ j < newbyte, key.getD j 0 = (pre ++ rest).getD j 0) ∧
        d = key.getD newbyte 0 ^^^ (pre ++ rest).getD newbyte 0 ∧ d ≠ 0
  | [], pre, newbyte, d, hd, hpre => by
    rw [cbtDiffFrom] at hd
    split at hd
    · next hz =>
      obtain ⟨rfl, rfl⟩ := Prod.mk.inj (Option.some.inj hd)
      refine ⟨fun j hj => by simpa using hpre j hj, by simp, hz⟩
    · cases hd
  | u :: rest, pre, newbyte, d, hd, hpre => by
    rw [cbtDiffFrom] at hd
    split at hd
    · next hu =>
      obtain ⟨rfl, rfl⟩ := Prod.mk.inj (Option.some.inj hd)
      refine ⟨fun j hj => ?_, by simp, fun h0 => hu ?_⟩
      · rw [List.getD_append _ _ _ _ hj]
        exact hpre j hj
      · simpa using congrArg (· ^^^ u) h0
    next hu =>
    simpa using cbtDiffFrom_eq_some rest (pre ++ [u]) (by simpa using hd)
      (getD_snoc_match key hpre (not_not.1 hu))

/-- No difference between two C strings means they are equal. -/
theorem eq_of_cbtDiffFrom_eq_none {str : List UInt8} (hk : 0 ∉ key) (hs : 0 ∉ str)
    (hd : cbtDiffFrom key str 0 = none) : key = str := by
  have h := cbtDiffFrom_eq_none key str [] hd (by simp)
  rw [List.nil_append] at h
  -- the key ends where `str` does
  have hlen : key.length ≤ str.length := by
    by_contra hlt
    have hz := h str.length (Nat.le_refl _)
    rw [List.getD_eq_default _ _ (Nat.le_refl _), List.getD_eq_getElem _ _ (by omega)] at hz
    exact hk (hz ▸ List.getElem_mem _)
  refine eq_of_getD_eq hk hs fun j => ?_
  by_cases hj : j ≤ str.length
  · exact h j hj
  · rw [List.getD_eq_default _ _ (by omega), List.getD_eq_default _ _ (by omega)]

/-- A difference found by `map_set` gives the first bit where `str` and the key differ, and the
node it makes tests that bit. -/
theorem firstDiff_of_cbtDiffFrom_eq_some {str : List UInt8} {newbyte : Nat} {d : UInt8}
    (hd : cbtDiffFrom key str 0 = some (newbyte, d)) :
    ∃ i : Fin 8, cbOtherbits d = critMask i ∧ AgreeBits str key (bitPos newbyte i) ∧
      bitAt str (bitPos newbyte i) ≠ bitAt key (bitPos newbyte i) := by
  obtain ⟨hbytes, rfl, hd0⟩ := cbtDiffFrom_eq_some key str [] hd (by simp)
  rw [List.nil_append] at hbytes
  obtain ⟨i, hmask, hbit, hhigh⟩ := cbOtherbits_spec _ hd0
  obtain ⟨hagree, hne⟩ := agreeBits_of_firstDiff i.isLt hbytes hbit
    fun j hij hj8 => hhigh ⟨j, hj8⟩ hij
  exact ⟨i, hmask, hagree.symm, Ne.symm hne⟩

end Diff

/-! ## The map a tree holds -/

namespace MapT

/-- The entries of the map, `child[0]` before `child[1]`. -/
def toList (m : MapT α) : List (List UInt8 × α) := (m.root.map CbRef.toList).getD []

/-- The invariant of the tree, if any. -/
def Wf (m : MapT α) : Prop := ∀ p ∈ m.root, p.Wf

/-- The tree of `m` keeps the invariant and its leaves are the entries of `a`. -/
structure Refines (m : MapT α) (a : AList fun _ : List UInt8 => α) : Prop where
  wf : m.Wf
  mem_iff : ∀ k v, (k, v) ∈ m.toList ↔ a.lookup k = some v

end MapT

theorem MapT.Wf.mapGet_eq_some_iff {m : MapT α} (h : m.Wf) {str : List UInt8} {v : α} :
    mapGet m str = some v ↔ (str, v) ∈ m.toList := by
  obtain ⟨_ | p⟩ := m
  · simp [mapGet, cbtGet, MapT.toList]
  · have hp : p.Wf := h p rfl
    simp only [mapGet, cbtGet, MapT.toList, Option.map_some, Option.getD_some]
    constructor
    · intro hget
      split at hget
      · next heq =>
        cases hget
        rw [show (str, (cbtWalk str p).2) = cbtWalk str p from Prod.ext heq rfl]
        exact cbtWalk_mem str p
      · cases hget
    · intro hmem
      rw [hp.cbtWalk_of_mem hmem, if_pos rfl]

namespace MapT.Refines

variable {m : MapT α} {a : AList fun _ : List UInt8 => α}

/-- `map_get` reads the map. -/
theorem mapGet (h : m.Refines a) (str : List UInt8) : Generic.mapGet m str = a.lookup str :=
  Option.ext fun _ => h.wf.mapGet_eq_some_iff.trans (h.mem_iff _ _)

theorem mem_keys_iff {p : CbRef α} (h : (⟨some p⟩ : MapT α).Refines a) (str : List UInt8) :
    str ∈ p.keys ↔ str ∈ a := by
  rw [← AList.lookup_isSome, Option.isSome_iff_exists]
  constructor
  · intro hs
    obtain ⟨⟨k, v⟩, hmem, rfl⟩ := List.mem_map.1 hs
    exact ⟨v, (h.mem_iff k v).1 hmem⟩
  · rintro ⟨v, hv⟩
    exact CbRef.mem_keys_of_mem ((h.mem_iff str v).2 hv)

theorem not_mem_of_root_none (h : (⟨none⟩ : MapT α).Refines a) (str : List UInt8) : str ∉ a := by
  rw [← AList.lookup_eq_none, Option.eq_none_iff_forall_ne_some]
  intro v hv
  simpa [MapT.toList] using (h.mem_iff str v).2 hv

/-- The entries of the map after `insert`. -/
theorem lookup_insert_eq_some_iff {k str : List UInt8} {v val : α} :
    (a.insert str val).lookup k = some v ↔ (k = str ∧ v = val) ∨ (k ≠ str ∧ a.lookup k = some v) := by
  by_cases hk : k = str
  · subst hk
    rw [AList.lookup_insert, Option.some.injEq]
    simp [eq_comm]
  · rw [AList.lookup_insert_ne hk]
    simp [hk]

/-- `map_set` on an empty map makes the new key its root leaf. -/
theorem mapSet_none (h : (⟨none⟩ : MapT α).Refines a) {str : List UInt8} (hstr : 0 ∉ str)
    (val : α) :
    (Generic.mapSet ⟨none⟩ str val).1.Refines (a.insert str val) ∧
      (Generic.mapSet ⟨none⟩ str val).2 = if str ∈ a then 1 else 0 := by
  refine ⟨⟨fun q hq => by cases hq; exact .data hstr, fun k v => ?_⟩, ?_⟩
  · rw [lookup_insert_eq_some_iff]
    have hk : a.lookup k ≠ some v := fun hv => by simpa [MapT.toList] using (h.mem_iff k v).2 hv
    simp [Generic.mapSet, MapT.toList, hk]
  · rw [if_neg (h.not_mem_of_root_none str)]
    rfl

/-- `map_set` of a present key sets the value of its leaf. -/
theorem mapSet_present {p : CbRef α} (h : (⟨some p⟩ : MapT α).Refines a) {str : List UInt8}
    (hstr : str ∈ p.keys) (val : α) :
    (⟨some (cbtSetValue str val p)⟩ : MapT α).Refines (a.insert str val) := by
  have hp : p.Wf := h.wf p rfl
  refine ⟨fun q hq => by cases hq; exact hp.cbtSetValue val, fun k v => ?_⟩
  rw [lookup_insert_eq_some_iff]
  simp only [MapT.toList, Option.map_some, Option.getD_some, hp.cbtSetValue_toList hstr val,
    List.mem_map]
  constructor
  · rintro ⟨⟨k', v'⟩, hmem, heq⟩
    unfold setEntry at heq
    split at heq
    · next hk' =>
      cases heq
      exact .inl ⟨rfl, rfl⟩
    · next hk' =>
      cases heq
      exact .inr ⟨hk', (h.mem_iff k v).1 hmem⟩
  · rintro (⟨rfl, rfl⟩ | ⟨hk, hv⟩)
    · obtain ⟨⟨k', v'⟩, hmem, rfl⟩ := List.mem_map.1 hstr
      exact ⟨(k', v'), hmem, by simp [setEntry]⟩
    · exact ⟨(k, v), (h.mem_iff k v).2 hv, by simp [setEntry, hk]⟩

/-- `map_set` of an absent key adds its leaf below a new node. -/
theorem mapSet_absent {p : CbRef α} (h : (⟨some p⟩ : MapT α).Refines a) {str : List UInt8}
    (hstr : 0 ∉ str) (hs : str ∉ p.keys) {newbyte : Nat} {i : Fin 8} (val : α)
    (hagree : AgreeBits str (cbtWalk str p).1 (bitPos newbyte i))
    (hdiff : bitAt str (bitPos newbyte i) ≠ bitAt (cbtWalk str p).1 (bitPos newbyte i)) :
    (⟨some (cbtInsert str (.data str val) newbyte (critMask i)
      (if bitAt (cbtWalk str p).1 (bitPos newbyte i) then 1 else 0) p)⟩ : MapT α).Refines
      (a.insert str val) := by
  have hp : p.Wf := h.wf p rfl
  refine ⟨fun q hq => by cases hq; exact hp.cbtInsert hstr hagree hdiff rfl, fun k v => ?_⟩
  rw [lookup_insert_eq_some_iff]
  simp only [MapT.toList, Option.map_some, Option.getD_some]
  rw [(cbtInsert_toList_perm ..).mem_iff, CbRef.toList_data, List.singleton_append,
    List.mem_cons, Prod.mk.injEq]
  by_cases hk : k = str
  · subst hk
    have hv : (k, v) ∉ p.toList := fun hv => hs (CbRef.mem_keys_of_mem hv)
    simp [hv]
  · simpa [hk, MapT.toList] using h.mem_iff k v

/-- `map_set` adds an absent key, returning 0, and replaces the value of a present one,
returning 1. -/
theorem mapSet (h : m.Refines a) {str : List UInt8} (hstr : 0 ∉ str) (val : α) :
    (Generic.mapSet m str val).1.Refines (a.insert str val) ∧
      (Generic.mapSet m str val).2 = if str ∈ a then 1 else 0 := by
  obtain ⟨_ | p⟩ := m
  · exact mapSet_none h hstr val
  have hp : p.Wf := h.wf p rfl
  have hk0 := hp.zero_free _ (cbtWalk_mem_keys str p)
  -- the leaf `str` reaches holds `str` exactly when the loops find no difference
  cases hd : cbtDiffFrom (cbtWalk str p).1 str 0 with
  | none =>
    have hs : str ∈ p.keys := (hp.cbtWalk_eq_iff str).1 (eq_of_cbtDiffFrom_eq_none _ hk0 hstr hd)
    simp only [Generic.mapSet, hd]
    exact ⟨mapSet_present h hs val, by rw [if_pos ((mem_keys_iff h str).1 hs)]⟩
  | some nd =>
    obtain ⟨newbyte, d⟩ := nd
    obtain ⟨i, hmask, hagree, hdiff⟩ := firstDiff_of_cbtDiffFrom_eq_some _ hd
    have hs : str ∉ p.keys := fun hs => hdiff (by rw [(hp.cbtWalk_eq_iff str).2 hs])
    simp only [Generic.mapSet, hd, hmask, cbDirection_critMask_getD]
    exact ⟨mapSet_absent h hstr hs val hagree hdiff, by rw [if_neg (mt (mem_keys_iff h str).2 hs)]⟩

/-- `map_del` removes a present key, returning 0, and returns 1 for an absent one. -/
theorem mapDel (h : m.Refines a) (str : List UInt8) :
    (Generic.mapDel m str).1.Refines (a.erase str) ∧
      (Generic.mapDel m str).2 = if str ∈ a then 0 else 1 := by
  obtain ⟨_ | p⟩ := m
  · have hs := h.not_mem_of_root_none str
    refine ⟨⟨h.wf, fun k v => ?_⟩, by rw [if_neg hs]; rfl⟩
    change (k, v) ∈ MapT.toList ⟨none⟩ ↔ _
    rw [h.mem_iff k v]
    by_cases hk : k = str
    · subst hk
      rw [AList.lookup_erase, AList.lookup_eq_none.2 hs]
    · rw [AList.lookup_erase_ne hk]
  have hp : p.Wf := h.wf p rfl
  cases hd : cbtDelete str p with
  | none =>
    have hs : str ∉ p.keys := fun hs =>
      (cbtDelete_eq_none_iff str p).1 hd ((hp.cbtWalk_eq_iff str).2 hs)
    simp only [Generic.mapDel, hd]
    refine ⟨⟨h.wf, fun k v => ?_⟩, by rw [if_neg (mt (mem_keys_iff h str).2 hs)]⟩
    by_cases hk : k = str
    · subst hk
      rw [AList.lookup_erase]
      simpa [MapT.toList] using fun hv => hs (CbRef.mem_keys_of_mem hv)
    · rw [AList.lookup_erase_ne hk, h.mem_iff]
  | some r =>
    have hs : str ∈ p.keys := (hp.cbtWalk_eq_iff str).1
      (not_not.1 (mt (cbtDelete_eq_none_iff str p).2 (by rw [hd]; simp)))
    obtain ⟨hwf, hl⟩ := hp.cbtDelete hd
    simp only [Generic.mapDel, hd]
    refine ⟨⟨hwf, fun k v => ?_⟩, by rw [if_pos ((mem_keys_iff h str).1 hs)]⟩
    change (k, v) ∈ (r.map CbRef.toList).getD [] ↔ _
    rw [hl, List.mem_filter]
    by_cases hk : k = str
    · subst hk
      simp [AList.lookup_erase]
    · rw [AList.lookup_erase_ne hk, ← h.mem_iff]
      simp [MapT.toList, hk]

end MapT.Refines

/-! ## Runs -/

/-- A call of a run: `map_set` or `map_del`. -/
inductive MapOp (α : Type u) where
  | set (str : List UInt8) (val : α)
  | del (str : List UInt8)
  deriving Repr, DecidableEq

namespace MapOp

/-- The call on the tree, and what it returns. -/
def step : MapOp α → MapT α → MapT α × Int
  | .set str val, m => mapSet m str val
  | .del str, m => mapDel m str

/-- The call on the finite map, and what the source returns for it. -/
def apply : MapOp α → (AList fun _ : List UInt8 => α) → (AList fun _ : List UInt8 => α) × Int
  | .set str val, a => (a.insert str val, if str ∈ a then 1 else 0)
  | .del str, a => (a.erase str, if str ∈ a then 0 else 1)

/-- The key of `map_set` is a C string. -/
def KeyOk : MapOp α → Prop
  | .set str _ => 0 ∉ str
  | .del _ => True

instance (op : MapOp α) : Decidable op.KeyOk :=
  match op with
  | .set _ _ => inferInstanceAs (Decidable (_ ∉ _))
  | .del _ => inferInstanceAs (Decidable True)

/-- The finite map a run of calls builds from the empty one, and what the calls return. -/
def run (ops : List (MapOp α)) : (AList fun _ : List UInt8 => α) × List Int :=
  ops.foldl (fun s op => ((op.apply s.1).1, s.2 ++ [(op.apply s.1).2])) (∅, [])

end MapOp

/-- A run of calls from `map_make`: the map it leaves and what the calls return. -/
def mapRun (ops : List (MapOp α)) : MapT α × List Int :=
  ops.foldl (fun s op => ((op.step s.1).1, s.2 ++ [(op.step s.1).2])) (mapMake, [])

theorem mapMake_refines : (mapMake : MapT α).Refines ∅ := by
  refine ⟨fun _ hp => by simp [mapMake] at hp, fun k v => ?_⟩
  simp [MapT.toList, mapMake]

/-- Each call keeps the tree holding the finite map, and returns what the finite map says. -/
theorem MapT.Refines.step {m : MapT α} {a : AList fun _ : List UInt8 => α} (h : m.Refines a)
    {op : MapOp α} (hop : op.KeyOk) :
    (op.step m).1.Refines (op.apply a).1 ∧ (op.step m).2 = (op.apply a).2 := by
  cases op with
  | set str val => exact h.mapSet hop val
  | del str => exact h.mapDel str

/-- From `map_make`, every run of calls the tree holds the map the same calls build, and the
calls return the same values. -/
theorem mapRun_spec (ops : List (MapOp α)) (hops : ∀ op ∈ ops, op.KeyOk) :
    (mapRun ops).1.Refines (MapOp.run ops).1 ∧ (mapRun ops).2 = (MapOp.run ops).2 := by
  unfold mapRun MapOp.run
  refine List.foldl_simulation
    (fun (s : MapT α × List Int) (t : (AList fun _ : List UInt8 => α) × List Int) =>
      s.1.Refines t.1 ∧ s.2 = t.2)
    (fun s t op hop h => ⟨(h.1.step (hops op hop)).1, ?_⟩) ⟨mapMake_refines, rfl⟩
  rw [h.2, (h.1.step (hops op hop)).2]

example : (mapRun [MapOp.set [0x62] 1, .set [0x61, 0x62] 2, .set [0x61] (3 : Nat), .set [0x61] 4,
    .del [0x63], .del [0x62]]).2 = [0, 0, 0, 1, 1, 0] := by
  decide

/-! ## Walks -/

section Walk

variable {σ : Type v} (callback : List UInt8 → α → σ → Int × σ)

/-- The callback on each entry in turn, until it returns nonzero. -/
def walkList : List (List UInt8 × α) → σ → Int × σ
  | [], baton => (0, baton)
  | (key, value) :: rest, baton =>
    let r := callback key value baton
    if r.1 ≠ 0 then r else walkList rest r.2

theorem walkList_append (l₁ l₂ : List (List UInt8 × α)) (baton : σ) :
    walkList callback (l₁ ++ l₂) baton =
      let r := walkList callback l₁ baton
      if r.1 ≠ 0 then r else walkList callback l₂ r.2 := by
  induction l₁ generalizing baton with
  | nil => simp [walkList]
  | cons e l₁ ih =>
    obtain ⟨key, value⟩ := e
    simp only [List.cons_append, walkList]
    by_cases hr : (callback key value baton).1 ≠ 0
    · simp [hr]
    · simp only [hr, if_false]
      exact ih _

theorem ite_ne_zero_self (r : Int × σ) : (if r.1 ≠ 0 then r else (0, r.2)) = r := by
  split
  · rfl
  · next h => exact Prod.ext (not_not.1 h).symm rfl

/-- `cbt_traverse_prefixed` calls the callback on the leaves in order. -/
theorem cbtTraversePrefixed_eq :
    ∀ (p : CbRef α) (baton : σ), cbtTraversePrefixed callback p baton = walkList callback p.toList baton
  | .data key value, baton => by
    rw [cbtTraversePrefixed, CbRef.toList_data, walkList, walkList, ite_ne_zero_self]
  | .node _ _ child0 child1, baton => by
    rw [cbtTraversePrefixed, CbRef.toList_node, walkList_append, cbtTraversePrefixed_eq child0,
      cbtTraversePrefixed_eq child1, ite_ne_zero_self]

end Walk

section Descend

variable (pfx : List UInt8)

/-- The loop of `map_walk_prefixed` reaches the leaf a walk with the prefix does. -/
theorem cbtPrefixDescend_fst : ∀ (p top : CbRef α),
    (cbtPrefixDescend pfx p top).1 = cbtWalk pfx p
  | .data .., _ => rfl
  | .node _ _ child0 child1, _ => by
    rw [cbtPrefixDescend, cbtWalk]
    split
    · exact cbtPrefixDescend_fst child0 _
    · exact cbtPrefixDescend_fst child1 _

theorem CbRef.TestsFrom.mono {p : CbRef α} {n n' : Nat} (h : p.TestsFrom n) (hn : n' ≤ n) :
    p.TestsFrom n' := by
  cases p with
  | data => trivial
  | node byte => exact Nat.le_trans hn h

/-- Below the nodes that test a byte of the prefix, `top` stays where it is. -/
theorem CbRef.Wf.cbtPrefixDescend_snd {p : CbRef α} (h : p.Wf) (hp : p.TestsFrom pfx.length)
    (top : CbRef α) : (cbtPrefixDescend pfx p top).2 = top := by
  induction h generalizing top with
  | data => rfl
  | @node byte child0 child1 i h₀ h₁ hb₀ hb₁ hag ih₀ ih₁ =>
    have hchildren := (CbRef.Wf.node i h₀ h₁ hb₀ hb₁ hag).testsFrom_children
    have hbyte : ¬ byte < pfx.length := Nat.not_lt.2 hp
    rw [cbtPrefixDescend, if_neg hbyte, if_neg hbyte]
    split
    · exact ih₀ (hchildren.1.mono hp) top
    · exact ih₁ (hchildren.2.mono hp) top

/-- A key with the prefix, if any, makes the leaf that the prefix reaches start with it. -/
theorem CbRef.Wf.prefix_cbtWalk {p : CbRef α} (h : p.Wf) (hpfx : 0 ∉ pfx) {e : List UInt8 × α}
    (he : e ∈ p.toList) (hpe : pfx <+: e.1) : pfx <+: (cbtWalk pfx p).1 := by
  induction h with
  | data =>
    obtain rfl := List.mem_singleton.1 he
    exact hpe
  | @node byte child0 child1 i h₀ h₁ hb₀ hb₁ hag ih₀ ih₁ =>
    have hek : e.1 ∈ child0.keys ++ child1.keys := by
      simpa using CbRef.mem_keys_of_mem (p := .node byte (critMask i) child0 child1) he
    by_cases hbyte : byte < pfx.length
    · -- the node tests a bit of the prefix, which the key shares
      have hbit : bitAt e.1 (bitPos byte i) = bitAt pfx (bitPos byte i) :=
        agreeBits_of_isPrefix hpe _ (by unfold bitPos; omega)
      cases hdir : bitAt pfx (bitPos byte i)
      · rw [cbtWalk_node_of_false hdir]
        refine ih₀ (List.mem_append.1 he |>.resolve_right fun he₁ => ?_)
        have := hb₁ e.1 (CbRef.mem_keys_of_mem he₁)
        rw [hbit, hdir] at this
        cases this
      · rw [cbtWalk_node_of_true hdir]
        refine ih₁ (List.mem_append.1 he |>.resolve_left fun he₀ => ?_)
        have := hb₀ e.1 (CbRef.mem_keys_of_mem he₀)
        rw [hbit, hdir] at this
        cases this
    · -- the keys below agree on all the bytes of the prefix
      have hw : (cbtWalk pfx (.node byte (critMask i) child0 child1)).1 ∈ child0.keys ++ child1.keys := by
        simpa using cbtWalk_mem_keys pfx (CbRef.node byte (critMask i) child0 child1)
      exact prefix_of_prefix_agreeBits hpfx hpe (hag _ hek _ hw) (by unfold bitPos; omega)

/-- When the leaf that the prefix reaches starts with it, `top` holds the keys with the prefix,
and only them. -/
theorem CbRef.Wf.cbtPrefixDescend_toList {p : CbRef α} (h : p.Wf) (hpfx : 0 ∉ pfx)
    (hw : pfx <+: (cbtWalk pfx p).1) :
    (cbtPrefixDescend pfx p p).2.toList = p.toList.filter fun e => decide (pfx <+: e.1) := by
  induction h with
  | data =>
    rw [cbtWalk] at hw
    simp [cbtPrefixDescend, hw]
  | @node byte child0 child1 i h₀ h₁ hb₀ hb₁ hag ih₀ ih₁ =>
    have hnode := CbRef.Wf.node i h₀ h₁ hb₀ hb₁ hag
    rw [CbRef.toList_node, List.filter_append]
    by_cases hbyte : byte < pfx.length
    · -- `top` moves to the child, and the other child holds no key with the prefix
      have hoff : ∀ k ∈ child0.keys ++ child1.keys, pfx <+: k →
          bitAt k (bitPos byte i) = bitAt pfx (bitPos byte i) := fun k _ hk =>
        agreeBits_of_isPrefix hk _ (by unfold bitPos; omega)
      cases hdir : bitAt pfx (bitPos byte i)
      · have hnil : child1.toList.filter (fun e => decide (pfx <+: e.1)) = [] := by
          refine List.filter_eq_nil_iff.2 fun e he hpe => ?_
          have h1 := hb₁ e.1 (CbRef.mem_keys_of_mem he)
          rw [hoff e.1 (List.mem_append_right _ (CbRef.mem_keys_of_mem he)) (by simpa using hpe),
            hdir] at h1
          cases h1
        rw [cbtWalk_node_of_false hdir] at hw
        rw [cbtPrefixDescend, if_pos ((cbDirection_critMask_eq_zero_iff i pfx byte).2 hdir),
          if_pos hbyte, ih₀ hw, hnil, List.append_nil]
      · have hnil : child0.toList.filter (fun e => decide (pfx <+: e.1)) = [] := by
          refine List.filter_eq_nil_iff.2 fun e he hpe => ?_
          have h0 := hb₀ e.1 (CbRef.mem_keys_of_mem he)
          rw [hoff e.1 (List.mem_append_left _ (CbRef.mem_keys_of_mem he)) (by simpa using hpe),
            hdir] at h0
          cases h0
        rw [cbtWalk_node_of_true hdir] at hw
        rw [cbtPrefixDescend, if_neg (by rw [cbDirection_critMask_eq_zero_iff, hdir]; decide),
          if_pos hbyte, ih₁ hw, hnil, List.nil_append]
    · -- `top` stays at this node, all of whose keys start with the prefix
      have htop : (cbtPrefixDescend pfx (.node byte (critMask i) child0 child1)
          (.node byte (critMask i) child0 child1)).2 = .node byte (critMask i) child0 child1 :=
        hnode.cbtPrefixDescend_snd pfx (Nat.not_lt.1 hbyte) _
      have hw' : (cbtWalk pfx (.node byte (critMask i) child0 child1)).1 ∈ child0.keys ++ child1.keys := by
        simpa using cbtWalk_mem_keys pfx (CbRef.node byte (critMask i) child0 child1)
      have hall : ∀ e ∈ child0.toList ++ child1.toList, pfx <+: e.1 := by
        intro e he
        have hek : e.1 ∈ child0.keys ++ child1.keys := by
          simpa using CbRef.mem_keys_of_mem (p := .node byte (critMask i) child0 child1) he
        exact prefix_of_prefix_agreeBits hpfx hw (hag _ hw' _ hek) (by unfold bitPos; omega)
      rw [htop, CbRef.toList_node, ← List.filter_append, List.filter_eq_self.2]
      intro e he
      simpa using hall e he

end Descend

/-- The test of `map_walk_prefixed` on the leaf reached: it does not start with the prefix. -/
theorem walkCheck_iff (key pfx : List UInt8) :
    (key.length < pfx.length ∨ key.take pfx.length ≠ pfx) ↔ ¬ pfx <+: key := by
  rw [List.prefix_iff_eq_take]
  constructor
  · rintro (hlen | hne) heq
    · have := congrArg List.length heq
      simp at this
      omega
    · exact hne heq.symm
  · intro hne
    by_cases hlen : key.length < pfx.length
    · exact .inl hlen
    · exact .inr fun heq => hne heq.symm

section WalkSpec

variable {σ : Type v} (callback : List UInt8 → α → σ → Int × σ)

/-- `map_walk_prefixed` calls the callback on the entries whose key starts with the prefix, in
the order of the tree, until it returns nonzero. -/
theorem MapT.Wf.mapWalkPrefixed_eq {m : MapT α} (h : m.Wf) {pfx : List UInt8} (hpfx : 0 ∉ pfx)
    (baton : σ) :
    mapWalkPrefixed callback m pfx baton =
      walkList callback (m.toList.filter fun e => decide (pfx <+: e.1)) baton := by
  obtain ⟨_ | p⟩ := m
  · rfl
  have hp : p.Wf := h p rfl
  simp only [mapWalkPrefixed, MapT.toList, Option.map_some, Option.getD_some,
    cbtPrefixDescend_fst, walkCheck_iff]
  split
  · -- no key starts with the prefix
    next hw =>
    rw [List.filter_eq_nil_iff.2 fun e he hpe => hw (hp.prefix_cbtWalk pfx hpfx he (by simpa using hpe))]
    rfl
  · next hw =>
    rw [cbtTraversePrefixed_eq, hp.cbtPrefixDescend_toList pfx hpfx (not_not.1 hw)]

/-- Keys with the prefix `a`, in the order of `strcmp`. -/
example : (mapWalkPrefixed (fun k _ s => (0, s ++ [k]))
    (mapRun [MapOp.set [0x62] 1, .set [0x61, 0x62] 2, .set [0x61] (3 : Nat), .set [0x61, 0x61] 4]).1
    [0x61] []).2 = [[0x61], [0x61, 0x61], [0x61, 0x62]] := by
  decide

end WalkSpec

/-! ## What a run shows -/

/-- The keys of a tree with the invariant come in the order of `strcmp`. -/
theorem MapT.Wf.sorted {m : MapT α} (h : m.Wf) : (m.toList.map Prod.fst).Pairwise (List.Lex (· < ·)) := by
  obtain ⟨_ | p⟩ := m
  · exact List.Pairwise.nil
  · exact (h p rfl).sorted

/-- From `map_make`, every run of `map_set` with C strings and `map_del` returns, call by call,
0 or 1 as the key was absent or present in the finite map the calls build, and leaves a tree that
`map_get` and `map_contains` read as that map. -/
theorem mapRun_refines (ops : List (MapOp α)) (hops : ∀ op ∈ ops, op.KeyOk) :
    (mapRun ops).2 = (MapOp.run ops).2 ∧
      ∀ str, mapGet (mapRun ops).1 str = (MapOp.run ops).1.lookup str ∧
        mapContains (mapRun ops).1 str = decide (str ∈ (MapOp.run ops).1) := by
  obtain ⟨href, hcodes⟩ := mapRun_spec ops hops
  refine ⟨hcodes, fun str => ⟨href.mapGet str, ?_⟩⟩
  rw [mapContains, ← mapGet, href.mapGet str]
  exact Bool.eq_iff_iff.2 (by simpa using AList.lookup_isSome)

theorem mapRun_refines_setSetDel :
    (∀ op ∈ [MapOp.set [0x61] 1, .set [0x62, 0x63] 2, .set [0x61] 3, .del [0x62, 0x63]], op.KeyOk) ∧
      (mapRun [MapOp.set [0x61] 1, .set [0x62, 0x63] 2, .set [0x61] 3, .del [0x62, 0x63]]).2 =
        (MapOp.run [MapOp.set [0x61] 1, .set [0x62, 0x63] 2, .set [0x61] 3, .del [0x62, 0x63]]).2 ∧
      ∀ str, mapGet (mapRun [MapOp.set [0x61] 1, .set [0x62, 0x63] 2, .set [0x61] 3,
          .del [0x62, 0x63]]).1 str =
          (MapOp.run [MapOp.set [0x61] (1 : Nat), .set [0x62, 0x63] 2, .set [0x61] 3,
            .del [0x62, 0x63]]).1.lookup str ∧
        mapContains (mapRun [MapOp.set [0x61] (1 : Nat), .set [0x62, 0x63] 2, .set [0x61] 3,
          .del [0x62, 0x63]]).1 str =
          decide (str ∈ (MapOp.run [MapOp.set [0x61] (1 : Nat), .set [0x62, 0x63] 2, .set [0x61] 3,
            .del [0x62, 0x63]]).1) :=
  ⟨by decide, mapRun_refines _ (by decide)⟩

/-- From `map_make`, after every run of `map_set` with C strings and `map_del`,
`map_walk_prefixed` with a C string calls its callback on the entries of the finite map the
calls build whose key starts with the prefix, each once and in the order of `strcmp`, until it
returns nonzero. -/
theorem mapRun_walkPrefixed {σ : Type v} (ops : List (MapOp α)) (hops : ∀ op ∈ ops, op.KeyOk)
    {pfx : List UInt8} (hpfx : 0 ∉ pfx) (callback : List UInt8 → α → σ → Int × σ) (baton : σ) :
    ∃ l : List (List UInt8 × α),
      mapWalkPrefixed callback (mapRun ops).1 pfx baton = walkList callback l baton ∧
        (l.map Prod.fst).Pairwise (List.Lex (· < ·)) ∧
        ∀ k v, (k, v) ∈ l ↔ pfx <+: k ∧ (MapOp.run ops).1.lookup k = some v := by
  obtain ⟨href, -⟩ := mapRun_spec ops hops
  refine ⟨(mapRun ops).1.toList.filter fun e => decide (pfx <+: e.1),
    href.wf.mapWalkPrefixed_eq callback hpfx baton, ?_, fun k v => ?_⟩
  · exact href.wf.sorted.sublist (List.filter_sublist.map _)
  · rw [List.mem_filter, href.mem_iff, decide_eq_true_iff, and_comm]

theorem mapRun_walkPrefixed_sum :
    (∀ op ∈ [MapOp.set [0x61, 0x62] 1, .set [0x61] 2, .set [0x62] (4 : Nat)], op.KeyOk) ∧
      (0 : UInt8) ∉ [0x61] ∧
      ∃ l : List (List UInt8 × Nat),
        mapWalkPrefixed (fun _ v s => (0, s + v))
            (mapRun [MapOp.set [0x61, 0x62] 1, .set [0x61] 2, .set [0x62] (4 : Nat)]).1 [0x61] 0 =
          walkList (fun _ v s => (0, s + v)) l 0 ∧
        (l.map Prod.fst).Pairwise (List.Lex (· < ·)) ∧
        ∀ k v, (k, v) ∈ l ↔ [0x61] <+: k ∧
          (MapOp.run [MapOp.set [0x61, 0x62] 1, .set [0x61] 2, .set [0x62] (4 : Nat)]).1.lookup k =
            some v :=
  ⟨by decide, by decide, mapRun_walkPrefixed _ (by decide) (by decide) _ 0⟩

end KnotResolver.Generic
