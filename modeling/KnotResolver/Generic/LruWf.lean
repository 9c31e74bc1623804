import KnotResolver.Generic.Lru

/-!
# The consistency of an LRU group

A group is consistent (`LruGroup.Wf`) when its stored items belong to it, each stored slot holds
the top half of its item's hash, no key is stored in two slots, addresses are below the next
one, every item has the cache's value length and the counters are 16-bit numbers. In a
consistent group `LruGroup.get` takes one of three paths (`GetCase`): it finds the key's item, it
returns NULL with only counters changed, or it puts a fresh item for the key into one slot; every
path keeps the group consistent (`GetCase.wf`). The item a group stores for a key is
`LruGroup.lookup`.
-/

namespace KnotResolver.Generic

/-! ## Counters -/

theorem u16Inc_lt (c : Nat) : u16Inc c < 65536 := Nat.mod_lt _ (by decide)

theorem u16Dec_lt (c : Nat) : u16Dec c < 65536 := Nat.mod_lt _ (by decide)

/-- A `uint16_t` decrement of a positive counter does not wrap. -/
theorem u16Dec_of_pos {c : Nat} (h₀ : 0 < c) (h : c < 65536) : u16Dec c = c - 1 := by
  unfold u16Dec
  omega

theorem countsLt_update {counts : Nat → Nat} (h : ∀ k, counts k < 65536) (i : Nat) {c : Nat}
    (hc : c < 65536) (k : Nat) : Function.update counts i c k < 65536 := by
  by_cases hk : k = i
  · subst hk
    rw [Function.update_self]
    exact hc
  · rw [Function.update_of_ne hk]
    exact h k

namespace LruGroup

/-- The counters are 16-bit numbers. -/
def CountsLt (g : LruGroup) : Prop := ∀ i, g.counts i < 65536

@[simp] theorem incCount_items (g : LruGroup) (i : Nat) : (g.incCount i).items = g.items := rfl

@[simp] theorem incCount_hashes (g : LruGroup) (i : Nat) : (g.incCount i).hashes = g.hashes := rfl

/-- `group_inc_count` saturates at 65535. -/
theorem incCount_counts_self (g : LruGroup) (i : Nat) (h : g.counts i < 65536) :
    (g.incCount i).counts i = min (g.counts i + 1) 65535 := by
  show Function.update g.counts i _ i = _
  rw [Function.update_self]
  unfold u16Inc
  split_ifs <;> omega

theorem CountsLt.incCount {g : LruGroup} (h : g.CountsLt) (i : Nat) : (g.incCount i).CountsLt :=
  countsLt_update h i (by split <;> [exact u16Inc_lt _; decide])

/-- `group_dec_counts` takes every counter that is not 0 down by one, without wrapping, after
the miss counter restarts at `LRU_TRACKED`. -/
theorem decCounts_counts {g : LruGroup} (h : g.CountsLt) {i : Nat} (hi : i < lruTracked + 1) :
    g.decCounts.counts i = Function.update g.counts lruTracked lruTracked i - 1 := by
  have hlt := countsLt_update h lruTracked (show lruTracked < 65536 by decide) i
  simp only [decCounts]
  split
  · next hc => exact u16Dec_of_pos (Nat.pos_of_ne_zero hc.2) hlt
  · next hc =>
    have : Function.update g.counts lruTracked lruTracked i = 0 := by tauto
    omega

theorem CountsLt.decCounts {g : LruGroup} (h : g.CountsLt) : g.decCounts.CountsLt := by
  intro i
  simp only [LruGroup.decCounts]
  split
  · exact u16Dec_lt _
  · exact countsLt_update h lruTracked (by decide) i

theorem CountsLt.swapTracked {g : LruGroup} (h : g.CountsLt) (i j : Nat) :
    (g.swapTracked i j).CountsLt :=
  countsLt_update (countsLt_update h i (h j)) j (u16Dec_lt _)

/-! ## The invariant -/

variable (hash : List UInt8 → UInt32)

/-- No key is stored in two slots. -/
def KeysUnique (g : LruGroup) : Prop :=
  ∀ j < lruAssoc, ∀ j' < lruAssoc, ∀ it it', g.items j = some it → g.items j' = some it' →
    it.key = it'.key → j = j'

/-- The consistency of group `gi` of an LRU of `2 ^ logGroups` groups, with values of `valLen`
bytes and `next` the address of the next allocation. -/
structure Wf (logGroups gi valLen next : Nat) (g : LruGroup) : Prop where
  home : ∀ j < lruAssoc, ∀ it, g.items j = some it → lruGroupOf hash logGroups it.key = gi
  hashTop : ∀ j < lruAssoc, ∀ it, g.items j = some it → g.hashes j = lruHashTop hash it.key
  keys : g.KeysUnique
  fresh : ∀ j < lruAssoc, ∀ it, g.items j = some it → it.id < next
  valLen : ∀ j < lruAssoc, ∀ it, g.items j = some it → it.valLen = valLen
  counts : g.CountsLt

theorem Wf.empty (logGroups gi valLen next : Nat) :
    LruGroup.empty.Wf hash logGroups gi valLen next :=
  ⟨nofun, nofun, nofun, nofun, nofun, fun _ => show 0 < 65536 by decide⟩

variable {hash}

theorem Wf.mono {g : LruGroup} {logGroups gi valLen next next' : Nat}
    (hw : g.Wf hash logGroups gi valLen next) (hle : next ≤ next') :
    g.Wf hash logGroups gi valLen next' :=
  { hw with fresh := fun j hj it hit => Nat.lt_of_lt_of_le (hw.fresh j hj it hit) hle }

/-- Every item of `g'` is in the same slot of `g`, with the same address, key and value length;
its value may differ. -/
def ItemsWithin (g' g : LruGroup) : Prop :=
  ∀ j < lruAssoc, ∀ it, g'.items j = some it →
    ∃ it₀, g.items j = some it₀ ∧ it.id = it₀.id ∧ it.key = it₀.key ∧ it.valLen = it₀.valLen

theorem ItemsWithin.of_eq {g g' : LruGroup} (h : g'.items = g.items) : g'.ItemsWithin g :=
  fun _ _ it hit => ⟨it, h ▸ hit, rfl, rfl, rfl⟩

theorem KeysUnique.of_within {g g' : LruGroup} (hk : g.KeysUnique) (hin : g'.ItemsWithin g) :
    g'.KeysUnique := by
  intro j hj j' hj' it it' hit hit' hkey
  obtain ⟨it₀, hit₀, -, hk₀, -⟩ := hin j hj it hit
  obtain ⟨it₀', hit₀', -, hk₀', -⟩ := hin j' hj' it' hit'
  exact hk j hj j' hj' it₀ it₀' hit₀ hit₀' (hk₀.symm.trans (hkey.trans hk₀'))

/-- A group whose items are items of a consistent group, with their slots' hashes, is
consistent. -/
theorem Wf.of_within {g g' : LruGroup} {logGroups gi valLen next : Nat}
    (hw : g.Wf hash logGroups gi valLen next) (hin : g'.ItemsWithin g)
    (hhashes : ∀ j < lruAssoc, ∀ it, g'.items j = some it → g'.hashes j = g.hashes j)
    (hcounts : g'.CountsLt) : g'.Wf hash logGroups gi valLen next where
  home j hj it hit := by
    obtain ⟨it₀, hit₀, -, hkey, -⟩ := hin j hj it hit
    rw [hkey]
    exact hw.home j hj it₀ hit₀
  hashTop j hj it hit := by
    obtain ⟨it₀, hit₀, -, hkey, -⟩ := hin j hj it hit
    rw [hhashes j hj it hit, hkey]
    exact hw.hashTop j hj it₀ hit₀
  keys := hw.keys.of_within hin
  fresh j hj it hit := by
    obtain ⟨it₀, hit₀, hid, -, -⟩ := hin j hj it hit
    rw [hid]
    exact hw.fresh j hj it₀ hit₀
  valLen j hj it hit := by
    obtain ⟨it₀, hit₀, -, -, hlen⟩ := hin j hj it hit
    rw [hlen]
    exact hw.valLen j hj it₀ hit₀
  counts := hcounts

/-! ## The item a group stores for a key -/

/-- The item a group stores for a key, in the first slot that holds the key. -/
def lookup (g : LruGroup) (key : List UInt8) : Option LruItem :=
  (List.range lruAssoc).findSome? fun j => (g.items j).filter (·.key == key)

theorem lookup_eq_none_iff {g : LruGroup} {key : List UInt8} :
    g.lookup key = none ↔ ∀ j < lruAssoc, ∀ it, g.items j = some it → it.key ≠ key := by
  simp only [lookup, List.findSome?_eq_none_iff, List.mem_range, Option.filter_eq_none_iff,
    beq_iff_eq, ne_eq]

theorem exists_of_lookup_eq_some {g : LruGroup} {key : List UInt8} {it : LruItem}
    (h : g.lookup key = some it) : ∃ j < lruAssoc, g.items j = some it ∧ it.key = key := by
  obtain ⟨l₁, j, l₂, hl, hj, -⟩ := List.findSome?_eq_some_iff.1 h
  have hmem : j ∈ List.range lruAssoc := by
    rw [hl]
    exact List.mem_append_right _ List.mem_cons_self
  obtain ⟨hit, hkey⟩ := Option.filter_eq_some_iff.1 hj
  exact ⟨j, List.mem_range.1 hmem, hit, beq_iff_eq.1 hkey⟩

theorem lookup_eq_some_of {g : LruGroup} (hk : g.KeysUnique) {j : Nat} (hj : j < lruAssoc)
    {it : LruItem} (hit : g.items j = some it) {key : List UInt8} (hkey : it.key = key) :
    g.lookup key = some it := by
  cases hl : g.lookup key with
  | none => exact absurd hkey (lookup_eq_none_iff.1 hl j hj it hit)
  | some it' =>
    obtain ⟨j', hj', hit', hkey'⟩ := exists_of_lookup_eq_some hl
    obtain rfl := hk j' hj' j hj it' it hit' hit (hkey'.trans hkey.symm)
    rw [hit'] at hit
    exact hit

theorem lookup_congr {g g' : LruGroup} (h : g'.items = g.items) (key : List UInt8) :
    g'.lookup key = g.lookup key := by
  simp only [lookup, h]

/-! ## The paths of `lru_get_impl` -/

theorem found_eq {g : LruGroup} {i : Nat} {it : LruItem} (h : g.items i = some it) (next : Nat)
    (isNew : Bool) : g.found next i isNew = some (g.incCount i, next, some ⟨it.id, isNew⟩) := by
  simp only [found, incCount_items, h]

/-- `insert` gives the slot an item at a fresh address, or at the address of the item it
replaces. -/
theorem insert_eq (g : LruGroup) (next i : Nat) (key : List UInt8) (top valLen : Nat) :
    ∃ id next', g.insert next i key top valLen =
      ({ g with hashes := Function.update g.hashes i top,
                items := Function.update g.items i (some ⟨id, key, valLen, List.replicate valLen 0⟩) },
        next') ∧
      ((id = next ∧ next' = next + 1) ∨ (next' = next ∧ ∃ it, g.items i = some it ∧ it.id = id)) := by
  unfold insert
  cases hi : g.items i with
  | none => exact ⟨next, next + 1, rfl, .inl ⟨rfl, rfl⟩⟩
  | some it =>
    by_cases hs : itemSize key.length.toUInt32 valLen.toUInt32 =
        itemSize it.key.length.toUInt32 it.valLen.toUInt32
    · exact ⟨it.id, next, by simp only [hs, if_true], .inr ⟨rfl, it, rfl, rfl⟩⟩
    · exact ⟨next, next + 1, by simp only [hs, if_false], .inl ⟨rfl, rfl⟩⟩

theorem insertAt_spec (g : LruGroup) (next i : Nat) (key : List UInt8) (top valLen : Nat) :
    ∃ g' id next', g.insertAt next i key top valLen = some (g', next', some ⟨id, true⟩) ∧
      g'.items = Function.update g.items i (some ⟨id, key, valLen, List.replicate valLen 0⟩) ∧
      g'.hashes = Function.update g.hashes i top ∧ (g.CountsLt → g'.CountsLt) ∧
      ((id = next ∧ next' = next + 1) ∨ (next' = next ∧ ∃ it, g.items i = some it ∧ it.id = id)) := by
  obtain ⟨id, next', hins, hid⟩ := insert_eq g next i key top valLen
  simp only [insertAt, hins]
  rw [found_eq (Function.update_self _ _ _) next' true]
  exact ⟨_, id, next', rfl, rfl, rfl, fun h => CountsLt.incCount h i, hid⟩

/-- The paths of `get` in a consistent group, by what they leave. -/
inductive GetCase (g : LruGroup) (next : Nat) (key : List UInt8) (top valLen : Nat)
    (doInsert : Bool) : LruGroup × Nat × Option Hit → Prop
  /-- `found:` on the slot that stores the key; only counters change. -/
  | found {g' : LruGroup} {j : Nat} {it : LruItem} (hj : j < lruAssoc) (hit : g.items j = some it)
      (hkey : it.key = key) (hitems : g'.items = g.items) (hhashes : g'.hashes = g.hashes)
      (hcounts : g'.CountsLt) :
      GetCase g next key top valLen doInsert (g', next, some ⟨it.id, false⟩)
  /-- NULL for a key that no slot stores; only counters change. -/
  | null {g' : LruGroup} (habsent : ∀ j < lruAssoc, ∀ it, g.items j = some it → it.key ≠ key)
      (hitems : g'.items = g.items) (hhashes : g'.hashes = g.hashes) (hcounts : g'.CountsLt) :
      GetCase g next key top valLen doInsert (g', next, none)
  /-- A fresh item for the key in slot `i`; a slot that stored the key already is `i`, and its
  item had a shorter value. -/
  | insert {g' : LruGroup} {i id next' : Nat} (hins : doInsert = true) (hi : i < lruAssoc)
      (hstored : ∀ j < lruAssoc, ∀ it, g.items j = some it → it.key = key → j = i ∧ it.valLen < valLen)
      (hitems : g'.items = Function.update g.items i (some ⟨id, key, valLen, List.replicate valLen 0⟩))
      (hhash : g'.hashes i = top) (hhashes : ∀ j < lruAssoc, j ≠ i → g'.hashes j = g.hashes j)
      (hcounts : g'.CountsLt)
      (hid : (id = next ∧ next' = next + 1) ∨ (next' = next ∧ ∃ it, g.items i = some it ∧ it.id = id)) :
      GetCase g next key top valLen doInsert (g', next', some ⟨id, true⟩)

/-- An insertion into slot `i` of a group with the items of `g` and, on the other stored slots,
its hashes. -/
theorem GetCase.of_insertAt {g g₀ : LruGroup} {next i : Nat} {key : List UInt8} {top valLen : Nat}
    {doInsert : Bool} (hins : doInsert = true) (hi : i < lruAssoc)
    (hstored : ∀ j < lruAssoc, ∀ it, g.items j = some it → it.key = key → j = i ∧ it.valLen < valLen)
    (hitems : g₀.items = g.items) (hhashes : ∀ j < lruAssoc, j ≠ i → g₀.hashes j = g.hashes j)
    (hcounts : g₀.CountsLt) :
    ∃ res, g₀.insertAt next i key top valLen = some res ∧
      GetCase g next key top valLen doInsert res := by
  obtain ⟨g', id, next', heq, hitems', hhashes', hcounts', hid⟩ :=
    insertAt_spec g₀ next i key top valLen
  rw [hitems] at hitems' hid
  refine ⟨_, heq, .insert hins hi hstored hitems' ?_ ?_ (hcounts' hcounts) hid⟩
  · rw [hhashes', Function.update_self]
  · intro j hj hne
    rw [hhashes', Function.update_of_ne hne]
    exact hhashes j hj hne

/-- The scan of the stored slots finds a slot that stores the key. -/
theorem scan_some {g : LruGroup} {top : Nat} {key : List UInt8} {i : Nat}
    (h : (List.range lruAssoc).find? (fun i => g.hashes i == top && (g.items i).any (·.key == key)) =
      some i) : i < lruAssoc ∧ ∃ it, g.items i = some it ∧ it.key = key := by
  have hp := List.find?_some h
  simp only [Bool.and_eq_true, beq_iff_eq, Option.any_eq_true] at hp
  obtain ⟨-, it, hit, hkey⟩ := hp
  exact ⟨List.mem_range.1 (List.mem_of_find?_eq_some h), it, hit, hkey⟩

/-- The scan misses only a key that no slot stores: a stored slot holds its key's hash top. -/
theorem scan_none {g : LruGroup} {logGroups gi V next : Nat} (hw : g.Wf hash logGroups gi V next)
    {key : List UInt8} {top : Nat} (htop : top = lruHashTop hash key)
    (h : (List.range lruAssoc).find? (fun i => g.hashes i == top && (g.items i).any (·.key == key)) =
      none) : ∀ j < lruAssoc, ∀ it, g.items j = some it → it.key ≠ key := by
  intro j hj it hit hkey
  have hp := List.find?_eq_none.1 h j (List.mem_range.2 hj)
  simp only [Bool.and_eq_true, beq_iff_eq, Option.any_eq_true, not_and] at hp
  exact hp (by rw [hw.hashTop j hj it hit, hkey, htop]) ⟨it, hit, by rw [hkey]⟩

/-- Every path of `get` in a consistent group, for the key's hash top. -/
theorem get_spec {g : LruGroup} {logGroups gi V next : Nat} (hw : g.Wf hash logGroups gi V next)
    {key : List UInt8} {top : Nat} (htop : top = lruHashTop hash key) (valLen : Nat)
    (doInsert : Bool) :
    ∃ res, g.get next key top valLen doInsert = some res ∧
      GetCase g next key top valLen doInsert res := by
  unfold get
  cases hscan : (List.range lruAssoc).find?
      (fun i => g.hashes i == top && (g.items i).any (·.key == key)) with
  | some i =>
    obtain ⟨hi, it, hit, hkey⟩ := scan_some hscan
    dsimp only
    by_cases hgrow : (doInsert && (g.items i).any (valLen > ·.valLen)) = true
    · -- a longer value than the stored one: the key is inserted anew into its slot
      rw [if_pos hgrow]
      simp only [Bool.and_eq_true, hit, Option.any_some, decide_eq_true_eq] at hgrow
      refine GetCase.of_insertAt hgrow.1 hi ?_ rfl (fun _ _ _ => rfl) hw.counts
      intro j hj it' hit' hkey'
      obtain rfl := hw.keys j hj i hi it' it hit' hit (hkey'.trans hkey.symm)
      rw [hit] at hit'
      cases hit'
      exact ⟨rfl, hgrow.2⟩
    · rw [if_neg hgrow, found_eq hit]
      exact ⟨_, rfl, .found hi hit hkey rfl rfl (hw.counts.incCount i)⟩
  | none =>
    have habsent := scan_none hw htop hscan
    dsimp only
    cases hfree : (if doInsert then (List.range lruAssoc).find?
        (fun i => (g.items i).isNone || g.counts i == 0) else none) with
    | some i =>
      -- an empty or counted-out slot
      have hins : doInsert = true := by
        cases doInsert
        · simp at hfree
        · rfl
      rw [hins, if_pos rfl] at hfree
      dsimp only
      exact GetCase.of_insertAt hins (List.mem_range.1 (List.mem_of_find?_eq_some hfree))
        (fun j hj it hit hkey => absurd hkey (habsent j hj it hit)) rfl (fun _ _ _ => rfl)
        hw.counts
    | none =>
      dsimp only
      cases htr : (List.range' lruAssoc (lruTracked - lruAssoc)).find?
          (fun i => g.hashes i == top) with
      | some i =>
        -- a tracked hash; the tracked slots lie above the stored ones
        have hiA : lruAssoc ≤ i := (List.mem_range'_1.1 (List.mem_of_find?_eq_some htr)).1
        dsimp only
        cases doInsert with
        | false => exact ⟨_, rfl, .null habsent rfl rfl (hw.counts.incCount i)⟩
        | true =>
          rw [if_neg (show ¬ ((!true) = true) from Bool.false_ne_true)]
          cases hev : (List.range lruAssoc).find?
              (fun j => (g.incCount i).counts j < (g.incCount i).counts i) with
          | some j =>
            have hj := List.mem_range.1 (List.mem_of_find?_eq_some hev)
            dsimp only
            refine GetCase.of_insertAt rfl hj
              (fun j' hj' it hit hkey => absurd hkey (habsent j' hj' it hit)) rfl ?_
              ((hw.counts.incCount i).swapTracked i j)
            intro j' hj' hne
            show Function.update (Function.update g.hashes i (g.hashes j)) j (g.hashes i) j' =
              g.hashes j'
            rw [Function.update_of_ne hne, Function.update_of_ne (by omega)]
          | none => exact ⟨_, rfl, .null habsent rfl rfl (hw.counts.incCount i)⟩
      | none =>
        -- a miss
        dsimp only
        split
        · exact ⟨_, rfl, .null habsent rfl rfl
            (countsLt_update hw.counts lruTracked (u16Dec_lt _))⟩
        · exact ⟨_, rfl, .null habsent rfl rfl hw.counts.decCounts⟩

/-! ## Every path keeps the group consistent -/

/-- A slot of an updated item table holds the new item or what it held. -/
theorem update_items_eq_some {items : Nat → Option LruItem} {i j : Nat} {new it : LruItem}
    (h : Function.update items i (some new) j = some it) :
    (j = i ∧ it = new) ∨ (j ≠ i ∧ items j = some it) := by
  by_cases hj : j = i
  · subst hj
    rw [Function.update_self] at h
    exact .inl ⟨rfl, (Option.some.inj h).symm⟩
  · rw [Function.update_of_ne hj] at h
    exact .inr ⟨hj, h⟩

theorem GetCase.next_le {g g' : LruGroup} {next next' : Nat} {key : List UInt8} {top valLen : Nat}
    {doInsert : Bool} {r : Option Hit} (h : GetCase g next key top valLen doInsert (g', next', r)) :
    next ≤ next' := by
  cases h with
  | found => exact Nat.le_refl _
  | null => exact Nat.le_refl _
  | insert _ _ _ _ _ _ _ hid =>
    rcases hid with ⟨-, rfl⟩ | ⟨rfl, -⟩ <;> omega

/-- Only an insertion returns a new item, and only where one was asked for. -/
theorem GetCase.isNew {g g' : LruGroup} {next next' : Nat} {key : List UInt8} {top valLen : Nat}
    {doInsert : Bool} {id : Nat} (h : GetCase g next key top valLen doInsert (g', next', some ⟨id, true⟩)) :
    doInsert = true := by
  cases h with
  | insert hins => exact hins

/-- Every path of `get` for a key of the group keeps it consistent, provided an insertion is of
the cache's value length. -/
theorem GetCase.wf {g : LruGroup} {logGroups gi V next : Nat} (hw : g.Wf hash logGroups gi V next)
    {key : List UInt8} {top valLen : Nat} {doInsert : Bool} (htop : top = lruHashTop hash key)
    (hgi : lruGroupOf hash logGroups key = gi) (hV : doInsert = true → valLen = V)
    {g' : LruGroup} {next' : Nat} {r : Option Hit}
    (h : GetCase g next key top valLen doInsert (g', next', r)) :
    g'.Wf hash logGroups gi V next' := by
  have hle := h.next_le
  cases h with
  | found _ _ _ hitems hhashes hcounts =>
    exact hw.of_within (.of_eq hitems) (fun _ _ _ _ => by rw [hhashes]) hcounts
  | null _ hitems hhashes hcounts =>
    exact hw.of_within (.of_eq hitems) (fun _ _ _ _ => by rw [hhashes]) hcounts
  | @insert g' i id next' hins hi hstored hitems hhash hhashes hcounts hid =>
    refine ⟨?home, ?hashTop, ?keys, ?fresh, ?valLen, hcounts⟩
    case home =>
      intro j hj it hit
      rw [hitems] at hit
      rcases update_items_eq_some hit with ⟨-, rfl⟩ | ⟨-, hit⟩
      · exact hgi
      · exact hw.home j hj it hit
    case hashTop =>
      intro j hj it hit
      rw [hitems] at hit
      rcases update_items_eq_some hit with ⟨rfl, rfl⟩ | ⟨hne, hit⟩
      · rw [hhash, htop]
      · rw [hhashes j hj hne]
        exact hw.hashTop j hj it hit
    case keys =>
      -- the new item's key is stored nowhere else
      intro j hj j' hj' it it' hit hit' hkey
      rw [hitems] at hit hit'
      rcases update_items_eq_some hit with ⟨hji, rfl⟩ | ⟨hne, hj₀⟩ <;>
        rcases update_items_eq_some hit' with ⟨hji', rfl⟩ | ⟨hne', hj₀'⟩
      · omega
      · have := (hstored j' hj' it' hj₀' hkey.symm).1
        omega
      · have := (hstored j hj it hj₀ hkey).1
        omega
      · exact hw.keys j hj j' hj' it it' hj₀ hj₀' hkey
    case fresh =>
      intro j hj it hit
      rw [hitems] at hit
      rcases update_items_eq_some hit with ⟨-, rfl⟩ | ⟨-, hit⟩
      · rcases hid with ⟨rfl, rfl⟩ | ⟨rfl, it₀, hit₀, rfl⟩
        · exact Nat.lt_succ_self _
        · exact hw.fresh i hi it₀ hit₀
      · exact Nat.lt_of_lt_of_le (hw.fresh j hj it hit) hle
    case valLen =>
      intro j hj it hit
      rw [hitems] at hit
      rcases update_items_eq_some hit with ⟨-, rfl⟩ | ⟨-, hit⟩
      · exact hV hins
      · exact hw.valLen j hj it hit

/-! ## Insertions, writes and `lru_apply` on the lookups -/

/-- After an insertion into slot `i`, the new item's key reads it and every other key reads its
item or nothing. -/
theorem lookup_of_insert {g g' : LruGroup} (hk : g.KeysUnique) (hk' : g'.KeysUnique) {i : Nat}
    (hi : i < lruAssoc) {new : LruItem} (hitems : g'.items = Function.update g.items i (some new)) :
    g'.lookup new.key = some new ∧
      ∀ k ≠ new.key, g'.lookup k = g.lookup k ∨ g'.lookup k = none := by
  refine ⟨lookup_eq_some_of hk' hi (by rw [hitems, Function.update_self]) rfl, fun k hne => ?_⟩
  cases hl : g'.lookup k with
  | none => exact .inr rfl
  | some it =>
    obtain ⟨j, hj, hit, hkey⟩ := exists_of_lookup_eq_some hl
    rw [hitems] at hit
    rcases update_items_eq_some hit with ⟨-, rfl⟩ | ⟨-, hit⟩
    · exact absurd hkey.symm hne
    · exact .inl (lookup_eq_some_of hk hj hit hkey).symm

theorem write_items_eq_some {g : LruGroup} {ptr : Nat} {v : List UInt8} {j : Nat} {it : LruItem}
    (h : (g.write ptr v).items j = some it) :
    ∃ it₀, g.items j = some it₀ ∧ it = if it₀.id = ptr then { it₀ with val := v } else it₀ := by
  simp only [write, Option.map_eq_some_iff] at h
  obtain ⟨it₀, hit₀, rfl⟩ := h
  exact ⟨it₀, hit₀, rfl⟩

theorem write_within (g : LruGroup) (ptr : Nat) (v : List UInt8) : (g.write ptr v).ItemsWithin g := by
  intro j _ it hit
  obtain ⟨it₀, hit₀, rfl⟩ := write_items_eq_some hit
  refine ⟨it₀, hit₀, ?_⟩
  split <;> exact ⟨rfl, rfl, rfl⟩

theorem Wf.write {g : LruGroup} {logGroups gi valLen next : Nat}
    (hw : g.Wf hash logGroups gi valLen next) (ptr : Nat) (v : List UInt8) :
    (g.write ptr v).Wf hash logGroups gi valLen next :=
  hw.of_within (write_within g ptr v) (fun _ _ _ _ => rfl) hw.counts

/-- A write through an address changes the value of the item at that address. -/
theorem lookup_write {g : LruGroup} (hk : g.KeysUnique) (ptr : Nat) (v key : List UInt8) :
    (g.write ptr v).lookup key =
      (g.lookup key).map fun it => if it.id = ptr then { it with val := v } else it := by
  cases hl : g.lookup key with
  | none =>
    rw [Option.map_none, lookup_eq_none_iff]
    intro j hj it hit
    obtain ⟨it₀, hit₀, -, hkey, -⟩ := write_within g ptr v j hj it hit
    rw [hkey]
    exact lookup_eq_none_iff.1 hl j hj it₀ hit₀
  | some it =>
    obtain ⟨j, hj, hit, hkey⟩ := exists_of_lookup_eq_some hl
    rw [Option.map_some]
    refine lookup_eq_some_of (hk.of_within (write_within g ptr v)) hj
      (by simp only [write, hit, Option.map_some]) ?_
    split <;> exact hkey

/-- `lru_apply` clears the stored slots whose item `f` evicts. -/
theorem apply_items (f : List UInt8 → List UInt8 → LruApplyDo) (g : LruGroup) {j : Nat}
    (hj : j < lruAssoc) :
    (g.apply f).items j = (g.items j).filter fun it => f it.key it.val != .evict := by
  simp only [LruGroup.apply, hj, decide_true, Bool.true_and]
  cases g.items j with
  | none => rfl
  | some it =>
    by_cases he : f it.key it.val = .evict <;> simp [he, Option.filter_some, bne_iff_ne]

theorem apply_within (f : List UInt8 → List UInt8 → LruApplyDo) (g : LruGroup) :
    (g.apply f).ItemsWithin g := by
  intro j hj it hit
  rw [apply_items f g hj, Option.filter_eq_some_iff] at hit
  exact ⟨it, hit.1, rfl, rfl, rfl⟩

theorem Wf.apply {g : LruGroup} {logGroups gi valLen next : Nat}
    (hw : g.Wf hash logGroups gi valLen next) (f : List UInt8 → List UInt8 → LruApplyDo) :
    (g.apply f).Wf hash logGroups gi valLen next := by
  refine hw.of_within (apply_within f g) ?_ ?_
  · intro j _ it hit
    simp only [LruGroup.apply] at hit ⊢
    split at hit
    · cases hit
    · next he => rw [if_neg he]
  · intro j
    show (if _ then 0 else g.counts j) < 65536
    split
    · decide
    · exact hw.counts j

/-- `lru_apply` drops the items `f` evicts from the lookups. -/
theorem lookup_apply {g : LruGroup} (hk : g.KeysUnique) (f : List UInt8 → List UInt8 → LruApplyDo)
    (key : List UInt8) :
    (g.apply f).lookup key = (g.lookup key).filter fun it => f it.key it.val != .evict := by
  have hk' := hk.of_within (apply_within f g)
  cases hl : g.lookup key with
  | none =>
    rw [Option.filter_none, lookup_eq_none_iff]
    intro j hj it hit
    obtain ⟨it₀, hit₀, -, hkey, -⟩ := apply_within f g j hj it hit
    rw [hkey]
    exact lookup_eq_none_iff.1 hl j hj it₀ hit₀
  | some it =>
    obtain ⟨j, hj, hit, hkey⟩ := exists_of_lookup_eq_some hl
    have hj' := apply_items f g hj
    rw [hit, Option.filter_some] at hj'
    rw [Option.filter_some]
    split
    · next hp =>
      rw [if_pos hp] at hj'
      exact lookup_eq_some_of hk' hj hj' hkey
    · next hp =>
      -- the key's only slot is cleared
      rw [if_neg hp] at hj'
      rw [lookup_eq_none_iff]
      intro j' hj'' it' hit' hkey'
      obtain ⟨it₀, hit₀, -, hk₀, -⟩ := apply_within f g j' hj'' it' hit'
      obtain rfl := hk j' hj'' j hj it₀ it hit₀ hit (hk₀.symm.trans (hkey'.trans hkey.symm))
      rw [hj'] at hit'
      cases hit'

theorem empty_lookup (key : List UInt8) : LruGroup.empty.lookup key = none :=
  lookup_eq_none_iff.2 fun _ _ _ h => nomatch h

end LruGroup

end KnotResolver.Generic
