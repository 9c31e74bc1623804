import KnotResolver.Generic.LruWf

/-!
# The LRU refines a cache

An LRU is consistent (`Lru.Wf`) when every group is and no two stored items share an address.
It stands for a cache: the item each key reads in its own group (`Lru.view`). From
`lru_create_impl` every run of calls keeps the LRU consistent, and each call acts on the cache as
`LruOp.Spec` says (`lruStep_spec`): `lru_get_try` changes nothing and returns the address of the
key's item; `lru_get_new` returns a stored key's item, or NULL, or inserts the key with a zeroed
value, which may evict other keys; a write through the address it returns changes that key's
value only; `lru_apply` drops what its callback evicts; and `lru_reset` empties the cache.
-/

namespace KnotResolver.Generic

/-- The consistency of an LRU of values of `valLen` bytes: every group is consistent, and two
stored items never share an address. -/
structure Lru.Wf (hash : List UInt8 → UInt32) (valLen : Nat) (lru : Lru) : Prop where
  groups : ∀ gi, (lru.groups gi).Wf hash lru.logGroups gi valLen lru.next
  ids : ∀ gi gi' j j' it it', j < lruAssoc → j' < lruAssoc →
    (lru.groups gi).items j = some it → (lru.groups gi').items j' = some it' → it.id = it'.id →
    gi = gi' ∧ j = j'

/-- The cache an LRU stands for: the item each key reads in its own group. -/
def Lru.view (hash : List UInt8 → UInt32) (lru : Lru) (key : List UInt8) : Option LruItem :=
  (lru.groups (lruGroupOf hash lru.logGroups key)).lookup key

variable {hash : List UInt8 → UInt32}

theorem lruGroupOf_lt (hash : List UInt8 → UInt32) (logGroups : Nat) (key : List UInt8) :
    lruGroupOf hash logGroups key < 2 ^ logGroups := by
  rw [lruGroupOf, Nat.one_shiftLeft, Nat.and_two_pow_sub_one_eq_mod]
  exact Nat.mod_lt _ (Nat.two_pow_pos _)

/-! ## Consistency of the whole-cache calls -/

theorem lruCreateImpl_wf {maxSlots : Nat} {lru : Lru} (h : lruCreateImpl maxSlots = some lru)
    (valLen : Nat) : lru.Wf hash valLen := by
  unfold lruCreateImpl at h
  split at h
  · cases h
  · dsimp only at h
    split at h
    · obtain rfl := Option.some.inj h
      exact ⟨fun gi => LruGroup.Wf.empty hash _ gi valLen 0, fun _ _ _ _ _ _ _ _ h => nomatch h⟩
    · cases h

/-- An LRU whose groups are consistent and hold items of a consistent LRU, in the same slots and
at the same addresses, is consistent. -/
theorem Lru.Wf.of_within {lru lru' : Lru} {valLen : Nat} (hw : lru.Wf hash valLen)
    (hgroups : ∀ gi, (lru'.groups gi).Wf hash lru'.logGroups gi valLen lru'.next)
    (hin : ∀ gi, (lru'.groups gi).ItemsWithin (lru.groups gi)) : lru'.Wf hash valLen where
  groups := hgroups
  ids gi gi' j j' it it' hj hj' hit hit' hid := by
    obtain ⟨it₀, hit₀, hid₀, -, -⟩ := hin gi j hj it hit
    obtain ⟨it₀', hit₀', hid₀', -, -⟩ := hin gi' j' hj' it' hit'
    exact hw.ids gi gi' j j' it₀ it₀' hj hj' hit₀ hit₀' (hid₀.symm.trans (hid.trans hid₀'))

theorem Lru.Wf.write {lru : Lru} {valLen : Nat} (hw : lru.Wf hash valLen) (ptr : Nat)
    (v : List UInt8) : (lruWrite lru ptr v).Wf hash valLen :=
  hw.of_within (fun gi => (hw.groups gi).write ptr v) fun _ => LruGroup.write_within _ ptr v

theorem Lru.Wf.apply {lru : Lru} {valLen : Nat} (hw : lru.Wf hash valLen)
    (f : List UInt8 → List UInt8 → LruApplyDo) : (lruApplyImpl lru f).Wf hash valLen := by
  refine hw.of_within (fun gi => ?_) (fun gi => ?_)
  · show LruGroup.Wf hash _ _ _ _ (if gi < 2 ^ lru.logGroups then _ else _)
    split
    · exact (hw.groups gi).apply f
    · exact hw.groups gi
  · show LruGroup.ItemsWithin (if gi < 2 ^ lru.logGroups then _ else _) _
    split
    · exact LruGroup.apply_within f _
    · exact .of_eq rfl

theorem Lru.Wf.reset {lru : Lru} {valLen : Nat} (hw : lru.Wf hash valLen) :
    (lruResetImpl lru).Wf hash valLen := by
  refine hw.of_within (fun gi => ?_) (fun gi => ?_)
  · show LruGroup.Wf hash _ _ _ _ (if gi < 2 ^ lru.logGroups then _ else _)
    split
    · exact LruGroup.Wf.empty hash _ gi valLen _
    · exact hw.groups gi
  · show LruGroup.ItemsWithin (if gi < 2 ^ lru.logGroups then _ else _) _
    split
    · exact fun _ _ _ h => nomatch h
    · exact .of_eq rfl

/-! ## `lru_get_impl` -/

/-- `lru_get_impl` with the source's assertions met takes a path of `get` in the key's group. -/
theorem lruGetImpl_spec {lru : Lru} {V : Nat} (hw : lru.Wf hash V) {key : List UInt8}
    (hkey : key.length ≤ 65535) (valLen : Nat) (doInsert : Bool)
    (hval : doInsert = true → valLen ≤ 65535) :
    ∃ g' next' r, lruGetImpl hash lru key valLen doInsert =
        some (⟨lru.logGroups, Function.update lru.groups (lruGroupOf hash lru.logGroups key) g',
          next'⟩, r) ∧
      (lru.groups (lruGroupOf hash lru.logGroups key)).GetCase lru.next key (lruHashTop hash key)
        valLen doInsert (g', next', r) := by
  obtain ⟨⟨g', next', r⟩, hget, hcase⟩ := LruGroup.get_spec (hw.groups _) rfl valLen doInsert
  refine ⟨g', next', r, ?_, hcase⟩
  rw [lruGetImpl, if_pos ⟨hkey, hval⟩]
  simp only [hget, Option.map_some]

/-- A slot of the LRU after an insertion into slot `i` of group `gi` holds the new item or what
it held. -/
theorem update_groups_items_eq_some {groups : Nat → LruGroup} {gi gi' i j : Nat} {g' : LruGroup}
    {new it : LruItem} (hitems : g'.items = Function.update (groups gi).items i (some new))
    (h : (Function.update groups gi g' gi').items j = some it) :
    (gi' = gi ∧ j = i ∧ it = new) ∨ (¬ (gi' = gi ∧ j = i) ∧ (groups gi').items j = some it) := by
  by_cases hg : gi' = gi
  · subst hg
    rw [Function.update_self, hitems] at h
    rcases LruGroup.update_items_eq_some h with ⟨rfl, rfl⟩ | ⟨hne, h⟩
    · exact .inl ⟨rfl, rfl, rfl⟩
    · exact .inr ⟨fun h' => hne h'.2, h⟩
  · rw [Function.update_of_ne hg] at h
    exact .inr ⟨fun h' => hg h'.1, h⟩

theorem within_update {groups : Nat → LruGroup} {gi : Nat} {g' : LruGroup}
    (hitems : g'.items = (groups gi).items) (gi' : Nat) :
    (Function.update groups gi g' gi').ItemsWithin (groups gi') := by
  by_cases hg : gi' = gi
  · subst hg
    rw [Function.update_self]
    exact .of_eq hitems
  · rw [Function.update_of_ne hg]
    exact .of_eq rfl

/-- Every path of `lru_get_impl` keeps the LRU consistent, provided an insertion is of the
cache's value length. -/
theorem Lru.Wf.get {lru : Lru} {V : Nat} (hw : lru.Wf hash V) {key : List UInt8} {valLen : Nat}
    {doInsert : Bool} (hV : doInsert = true → valLen = V) {g' : LruGroup} {next' : Nat}
    {r : Option LruGroup.Hit}
    (h : (lru.groups (lruGroupOf hash lru.logGroups key)).GetCase lru.next key (lruHashTop hash key)
      valLen doInsert (g', next', r)) :
    (⟨lru.logGroups, Function.update lru.groups (lruGroupOf hash lru.logGroups key) g', next'⟩ :
      Lru).Wf hash V := by
  have hgroups : ∀ gi, (Function.update lru.groups (lruGroupOf hash lru.logGroups key) g' gi).Wf
      hash lru.logGroups gi V next' := by
    intro gi
    by_cases hg : gi = lruGroupOf hash lru.logGroups key
    · subst hg
      rw [Function.update_self]
      exact h.wf (hw.groups _) rfl rfl hV
    · rw [Function.update_of_ne hg]
      exact (hw.groups gi).mono h.next_le
  cases h with
  | found _ _ _ hitems => exact hw.of_within hgroups (within_update hitems)
  | null _ hitems => exact hw.of_within hgroups (within_update hitems)
  | @insert g' i id next' hins hi hstored hitems _ _ _ hid =>
    refine ⟨hgroups, ?_⟩
    -- the new item's address is fresh, or that of the item it replaces
    have hnew : ∀ gi j it, j < lruAssoc → (lru.groups gi).items j = some it → it.id = id →
        gi = lruGroupOf hash lru.logGroups key ∧ j = i := by
      intro gi j it hj hit hid'
      rcases hid with ⟨rfl, -⟩ | ⟨-, it₀, hit₀, rfl⟩
      · exact absurd ((hw.groups gi).fresh j hj it hit) (by omega)
      · exact hw.ids gi _ j i it it₀ hj hi hit hit₀ hid'
    intro gi gi' j j' it it' hj hj' hit hit' hid'
    rcases update_groups_items_eq_some hitems hit with ⟨rfl, rfl, rfl⟩ | ⟨hne, hit⟩ <;>
      rcases update_groups_items_eq_some hitems hit' with ⟨rfl, rfl, rfl⟩ | ⟨hne', hit'⟩
    · exact ⟨rfl, rfl⟩
    · exact absurd (hnew gi' j' it' hj' hit' hid'.symm) hne'
    · exact absurd (hnew gi j it hj hit hid') hne
    · exact hw.ids gi gi' j j' it it' hj hj' hit hit' hid'

/-! ## The cache each call leaves -/

/-- What `lru_get_new` does to the cache: a stored key gives its item's address and changes
nothing; an absent key gives NULL and changes nothing, or is inserted with a zeroed value while
every other key keeps its item or loses it. -/
def LruGetNewSpec (valLen : Nat) (key : List UInt8) (V V' : List UInt8 → Option LruItem)
    (r : Option LruGroup.Hit) : Prop :=
  match V key with
  | some it => r = some ⟨it.id, false⟩ ∧ V' = V
  | none => (r = none ∧ V' = V) ∨
    ∃ id, r = some ⟨id, true⟩ ∧ V' key = some ⟨id, key, valLen, List.replicate valLen 0⟩ ∧
      ∀ k ≠ key, V' k = V k ∨ V' k = none

/-- A write of `v` through the address of the item of `key`. -/
def lruWriteSpec (V : List UInt8 → Option LruItem) (key v : List UInt8) :
    List UInt8 → Option LruItem :=
  Function.update V key ((V key).map fun it => { it with val := v })

/-- What each call does to the cache, and what it returns; `set` writes through the address
`lru_get_new` returns. -/
def LruOp.Spec (valLen : Nat) (V : List UInt8 → Option LruItem) :
    LruOp → (List UInt8 → Option LruItem) → Option LruGroup.Hit → Prop
  | .getNew key, V', r => LruGetNewSpec valLen key V V' r
  | .set key v, V', r => ∃ V₁, LruGetNewSpec valLen key V V₁ r ∧
      V' = if r.isSome then lruWriteSpec V₁ key v else V₁
  | .getTry key, V', r => V' = V ∧ r = (V key).map fun it => ⟨it.id, false⟩
  | .apply f, V', r => r = none ∧ ∀ k, V' k = (V k).filter fun it => f it.key it.val != .evict
  | .reset, V', r => r = none ∧ ∀ k, V' k = none

/-- A returned address is that of the key's item afterwards. -/
theorem LruGetNewSpec.view_key {valLen : Nat} {key : List UInt8} {V V' : List UInt8 → Option LruItem}
    {hit : LruGroup.Hit} (h : LruGetNewSpec valLen key V V' (some hit)) :
    ∃ it, V' key = some it ∧ it.id = hit.ptr := by
  unfold LruGetNewSpec at h
  split at h
  · next it hv =>
    obtain ⟨hr, rfl⟩ := h
    cases hr
    exact ⟨it, hv, rfl⟩
  · rcases h with ⟨hr, -⟩ | ⟨id, hr, hkey, -⟩
    · cases hr
    · cases hr
      exact ⟨_, hkey, rfl⟩

/-- Without an insertion, `lru_get_impl` is a lookup. -/
theorem LruGetNewSpec.getTry {valLen : Nat} {key : List UInt8} {V V' : List UInt8 → Option LruItem}
    {r : Option LruGroup.Hit} (h : LruGetNewSpec valLen key V V' r) (hr : ∀ id, r ≠ some ⟨id, true⟩) :
    V' = V ∧ r = (V key).map fun it => ⟨it.id, false⟩ := by
  unfold LruGetNewSpec at h
  split at h
  · next it hv =>
    rw [hv]
    exact ⟨h.2, h.1⟩
  · next hv =>
    rw [hv]
    rcases h with ⟨hr', hV'⟩ | ⟨id, hid, -⟩
    · exact ⟨hV', hr'⟩
    · exact absurd hid (hr id)

theorem Lru.view_update (lru : Lru) (gi : Nat) (g' : LruGroup) (next' : Nat) (key : List UInt8) :
    (⟨lru.logGroups, Function.update lru.groups gi g', next'⟩ : Lru).view hash key =
      if lruGroupOf hash lru.logGroups key = gi then g'.lookup key else lru.view hash key := by
  unfold Lru.view
  dsimp only
  split
  · next hg => rw [hg, Function.update_self]
  · next hg => rw [Function.update_of_ne hg]

theorem Lru.view_update_of_items {lru : Lru} {gi : Nat} {g' : LruGroup}
    (hitems : g'.items = (lru.groups gi).items) (next' : Nat) :
    (⟨lru.logGroups, Function.update lru.groups gi g', next'⟩ : Lru).view hash = lru.view hash := by
  funext key
  rw [Lru.view_update]
  split
  · next hg => rw [LruGroup.lookup_congr hitems, Lru.view, hg]
  · rfl

/-- Every path of `lru_get_impl` on a consistent LRU acts on the cache as `lru_get_new` does. -/
theorem Lru.Wf.getSpec {lru : Lru} {V : Nat} (hw : lru.Wf hash V) {key : List UInt8}
    {valLen : Nat} {doInsert : Bool} (hV : doInsert = true → valLen = V) {g' : LruGroup}
    {next' : Nat} {r : Option LruGroup.Hit}
    (h : (lru.groups (lruGroupOf hash lru.logGroups key)).GetCase lru.next key (lruHashTop hash key)
      valLen doInsert (g', next', r)) :
    LruGetNewSpec valLen key (lru.view hash)
      ((⟨lru.logGroups, Function.update lru.groups (lruGroupOf hash lru.logGroups key) g', next'⟩ :
        Lru).view hash) r := by
  have hk := (hw.groups (lruGroupOf hash lru.logGroups key)).keys
  have hk' := (h.wf (hw.groups _) rfl rfl hV).keys
  cases h with
  | found hj hit hkey hitems =>
    have hv : lru.view hash key = some _ := LruGroup.lookup_eq_some_of hk hj hit hkey
    unfold LruGetNewSpec
    rw [hv]
    exact ⟨rfl, Lru.view_update_of_items hitems _⟩
  | null habsent hitems =>
    have hv : lru.view hash key = none := LruGroup.lookup_eq_none_iff.2 habsent
    unfold LruGetNewSpec
    rw [hv]
    exact .inl ⟨rfl, Lru.view_update_of_items hitems _⟩
  | @insert g' i id next' hins hi hstored hitems =>
    -- the key is absent: a stored item has the cache's value length, no shorter one
    have hv : lru.view hash key = none := LruGroup.lookup_eq_none_iff.2 fun j hj it hit hkey => by
      have hlt := (hstored j hj it hit hkey).2
      have hlen := (hw.groups _).valLen j hj it hit
      have := hV hins
      omega
    obtain ⟨hnew, hother⟩ := LruGroup.lookup_of_insert hk hk' hi hitems
    unfold LruGetNewSpec
    rw [hv]
    refine .inr ⟨id, rfl, ?_, fun k hne => ?_⟩
    · rw [Lru.view_update, if_pos rfl]
      exact hnew
    · rw [Lru.view_update]
      split
      · next hg =>
        rw [Lru.view, hg]
        exact hother k hne
      · exact .inl rfl

/-! ## Writes and the whole-cache calls on the cache -/

/-- A write through the address of a key's item changes that item's value only. -/
theorem Lru.Wf.view_write {lru : Lru} {valLen : Nat} (hw : lru.Wf hash valLen) {key : List UInt8}
    {it : LruItem} (hit : lru.view hash key = some it) (v : List UInt8) :
    (lruWrite lru it.id v).view hash = lruWriteSpec (lru.view hash) key v := by
  funext k
  have hlk : (lruWrite lru it.id v).view hash k = (lru.view hash k).map
      fun it' => if it'.id = it.id then { it' with val := v } else it' :=
    LruGroup.lookup_write (hw.groups _).keys it.id v k
  rw [hlk, lruWriteSpec]
  by_cases hk : k = key
  · subst hk
    rw [hit, Function.update_self, Option.map_some, Option.map_some, if_pos rfl]
  · rw [Function.update_of_ne hk]
    cases hv : lru.view hash k with
    | none => rfl
    | some it' =>
      -- another key's item is at another address
      obtain ⟨j, hj, hit₀, hkey⟩ := LruGroup.exists_of_lookup_eq_some hit
      obtain ⟨j', hj', hit', hkey'⟩ := LruGroup.exists_of_lookup_eq_some hv
      have hne : it'.id ≠ it.id := by
        intro hid
        obtain ⟨hg, rfl⟩ := hw.ids _ _ j' j it' it hj' hj hit' hit₀ hid
        rw [hg, hit₀] at hit'
        cases hit'
        exact hk (hkey'.symm.trans hkey)
      rw [Option.map_some, if_neg hne]

theorem Lru.Wf.view_apply {lru : Lru} {valLen : Nat} (hw : lru.Wf hash valLen)
    (f : List UInt8 → List UInt8 → LruApplyDo) (k : List UInt8) :
    (lruApplyImpl lru f).view hash k = (lru.view hash k).filter fun it => f it.key it.val != .evict := by
  show LruGroup.lookup (if lruGroupOf hash lru.logGroups k < 2 ^ lru.logGroups then _ else _) k = _
  rw [if_pos (lruGroupOf_lt hash _ k)]
  exact LruGroup.lookup_apply (hw.groups _).keys f k

theorem Lru.view_reset (lru : Lru) (k : List UInt8) : (lruResetImpl lru).view hash k = none := by
  show LruGroup.lookup (if lruGroupOf hash lru.logGroups k < 2 ^ lru.logGroups then _ else _) k = none
  rw [if_pos (lruGroupOf_lt hash _ k)]
  exact LruGroup.empty_lookup k

/-! ## Runs -/

/-- The calls the source's assertions admit: keys of at most `UINT16_MAX` bytes. -/
def LruOp.Valid : LruOp → Prop
  | .getNew key | .set key _ | .getTry key => key.length ≤ 65535
  | .apply _ | .reset => True

/-- Every call the assertions admit on a consistent LRU of values of at most `UINT16_MAX` bytes
succeeds, keeps it consistent and acts on the cache as `LruOp.Spec` says. -/
theorem lruStep_spec {lru : Lru} {valLen : Nat} (hw : lru.Wf hash valLen) (hval : valLen ≤ 65535)
    (op : LruOp) (hop : op.Valid) :
    ∃ lru' r, lruStep hash valLen lru op = some (lru', r) ∧ lru'.Wf hash valLen ∧
      op.Spec valLen (lru.view hash) (lru'.view hash) r := by
  cases op with
  | getNew key =>
    obtain ⟨g', next', r, hget, hcase⟩ := lruGetImpl_spec hw hop valLen true fun _ => hval
    exact ⟨_, r, hget, hw.get (fun _ => rfl) hcase, hw.getSpec (fun _ => rfl) hcase⟩
  | set key v =>
    obtain ⟨g', next', r, hget, hcase⟩ := lruGetImpl_spec hw hop valLen true fun _ => hval
    have hw₁ := hw.get (fun _ => rfl) hcase
    have hspec := hw.getSpec (fun _ => rfl) hcase
    cases r with
    | none =>
      refine ⟨_, none, ?_, hw₁, _, hspec, rfl⟩
      simp only [lruStep, lruGetNew, hget, Option.map_some]
    | some hit =>
      -- the write goes through the address of the key's item
      obtain ⟨it, hit₁, hptr⟩ := hspec.view_key
      refine ⟨lruWrite _ hit.ptr v, some hit, ?_, hw₁.write _ _, _, hspec, ?_⟩
      · simp only [lruStep, lruGetNew, hget, Option.map_some]
      · rw [← hptr, hw₁.view_write hit₁]
        rfl
  | getTry key =>
    obtain ⟨g', next', r, hget, hcase⟩ := lruGetImpl_spec hw hop (2 ^ 32 - 1) false nofun
    have hV : false = true → 2 ^ 32 - 1 = valLen := fun h => absurd h Bool.false_ne_true
    have hr : ∀ id, r ≠ some ⟨id, true⟩ := by
      rintro id rfl
      exact Bool.false_ne_true hcase.isNew
    exact ⟨_, r, hget, hw.get hV hcase, (hw.getSpec hV hcase).getTry hr⟩
  | apply f => exact ⟨_, none, rfl, hw.apply f, rfl, hw.view_apply f⟩
  | reset => exact ⟨_, none, rfl, hw.reset, rfl, Lru.view_reset lru⟩

theorem lruRun_wf {valLen : Nat} (hval : valLen ≤ 65535) :
    ∀ (ops : List LruOp) {lru : Lru}, lru.Wf hash valLen → (∀ op ∈ ops, op.Valid) →
      ∃ lru', lruRun hash valLen lru ops = some lru' ∧ lru'.Wf hash valLen
  | [], lru, hw, _ => ⟨lru, rfl, hw⟩
  | op :: ops, lru, hw, hops => by
    obtain ⟨lru₁, r, hstep, hw₁, -⟩ := lruStep_spec hw hval op (hops op List.mem_cons_self)
    obtain ⟨lru', hrun, hw'⟩ :=
      lruRun_wf hval ops hw₁ fun op h => hops op (List.mem_cons_of_mem _ h)
    refine ⟨lru', ?_, hw'⟩
    rw [lruRun, hstep, Option.bind_some]
    exact hrun

/-- From `lru_create_impl`, every run of calls the source's assertions admit, on an LRU of values
of at most `UINT16_MAX` bytes, leaves a consistent LRU: each stored slot holds the top half of its
key's hash, no key is stored in two slots and the counters are 16-bit numbers, which
`group_inc_count` takes up to 65535 at most and `group_dec_counts` down to 0 at least, neither
wrapping around. From it every further call acts on the cache as `LruOp.Spec` says, so
`lru_get_try` returns the address of the key's item, which holds the value written last since the
key was inserted; and a non-NULL `lru_get_new` is followed by an `lru_get_try` of the same key that
returns the same address. -/
theorem lruRun_refines (hash : List UInt8 → UInt32) {valLen maxSlots : Nat} {lru₀ : Lru}
    (hval : valLen ≤ 65535) (hc : lruCreateImpl maxSlots = some lru₀) (ops : List LruOp)
    (hops : ∀ op ∈ ops, op.Valid) :
    ∃ lru, lruRun hash valLen lru₀ ops = some lru ∧ lru.Wf hash valLen ∧
      (∀ gi i, (lru.groups gi).counts i ≤ 65535 ∧
        ((lru.groups gi).incCount i).counts i = min ((lru.groups gi).counts i + 1) 65535) ∧
      (∀ gi, ∀ i < lruTracked + 1, (lru.groups gi).decCounts.counts i =
        Function.update (lru.groups gi).counts lruTracked lruTracked i - 1) ∧
      (∀ op, op.Valid → ∃ lru' r, lruStep hash valLen lru op = some (lru', r) ∧
        op.Spec valLen (lru.view hash) (lru'.view hash) r) ∧
      ∀ key lru' hit, lruGetNew hash valLen lru key = some (lru', some hit) →
        ∃ lru'', lruGetTry hash lru' key = some (lru'', some ⟨hit.ptr, false⟩) := by
  obtain ⟨lru, hrun, hw⟩ := lruRun_wf hval ops (lruCreateImpl_wf hc valLen) hops
  refine ⟨lru, hrun, hw, fun gi i => ?_, fun gi i hi => ?_, fun op hop => ?_,
    fun key lru' hit hnew => ?_⟩
  · -- the counters stay below 65536, so an increment saturates instead of wrapping
    have hlt := (hw.groups gi).counts i
    exact ⟨by omega, LruGroup.incCount_counts_self _ i hlt⟩
  · exact LruGroup.decCounts_counts (hw.groups gi).counts hi
  · obtain ⟨lru', r, hstep, -, hspec⟩ := lruStep_spec hw hval op hop
    exact ⟨lru', r, hstep, hspec⟩
  · -- the call succeeded, so its key passed the assertion
    have hkey : key.length ≤ 65535 := by
      by_contra hlong
      rw [lruGetNew, lruGetImpl, if_neg fun h => hlong h.1] at hnew
      cases hnew
    obtain ⟨lru₁, r, hstep, hw₁, hspec⟩ := lruStep_spec hw hval (.getNew key) hkey
    have heq : (lru₁, r) = (lru', some hit) := Option.some.inj (hstep.symm.trans hnew)
    cases heq
    obtain ⟨it, hit₁, hptr⟩ := LruGetNewSpec.view_key hspec
    obtain ⟨lru'', r', htry, -, -, hr'⟩ := lruStep_spec hw₁ hval (.getTry key) hkey
    refine ⟨lru'', ?_⟩
    rw [hr', hit₁] at htry
    rw [← hptr]
    exact htry

theorem lruRun_refines_threeSlots :
    8 ≤ 65535 ∧ lruCreateImpl 3 = some ⟨0, fun _ => LruGroup.empty, 0⟩ ∧
      (∀ op ∈ [LruOp.getNew [1], .set [1] [7], .getTry [1]], op.Valid) ∧
      ∃ lru, lruRun (fun _ => 0) 8 ⟨0, fun _ => LruGroup.empty, 0⟩
          [.getNew [1], .set [1] [7], .getTry [1]] = some lru ∧ lru.Wf (fun _ => 0) 8 ∧
        (∀ gi i, (lru.groups gi).counts i ≤ 65535 ∧
          ((lru.groups gi).incCount i).counts i = min ((lru.groups gi).counts i + 1) 65535) ∧
        (∀ gi, ∀ i < lruTracked + 1, (lru.groups gi).decCounts.counts i =
          Function.update (lru.groups gi).counts lruTracked lruTracked i - 1) ∧
        (∀ op, op.Valid → ∃ lru' r, lruStep (fun _ => 0) 8 lru op = some (lru', r) ∧
          op.Spec 8 (lru.view fun _ => 0) (lru'.view fun _ => 0) r) ∧
        ∀ key lru' hit, lruGetNew (fun _ => 0) 8 lru key = some (lru', some hit) →
          ∃ lru'', lruGetTry (fun _ => 0) lru' key = some (lru'', some ⟨hit.ptr, false⟩) := by
  have hc : lruCreateImpl 3 = some ⟨0, fun _ => LruGroup.empty, 0⟩ := by
    simp [lruCreateImpl, lruLogLoop, lruAssoc]
  have hops : ∀ op ∈ [LruOp.getNew [1], .set [1] [7], .getTry [1]], op.Valid := by
    simp [LruOp.Valid]
  exact ⟨by decide, hc, hops, lruRun_refines (fun _ => 0) (by decide) hc _ hops⟩

end KnotResolver.Generic
