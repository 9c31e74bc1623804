import KnotResolver.Generic.Map
import KnotResolver.Generic.PaddedBits

/-!
# The invariant of the crit-bit tree

A tree of `map.c` holds its keys at the leaves (`CbRef.toList`, `child[0]` before `child[1]`).
A node tests bit `i` of byte `byte` of a key, the bit at position `bitPos byte i` of the padded
key, and its `otherbits` is `critMask i`, every bit but `i` set. The invariant `CbRef.Wf` says
that the keys below a node agree on the bits before the one it tests and are split by that bit,
0 to `child[0]` and 1 to `child[1]`, and that no key holds a zero byte.

Under it a walk ends at the leaf of the key walked with when that key is present
(`Wf.cbtWalk_of_mem`), the keys are distinct (`Wf.nodup`) and in the order of `strcmp`
(`Wf.sorted`), nodes below a node test later bits (`Wf.testsFrom_child0`), and each change to
the tree that `map_set` and `map_del` make keeps the invariant: setting a value
(`Wf.cbtSetValue`), adding a node at the first bit where the new key differs from the leaf it
reaches (`Wf.cbtInsert`), and unlinking a leaf (`Wf.cbtDelete`).
-/

namespace KnotResolver.Generic

variable {α : Type u}

/-! ## Masks -/

/-- The `otherbits` of a node testing bit `i` of its byte: every bit but `i` set. -/
def critMask (i : Fin 8) : UInt8 := (255 - 2 ^ i.val : Nat).toUInt8

set_option maxRecDepth 10000 in
/-- At a node testing bit `i`, the direction of a byte is its bit `i`. -/
theorem cbDirection_critMask : ∀ (i : Fin 8) (c : UInt8),
    cbDirection (critMask i) c = if c.toNat.testBit i then 1 else 0 := by
  decide

set_option maxRecDepth 10000 in
/-- The smeared difference of `map_set` is the mask of the highest bit of the difference. -/
theorem cbOtherbits_spec : ∀ x : UInt8, x ≠ 0 → ∃ i : Fin 8, cbOtherbits x = critMask i ∧
    x.toNat.testBit i = true ∧ ∀ j : Fin 8, i < j → x.toNat.testBit j = false := by
  decide

/-- Masks of more important bits are larger. -/
theorem critMask_lt_critMask_iff : ∀ i j : Fin 8, critMask i < critMask j ↔ j < i := by
  decide

/-- The direction of a string at a node testing bit `i` of byte `byte` is its bit there. -/
theorem cbDirection_critMask_getD (i : Fin 8) (str : List UInt8) (byte : Nat) :
    cbDirection (critMask i) (str.getD byte 0) = if bitAt str (bitPos byte i) then 1 else 0 := by
  rw [cbDirection_critMask, bitAt_bitPos str byte i.isLt]

theorem cbDirection_critMask_eq_zero_iff (i : Fin 8) (str : List UInt8) (byte : Nat) :
    cbDirection (critMask i) (str.getD byte 0) = 0 ↔ bitAt str (bitPos byte i) = false := by
  rw [cbDirection_critMask_getD]
  cases bitAt str (bitPos byte i) <;> simp

/-- The test that stops the insertion loop of `map_set` at a node: the node tests a later bit
than the new one. -/
theorem insertStop_iff (byte newbyte : Nat) (i newi : Fin 8) :
    (byte > newbyte ∨ (byte = newbyte ∧ critMask i > critMask newi)) ↔
      bitPos newbyte newi < bitPos byte i := by
  rw [bitPos_lt_bitPos_iff newi.isLt i.isLt, gt_iff_lt, gt_iff_lt, critMask_lt_critMask_iff,
    Fin.lt_def]
  constructor
  · rintro (h | ⟨rfl, h⟩)
    · exact Or.inl h
    · exact Or.inr ⟨rfl, h⟩
  · rintro (h | ⟨rfl, h⟩)
    · exact Or.inl h
    · exact Or.inr ⟨rfl, h⟩

/-! ## Contents -/

/-- The pairs of the leaves, `child[0]` before `child[1]`. -/
def CbRef.toList : CbRef α → List (List UInt8 × α)
  | .data key value => [(key, value)]
  | .node _ _ child0 child1 => child0.toList ++ child1.toList

/-- The keys of the leaves. -/
def CbRef.keys (p : CbRef α) : List (List UInt8) := p.toList.map Prod.fst

namespace CbRef

@[simp] theorem toList_data (key : List UInt8) (value : α) :
    (CbRef.data key value).toList = [(key, value)] := rfl

@[simp] theorem toList_node (byte : Nat) (otherbits : UInt8) (child0 child1 : CbRef α) :
    (CbRef.node byte otherbits child0 child1).toList = child0.toList ++ child1.toList := rfl

@[simp] theorem keys_data (key : List UInt8) (value : α) : (CbRef.data key value).keys = [key] :=
  rfl

@[simp] theorem keys_node (byte : Nat) (otherbits : UInt8) (child0 child1 : CbRef α) :
    (CbRef.node byte otherbits child0 child1).keys = child0.keys ++ child1.keys := by
  simp [keys]

theorem mem_keys_of_mem {p : CbRef α} {key : List UInt8} {value : α} (h : (key, value) ∈ p.toList) :
    key ∈ p.keys :=
  List.mem_map_of_mem (f := Prod.fst) h

theorem exists_mem_keys (p : CbRef α) : ∃ k, k ∈ p.keys := by
  induction p with
  | data key value => exact ⟨key, by simp⟩
  | node _ _ _ _ ih₀ _ =>
    obtain ⟨k, hk⟩ := ih₀
    exact ⟨k, by simp [hk]⟩

/-- The nodes of `p`, if any, test a byte from `n` on. -/
def TestsFrom (n : Nat) : CbRef α → Prop
  | .data .. => True
  | .node byte .. => n ≤ byte

end CbRef

/-- The invariant of a tree of `map.c`: no key holds a zero byte, and a node testing bit `i` of
byte `byte` has `otherbits = critMask i`, the keys of `child0` have that bit 0 and those of
`child1` have it 1, and all its keys agree on the bits before it. -/
inductive CbRef.Wf : CbRef α → Prop
  | data {key : List UInt8} {value : α} : 0 ∉ key → (CbRef.data key value).Wf
  | node {byte : Nat} {child0 child1 : CbRef α} (i : Fin 8) : child0.Wf → child1.Wf →
      (∀ k ∈ child0.keys, bitAt k (bitPos byte i) = false) →
      (∀ k ∈ child1.keys, bitAt k (bitPos byte i) = true) →
      (∀ k ∈ child0.keys ++ child1.keys, ∀ k' ∈ child0.keys ++ child1.keys,
        AgreeBits k k' (bitPos byte i)) →
      (CbRef.node byte (critMask i) child0 child1).Wf

/-! ## Walks -/

/-- The walk of any string ends at a leaf of the tree. -/
theorem cbtWalk_mem (str : List UInt8) : ∀ p : CbRef α, cbtWalk str p ∈ p.toList
  | .data key value => by simp [cbtWalk]
  | .node byte otherbits child0 child1 => by
    rw [cbtWalk]
    split
    · exact List.mem_append_left _ (cbtWalk_mem str child0)
    · exact List.mem_append_right _ (cbtWalk_mem str child1)

theorem cbtWalk_mem_keys (str : List UInt8) (p : CbRef α) : (cbtWalk str p).1 ∈ p.keys :=
  CbRef.mem_keys_of_mem (cbtWalk_mem str p)

/-- At a node testing bit `i`, a walk goes to `child0` when the string has bit 0 there. -/
theorem cbtWalk_node_of_false {str : List UInt8} {byte : Nat} {i : Fin 8}
    {child0 child1 : CbRef α} (h : bitAt str (bitPos byte i) = false) :
    cbtWalk str (.node byte (critMask i) child0 child1) = cbtWalk str child0 := by
  rw [cbtWalk, if_pos ((cbDirection_critMask_eq_zero_iff i str byte).2 h)]

theorem cbtWalk_node_of_true {str : List UInt8} {byte : Nat} {i : Fin 8}
    {child0 child1 : CbRef α} (h : bitAt str (bitPos byte i) = true) :
    cbtWalk str (.node byte (critMask i) child0 child1) = cbtWalk str child1 := by
  rw [cbtWalk, if_neg (by rw [cbDirection_critMask_eq_zero_iff]; simp [h])]

namespace CbRef.Wf

variable {p : CbRef α}

theorem zero_free (h : p.Wf) : ∀ k ∈ p.keys, 0 ∉ k := by
  induction h with
  | data hk => simpa using hk
  | node _ _ _ _ _ _ ih₀ ih₁ =>
    intro k hk
    rcases List.mem_append.1 (by simpa using hk) with hk | hk
    · exact ih₀ k hk
    · exact ih₁ k hk

/-- A key of the tree is found by walking with it. -/
theorem cbtWalk_of_mem (h : p.Wf) {key : List UInt8} {value : α} (hk : (key, value) ∈ p.toList) :
    cbtWalk key p = (key, value) := by
  induction h with
  | data =>
    obtain ⟨rfl, rfl⟩ := by simpa using hk
    rfl
  | node i _ _ hb₀ hb₁ _ ih₀ ih₁ =>
    rcases List.mem_append.1 (by simpa using hk) with hk | hk
    · rw [cbtWalk_node_of_false (hb₀ key (CbRef.mem_keys_of_mem hk))]
      exact ih₀ hk
    · rw [cbtWalk_node_of_true (hb₁ key (CbRef.mem_keys_of_mem hk))]
      exact ih₁ hk

/-- The keys of the tree are distinct. -/
theorem nodup (h : p.Wf) : p.keys.Nodup := by
  induction h with
  | data => simp
  | node i _ _ hb₀ hb₁ _ ih₀ ih₁ =>
    rw [CbRef.keys_node, List.nodup_append]
    refine ⟨ih₀, ih₁, fun k hk k' hk' heq => ?_⟩
    have h₀ := hb₀ k hk
    rw [heq, hb₁ k' hk'] at h₀
    exact Bool.noConfusion h₀

/-- The keys of the tree come in the order of `strcmp`. -/
theorem sorted (h : p.Wf) : p.keys.Pairwise (List.Lex (· < ·)) := by
  induction h with
  | data => simp
  | node i h₀ h₁ hb₀ hb₁ hag ih₀ ih₁ =>
    rw [CbRef.keys_node, List.pairwise_append]
    refine ⟨ih₀, ih₁, fun k hk k' hk' => ?_⟩
    exact lex_of_agreeBits (zero_free h₀ k hk) (zero_free h₁ k' hk')
      (hag k (List.mem_append_left _ hk) k' (List.mem_append_right _ hk')) (hb₀ k hk) (hb₁ k' hk')

/-- A walk reaches the leaf of a string exactly when the string is a key. -/
theorem cbtWalk_eq_iff (h : p.Wf) (str : List UInt8) : (cbtWalk str p).1 = str ↔ str ∈ p.keys := by
  constructor
  · intro heq
    rw [← heq]
    exact cbtWalk_mem_keys str p
  · intro hk
    obtain ⟨⟨k, v⟩, hmem, rfl⟩ := List.mem_map.1 hk
    rw [h.cbtWalk_of_mem hmem]

/-- The parts of the invariant at a node. -/
theorem node_inv {byte : Nat} {otherbits : UInt8} {child0 child1 : CbRef α}
    (h : (CbRef.node byte otherbits child0 child1).Wf) :
    ∃ i : Fin 8, otherbits = critMask i ∧ child0.Wf ∧ child1.Wf ∧
      (∀ k ∈ child0.keys, bitAt k (bitPos byte i) = false) ∧
      (∀ k ∈ child1.keys, bitAt k (bitPos byte i) = true) ∧
      (∀ k ∈ child0.keys ++ child1.keys, ∀ k' ∈ child0.keys ++ child1.keys,
        AgreeBits k k' (bitPos byte i)) := by
  cases h with
  | node i h₀ h₁ hb₀ hb₁ hag => exact ⟨i, rfl, h₀, h₁, hb₀, hb₁, hag⟩

/-- The keys below a node do not all agree on the bit it tests, so they agree on no more bits
than those of the bytes before its own. -/
theorem lt_of_agree {byte : Nat} {otherbits : UInt8} {child0 child1 : CbRef α} {n : Nat}
    (h : (CbRef.node byte otherbits child0 child1).Wf)
    (hag : ∀ k ∈ child0.keys ++ child1.keys, ∀ k' ∈ child0.keys ++ child1.keys, AgreeBits k k' n) :
    n < 8 * (byte + 1) := by
  obtain ⟨i, -, -, -, hb₀, hb₁, -⟩ := h.node_inv
  obtain ⟨k, hk⟩ := child0.exists_mem_keys
  obtain ⟨k', hk'⟩ := child1.exists_mem_keys
  have hpos : bitPos byte i < 8 * (byte + 1) := by unfold bitPos; omega
  by_contra hle
  have heq := hag k (List.mem_append_left _ hk) k' (List.mem_append_right _ hk') (bitPos byte i)
    (by omega)
  rw [hb₀ k hk, hb₁ k' hk'] at heq
  exact Bool.false_ne_true heq

/-- The nodes below a node test bytes from its own on. -/
theorem testsFrom_children {byte : Nat} {otherbits : UInt8} {child0 child1 : CbRef α}
    (h : (CbRef.node byte otherbits child0 child1).Wf) :
    child0.TestsFrom byte ∧ child1.TestsFrom byte := by
  obtain ⟨i, -, h₀, h₁, hb₀, hb₁, hag⟩ := h.node_inv
  -- the keys of a child agree below the bit after the one the node tests
  have hchild : ∀ c : CbRef α, c.Wf → (∀ k ∈ c.keys, k ∈ child0.keys ++ child1.keys) →
      (∀ k ∈ c.keys, ∀ k' ∈ c.keys, bitAt k (bitPos byte i) = bitAt k' (bitPos byte i)) →
      c.TestsFrom byte := by
    intro c hc hsub hbit
    cases c with
    | data => trivial
    | node byte' otherbits' d₀ d₁ =>
      have hlt := hc.lt_of_agree (n := bitPos byte i + 1) fun k hk k' hk' =>
        (hag k (hsub k (by simpa using hk)) k' (hsub k' (by simpa using hk'))).succ
          (hbit k (by simpa using hk) k' (by simpa using hk'))
      show byte ≤ byte'
      unfold bitPos at hlt
      omega
  refine ⟨hchild child0 h₀ (fun k hk => List.mem_append_left _ hk) fun k hk k' hk' => ?_,
    hchild child1 h₁ (fun k hk => List.mem_append_right _ hk) fun k hk k' hk' => ?_⟩
  · rw [hb₀ k hk, hb₀ k' hk']
  · rw [hb₁ k hk, hb₁ k' hk']

end CbRef.Wf

/-! ## Setting a value -/

section SetValue

variable (str : List UInt8) (val : α)

theorem cbtSetValue_keys : ∀ p : CbRef α, (cbtSetValue str val p).keys = p.keys
  | .data .. => rfl
  | .node byte otherbits child0 child1 => by
    rw [cbtSetValue]
    split
    · rw [CbRef.keys_node, CbRef.keys_node, cbtSetValue_keys child0]
    · rw [CbRef.keys_node, CbRef.keys_node, cbtSetValue_keys child1]

/-- Only the entry of `str` changes, to the new value. -/
def setEntry (e : List UInt8 × α) : List UInt8 × α := if e.1 = str then (str, val) else e

theorem map_setEntry_of_not_mem {l : List (List UInt8 × α)} (h : str ∉ l.map Prod.fst) :
    l.map (setEntry str val) = l := by
  rw [List.map_congr_left (g := id), List.map_id]
  intro e he
  have hne : e.1 ≠ str := fun heq => h (heq ▸ List.mem_map_of_mem he)
  rw [setEntry, if_neg hne, id]

end SetValue

namespace CbRef.Wf

variable {p : CbRef α} {str : List UInt8}

theorem cbtSetValue (h : p.Wf) (val : α) : (Generic.cbtSetValue str val p).Wf := by
  induction h with
  | data hk => exact .data hk
  | node i h₀ h₁ hb₀ hb₁ hag ih₀ ih₁ =>
    rw [Generic.cbtSetValue]
    split
    · refine .node i ih₀ h₁ ?_ hb₁ ?_ <;> rwa [cbtSetValue_keys]
    · refine .node i h₀ ih₁ hb₀ ?_ ?_ <;> rwa [cbtSetValue_keys]

/-- Setting the value of a key changes its entry and no other. -/
theorem cbtSetValue_toList (h : p.Wf) (hs : str ∈ p.keys) (val : α) :
    (Generic.cbtSetValue str val p).toList = p.toList.map (setEntry str val) := by
  induction h with
  | data =>
    obtain rfl : str = _ := by simpa using hs
    simp [Generic.cbtSetValue, setEntry]
  | node i h₀ h₁ hb₀ hb₁ _ ih₀ ih₁ =>
    rw [Generic.cbtSetValue, CbRef.toList_node, List.map_append]
    cases hbit : bitAt str (bitPos _ i)
    · -- `str` has bit 0, so it is a key of `child0` and of no leaf of `child1`
      have hs₁ : str ∉ _ := fun hs₁ => by rw [hb₁ str hs₁] at hbit; cases hbit
      have hs₀ : str ∈ _ := (List.mem_append.1 (by simpa using hs)).resolve_right hs₁
      rw [if_pos ((cbDirection_critMask_eq_zero_iff i str _).2 hbit), CbRef.toList_node, ih₀ hs₀,
        map_setEntry_of_not_mem str val hs₁]
    · have hs₀ : str ∉ _ := fun hs₀ => by rw [hb₀ str hs₀] at hbit; cases hbit
      have hs₁ : str ∈ _ := (List.mem_append.1 (by simpa using hs)).resolve_left hs₀
      rw [if_neg (by rw [cbDirection_critMask_eq_zero_iff, hbit]; decide), CbRef.toList_node,
        ih₁ hs₁, map_setEntry_of_not_mem str val hs₀]

end CbRef.Wf


/-! ## Adding a node -/

section Insert

variable (str : List UInt8) (x : CbRef α) (newbyte : Nat) (newotherbits : UInt8)
  (newdirection : Nat)

theorem cbtNewNode_toList_perm (old : CbRef α) :
    (cbtNewNode newbyte newotherbits newdirection old x).toList.Perm (x.toList ++ old.toList) := by
  unfold cbtNewNode
  split
  · exact List.perm_append_comm
  · exact List.Perm.refl _

/-- The insertion loop adds the leaves of `x` to those of the tree. -/
theorem cbtInsert_toList_perm : ∀ p : CbRef α,
    (cbtInsert str x newbyte newotherbits newdirection p).toList.Perm (x.toList ++ p.toList)
  | .data .. => cbtNewNode_toList_perm ..
  | .node byte otherbits child0 child1 => by
    rw [cbtInsert]
    split
    · exact cbtNewNode_toList_perm ..
    split
    · rw [CbRef.toList_node, CbRef.toList_node, ← List.append_assoc]
      exact (cbtInsert_toList_perm child0).append_right _
    · rw [CbRef.toList_node, CbRef.toList_node]
      exact ((cbtInsert_toList_perm child1).append_left _).trans (List.perm_append_comm_assoc _ _ _)

theorem mem_keys_cbtInsert {p : CbRef α} {k : List UInt8} :
    k ∈ (cbtInsert str x newbyte newotherbits newdirection p).keys ↔ k ∈ x.keys ∨ k ∈ p.keys := by
  rw [CbRef.keys, ((cbtInsert_toList_perm str x newbyte newotherbits newdirection p).map _).mem_iff,
    List.map_append, List.mem_append]
  rfl

end Insert

namespace CbRef.Wf

section Insert

variable {str : List UInt8} {val : α} {newbyte : Nat} {newi : Fin 8} {k0 : List UInt8}

/-- The new node of `map_set` keeps the invariant, when it tests the first bit where `str`
differs from a key `k0` whose bits up to there all the keys of the subtree below it share. -/
theorem cbtNewNode {old : CbRef α} (hold : old.Wf) (hstr : 0 ∉ str)
    (hagree : AgreeBits str k0 (bitPos newbyte newi))
    (hdiff : bitAt str (bitPos newbyte newi) ≠ bitAt k0 (bitPos newbyte newi))
    (hk0 : ∀ k ∈ old.keys, AgreeBits k k0 (bitPos newbyte newi + 1)) :
    (Generic.cbtNewNode newbyte (critMask newi) (if bitAt k0 (bitPos newbyte newi) then 1 else 0)
      old (.data str val)).Wf := by
  -- the keys of `old` have the bit of `k0`, and `str` the other one
  have hold_bit : ∀ k ∈ old.keys, bitAt k (bitPos newbyte newi) = bitAt k0 (bitPos newbyte newi) :=
    fun k hk => hk0 k hk _ (Nat.lt_succ_self _)
  have href : ∀ k ∈ old.keys ++ [str], AgreeBits k k0 (bitPos newbyte newi) := by
    intro k hk
    rcases List.mem_append.1 hk with hk | hk
    · exact (hk0 k hk).mono (Nat.le_succ _)
    · obtain rfl : k = str := List.mem_singleton.1 hk
      exact hagree
  unfold Generic.cbtNewNode
  cases hb : bitAt k0 (bitPos newbyte newi)
  · rw [hb] at hold_bit hdiff
    refine .node newi hold (.data hstr) (fun k hk => (hold_bit k hk)) ?_ (agreeBits_pairwise href)
    intro k hk
    obtain rfl : k = str := by simpa using hk
    simpa using hdiff
  · rw [hb] at hold_bit hdiff
    refine .node newi (.data hstr) hold ?_ (fun k hk => (hold_bit k hk)) ?_
    · intro k hk
      obtain rfl : k = str := by simpa using hk
      simpa using hdiff
    · exact agreeBits_pairwise fun k hk => href k (List.mem_append.2 (List.mem_append.1 hk).symm)

/-- The insertion loop of `map_set` keeps the invariant, when the new node tests the first bit
where `str` differs from the key `k0` of the leaf that `str` reaches. -/
theorem cbtInsert {p : CbRef α} (h : p.Wf) (hstr : 0 ∉ str)
    (hagree : AgreeBits str k0 (bitPos newbyte newi))
    (hdiff : bitAt str (bitPos newbyte newi) ≠ bitAt k0 (bitPos newbyte newi))
    (hwalk : (cbtWalk str p).1 = k0) :
    (Generic.cbtInsert str (.data str val) newbyte (critMask newi)
      (if bitAt k0 (bitPos newbyte newi) then 1 else 0) p).Wf := by
  induction h with
  | data hk =>
    refine cbtNewNode (.data hk) hstr hagree hdiff fun k hk' => ?_
    obtain rfl : k = _ := by simpa using hk'
    rw [← hwalk]
    exact AgreeBits.refl _ _
  | @node byte child0 child1 i h₀ h₁ hb₀ hb₁ hag ih₀ ih₁ =>
    have hk0 : k0 ∈ child0.keys ++ child1.keys := by
      rw [← hwalk, ← CbRef.keys_node byte (critMask i)]
      exact cbtWalk_mem_keys str _
    rw [Generic.cbtInsert]
    split
    · -- the node tests a later bit: the new node goes above it
      next hstop =>
      rw [insertStop_iff] at hstop
      exact cbtNewNode (.node i h₀ h₁ hb₀ hb₁ hag) hstr hagree hdiff fun k hk =>
        (hag k (by simpa using hk) k0 hk0).mono hstop
    next hstop =>
    rw [insertStop_iff] at hstop
    -- `str` agrees below this node with `k0`, hence with every key below it
    have hstr_ref : AgreeBits str k0 (bitPos byte i) := hagree.mono (by omega)
    split
    · next hdir =>
      rw [cbDirection_critMask_eq_zero_iff] at hdir
      rw [cbtWalk_node_of_false hdir] at hwalk
      refine .node i (ih₀ hwalk) h₁ (fun k hk => ?_) hb₁ (agreeBits_pairwise (r := k0) fun k hk => ?_)
      · rcases (mem_keys_cbtInsert ..).1 hk with hk | hk
        · obtain rfl : k = str := by simpa using hk
          exact hdir
        · exact hb₀ k hk
      · rcases List.mem_append.1 hk with hk | hk
        · rcases (mem_keys_cbtInsert ..).1 hk with hk | hk
          · obtain rfl : k = str := by simpa using hk
            exact hstr_ref
          · exact hag k (List.mem_append_left _ hk) k0 hk0
        · exact hag k (List.mem_append_right _ hk) k0 hk0
    · next hdir =>
      rw [cbDirection_critMask_eq_zero_iff, Bool.not_eq_false] at hdir
      rw [cbtWalk_node_of_true hdir] at hwalk
      refine .node i h₀ (ih₁ hwalk) hb₀ (fun k hk => ?_) (agreeBits_pairwise (r := k0) fun k hk => ?_)
      · rcases (mem_keys_cbtInsert ..).1 hk with hk | hk
        · obtain rfl : k = str := by simpa using hk
          exact hdir
        · exact hb₁ k hk
      · rcases List.mem_append.1 hk with hk | hk
        · exact hag k (List.mem_append_left _ hk) k0 hk0
        · rcases (mem_keys_cbtInsert ..).1 hk with hk | hk
          · obtain rfl : k = str := by simpa using hk
            exact hstr_ref
          · exact hag k (List.mem_append_right _ hk) k0 hk0

end Insert

end CbRef.Wf

/-! ## Unlinking a leaf -/

/-- `map_del` finds nothing to delete exactly when the leaf it reaches holds another key. -/
theorem cbtDelete_eq_none_iff (str : List UInt8) :
    ∀ p : CbRef α, cbtDelete str p = none ↔ (cbtWalk str p).1 ≠ str
  | .data key _ => by
    rw [cbtDelete, cbtWalk]
    by_cases h : str = key
    · simp [h]
    · simp [h, Ne.symm h]
  | .node byte otherbits child0 child1 => by
    rw [cbtDelete, cbtWalk]
    split
    · rw [Option.map_eq_none_iff, cbtDelete_eq_none_iff str child0]
    · rw [Option.map_eq_none_iff, cbtDelete_eq_none_iff str child1]

/-- The entries of a tree, or of no tree, without those of `str`. -/
theorem mem_keys_of_toList_eq_filter {q p : CbRef α} {f : List UInt8 × α → Bool}
    (hq : q.toList = p.toList.filter f) {k : List UInt8} (hk : k ∈ q.keys) : k ∈ p.keys := by
  obtain ⟨e, he, rfl⟩ := List.mem_map.1 hk
  rw [hq] at he
  exact CbRef.mem_keys_of_mem (List.mem_filter.1 he).1

theorem filter_ne_of_not_mem {str : List UInt8} {l : List (List UInt8 × α)}
    (h : str ∉ l.map Prod.fst) : l.filter (fun e => decide (e.1 ≠ str)) = l := by
  rw [List.filter_eq_self]
  intro e he
  have hne : e.1 ≠ str := fun heq => h (heq ▸ List.mem_map_of_mem he)
  simpa using hne

namespace CbRef.Wf

/-- Unlinking the leaf of `str` keeps the invariant and removes the entry of `str`, and only
it. -/
theorem cbtDelete {p : CbRef α} (h : p.Wf) {str : List UInt8} {r : Option (CbRef α)}
    (hd : Generic.cbtDelete str p = some r) :
    (∀ q ∈ r, q.Wf) ∧ (r.map CbRef.toList).getD [] = p.toList.filter (fun e => decide (e.1 ≠ str)) := by
  induction h generalizing r with
  | data =>
    rw [Generic.cbtDelete] at hd
    split at hd
    · next heq =>
      cases hd
      simp [heq]
    · cases hd
  | @node byte child0 child1 i h₀ h₁ hb₀ hb₁ hag ih₀ ih₁ =>
    rw [Generic.cbtDelete] at hd
    rw [CbRef.toList_node, List.filter_append]
    split at hd
    · next hdir =>
      rw [cbDirection_critMask_eq_zero_iff] at hdir
      -- `str` has bit 0, so `child1` keeps all its entries
      have hs₁ : str ∉ child1.keys := fun hs₁ => by rw [hb₁ str hs₁] at hdir; cases hdir
      rw [filter_ne_of_not_mem hs₁]
      obtain ⟨r₀, hd₀, rfl⟩ := Option.map_eq_some_iff.1 hd
      obtain ⟨hwf₀, hl₀⟩ := ih₀ hd₀
      cases r₀ with
      | none =>
        refine ⟨fun q hq => by cases hq; exact h₁, ?_⟩
        rw [← hl₀]
        rfl
      | some c =>
        have hc := hwf₀ c rfl
        have hsub : ∀ k ∈ c.keys, k ∈ child0.keys := fun k hk => mem_keys_of_toList_eq_filter hl₀ hk
        refine ⟨fun q hq => ?_, ?_⟩
        · cases hq
          refine .node i hc h₁ (fun k hk => hb₀ k (hsub k hk)) hb₁ fun k hk k' hk' => ?_
          have hmem : ∀ k ∈ c.keys ++ child1.keys, k ∈ child0.keys ++ child1.keys := fun k hk =>
            (List.mem_append.1 hk).elim (fun hk => List.mem_append_left _ (hsub k hk))
              (List.mem_append_right _)
          exact hag k (hmem k hk) k' (hmem k' hk')
        · rw [← hl₀]
          rfl
    · next hdir =>
      rw [cbDirection_critMask_eq_zero_iff, Bool.not_eq_false] at hdir
      have hs₀ : str ∉ child0.keys := fun hs₀ => by rw [hb₀ str hs₀] at hdir; cases hdir
      rw [filter_ne_of_not_mem hs₀]
      obtain ⟨r₁, hd₁, rfl⟩ := Option.map_eq_some_iff.1 hd
      obtain ⟨hwf₁, hl₁⟩ := ih₁ hd₁
      cases r₁ with
      | none =>
        refine ⟨fun q hq => by cases hq; exact h₀, ?_⟩
        rw [← hl₁]
        simp
      | some c =>
        have hc := hwf₁ c rfl
        have hsub : ∀ k ∈ c.keys, k ∈ child1.keys := fun k hk => mem_keys_of_toList_eq_filter hl₁ hk
        refine ⟨fun q hq => ?_, ?_⟩
        · cases hq
          refine .node i h₀ hc hb₀ (fun k hk => hb₁ k (hsub k hk)) fun k hk k' hk' => ?_
          have hmem : ∀ k ∈ child0.keys ++ c.keys, k ∈ child0.keys ++ child1.keys := fun k hk =>
            (List.mem_append.1 hk).elim (List.mem_append_left _)
              (fun hk => List.mem_append_right _ (hsub k hk))
          exact hag k (hmem k hk) k' (hmem k' hk')
        · rw [← hl₁]
          rfl

end CbRef.Wf

end KnotResolver.Generic
