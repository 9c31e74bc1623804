import Mathlib

/-!
# Cells, chains and segments of memory

A `Heap` holds cells at numbered addresses: `alloc` takes the next fresh address, `free`
empties a cell, and a read of an empty cell is a read of freed memory. `Heap.Chain next h p ps`
says that following the `next` pointer of each cell from `p` visits the allocated cells `ps`
and ends in NULL: the shape of a singly linked list. A write to a cell off the chain, or one
that keeps its `next`, leaves the chain as it is (`Chain.frame`), and a cell linked after the
last one extends it (`Chain.snoc`).

`List.segment f off len` is the part of an array `f` from `off` of length `len`.
-/

/-- Cells at numbered addresses, none at or above `fresh`. -/
structure Heap (β : Type u) where
  cells : Nat → Option β
  fresh : Nat
  above_fresh : ∀ p, fresh ≤ p → cells p = none

namespace Heap

variable {β : Type u}

def empty : Heap β := ⟨fun _ => none, 0, fun _ _ => rfl⟩

/-- A new cell holding `b`, at the fresh address. -/
def alloc (h : Heap β) (b : β) : Heap β × Nat :=
  (⟨fun p => if p = h.fresh then some b else h.cells p, h.fresh + 1, fun p hp => by
    rw [if_neg (by omega)]
    exact h.above_fresh p (by omega)⟩, h.fresh)

/-- The cell at `p` freed. -/
def free (h : Heap β) (p : Nat) : Heap β :=
  ⟨fun q => if q = p then none else h.cells q, h.fresh, fun q hq => by
    split
    · rfl
    · exact h.above_fresh q hq⟩

/-- A write of `b` to the allocated cell at `p`; a freed cell stays freed. -/
def set (h : Heap β) (p : Nat) (b : β) : Heap β :=
  ⟨fun q => if q = p then (h.cells q).map fun _ => b else h.cells q, h.fresh, fun q hq => by
    split <;> rw [h.above_fresh q hq]
    rfl⟩

theorem ext {h h' : Heap β} (hc : h.cells = h'.cells) (hf : h.fresh = h'.fresh) : h = h' := by
  cases h
  cases h'
  subst hc hf
  rfl

theorem set_set (h : Heap β) (p : Nat) (b b' : β) : (h.set p b).set p b' = h.set p b' := by
  refine ext (funext fun q => ?_) rfl
  simp only [set]
  split
  · next hq =>
    subst hq
    simp only [Option.map_map]
    rfl
  · rfl

@[simp] theorem cells_alloc_self (h : Heap β) (b : β) : (h.alloc b).1.cells (h.alloc b).2 = some b :=
  if_pos rfl

theorem cells_alloc_of_ne {h : Heap β} {b : β} {p : Nat} (hp : p ≠ h.fresh) :
    (h.alloc b).1.cells p = h.cells p :=
  if_neg hp

@[simp] theorem cells_free_self (h : Heap β) (p : Nat) : (h.free p).cells p = none := if_pos rfl

theorem cells_free_of_ne {h : Heap β} {p q : Nat} (hq : q ≠ p) : (h.free p).cells q = h.cells q :=
  if_neg hq

theorem cells_set_self {h : Heap β} {p : Nat} {b b' : β} (hp : h.cells p = some b') :
    (h.set p b).cells p = some b := by
  simp only [set, if_pos, hp, Option.map_some]

theorem cells_set_of_ne {h : Heap β} {p q : Nat} {b : β} (hq : q ≠ p) : (h.set p b).cells q = h.cells q :=
  if_neg hq

theorem lt_fresh {h : Heap β} {p : Nat} {b : β} (hp : h.cells p = some b) : p < h.fresh := by
  by_contra hge
  rw [h.above_fresh p (Nat.le_of_not_lt hge)] at hp
  cases hp

/-- Following `next` from `p` visits the allocated cells `ps` and reaches NULL. -/
inductive Chain (next : β → Option Nat) (h : Heap β) : Option Nat → List Nat → Prop
  | nil : Chain next h none []
  | cons {p : Nat} {b : β} {ps : List Nat} (hp : h.cells p = some b) (hn : Chain next h (next b) ps) :
      Chain next h (some p) (p :: ps)

namespace Chain

variable {next : β → Option Nat} {h h' : Heap β}

theorem allocated {p : Option Nat} {ps : List Nat} (hc : Chain next h p ps) :
    ∀ q ∈ ps, ∃ b, h.cells q = some b := by
  induction hc with
  | nil => intro q hq; cases hq
  | cons hp _ ih =>
    intro q hq
    rcases List.mem_cons.1 hq with rfl | hq
    · exact ⟨_, hp⟩
    · exact ih q hq

theorem fresh_not_mem {p : Option Nat} {ps : List Nat} (hc : Chain next h p ps) : h.fresh ∉ ps := by
  intro hmem
  obtain ⟨b, hb⟩ := hc.allocated _ hmem
  exact Nat.lt_irrefl _ (lt_fresh hb)

/-- The chain survives any change to its cells that keeps each one allocated with its `next`. -/
theorem frame {p : Option Nat} {ps : List Nat} (hc : Chain next h p ps)
    (hkeep : ∀ q ∈ ps, ∀ b, h.cells q = some b → ∃ b', h'.cells q = some b' ∧ next b' = next b) :
    Chain next h' p ps := by
  induction hc with
  | nil => exact .nil
  | @cons q b ps hq _ ih =>
    obtain ⟨b', hb', hn⟩ := hkeep q List.mem_cons_self b hq
    refine .cons hb' ?_
    rw [hn]
    exact ih fun r hr => hkeep r (List.mem_cons_of_mem q hr)

/-- A cell whose `next` is NULL linked after the last cell of the chain. -/
theorem snoc {p : Option Nat} {ps : List Nat} {l n : Nat} {bl bn : β} (hc : Chain next h p (ps ++ [l]))
    (hl : h'.cells l = some bl) (hnext : next bl = some n) (hn : h'.cells n = some bn)
    (hnil : next bn = none)
    (hkeep : ∀ q ∈ ps, ∀ b, h.cells q = some b → ∃ b', h'.cells q = some b' ∧ next b' = next b) :
    Chain next h' p (ps ++ [l, n]) := by
  induction ps generalizing p with
  | nil =>
    cases hc with
    | cons _ _ => exact .cons hl (hnext ▸ .cons hn (hnil ▸ .nil))
  | cons q ps ih =>
    cases hc with
    | @cons _ b _ hq hrest =>
      obtain ⟨b', hb', hnb⟩ := hkeep q List.mem_cons_self b hq
      refine .cons hb' ?_
      rw [hnb]
      exact ih hrest fun r hr => hkeep r (List.mem_cons_of_mem q hr)

theorem eq_nil_iff {p : Option Nat} {ps : List Nat} (hc : Chain next h p ps) : p = none ↔ ps = [] := by
  cases hc with
  | nil => exact ⟨fun _ => rfl, fun _ => rfl⟩
  | cons _ _ => exact ⟨nofun, nofun⟩

/-- The last cell of a chain links to NULL. -/
theorem next_last {p : Option Nat} {ps : List Nat} {l : Nat} (hc : Chain next h p (ps ++ [l])) :
    ∃ b, h.cells l = some b ∧ next b = none := by
  induction ps generalizing p with
  | nil =>
    cases hc with
    | cons hl hrest => exact ⟨_, hl, hrest.eq_nil_iff.2 rfl⟩
  | cons q ps ih =>
    cases hc with
    | cons _ hrest => exact ih hrest

end Chain

end Heap

namespace List

variable {β : Type u}

/-- The part of the array `f` from `off` of length `len`. -/
def segment (f : Nat → β) (off len : Nat) : List β := (List.range len).map fun i => f (off + i)

@[simp] theorem length_segment (f : Nat → β) (off len : Nat) : (segment f off len).length = len := by
  simp [segment]

@[simp] theorem segment_zero (f : Nat → β) (off : Nat) : segment f off 0 = [] := rfl

theorem segment_succ (f : Nat → β) (off len : Nat) :
    segment f off (len + 1) = segment f off len ++ [f (off + len)] := by
  simp [segment, List.range_succ]

theorem segment_succ_left (f : Nat → β) (off len : Nat) :
    segment f off (len + 1) = f off :: segment f (off + 1) len := by
  simp only [segment, List.range_succ_eq_map, List.map_cons, List.map_map, Nat.add_zero]
  congr 1
  exact List.map_congr_left fun i _ => by simp only [Function.comp, Nat.add_assoc, Nat.add_comm 1 i]

theorem segment_congr {f g : Nat → β} {off len : Nat} (h : ∀ i < len, f (off + i) = g (off + i)) :
    segment f off len = segment g off len :=
  List.map_congr_left fun i hi => h i (List.mem_range.1 hi)

/-- A segment moved: the values of `f` at `off + i` are those of `g` at `off' + i`. -/
theorem segment_shift {f g : Nat → β} {off off' len : Nat}
    (h : ∀ i < len, f (off + i) = g (off' + i)) : segment f off len = segment g off' len :=
  List.map_congr_left fun i hi => h i (List.mem_range.1 hi)

end List
