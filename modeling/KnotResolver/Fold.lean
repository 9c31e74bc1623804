import Mathlib

/-!
# Accumulating loops

A loop that walks a list and updates a state, written as `List.foldl`, can only establish a
property of its final state that held initially or that some step established. Stated once here,
this is the run lemma for every flag-accumulating loop of the model: a step lemma saying which
element can set a flag gives, for the whole loop, an element of the list that set it.

C loops that leave early are written with `LoopStep` (a search whose round may `break` or
`return`), `List.foldlBreak` (a fold whose round may `break`) and `List.stateLoop` (a loop with a
state whose round may `break` or `return`), each with its run lemma.
-/

/-- One round of a search loop: go on with the next element, leave the loop, or return a value
from the enclosing function. -/
inductive LoopStep (β : Type u) where
  | next
  | brk
  | ret (b : β)

/-- One round of a loop that carries a state: go on, or leave the loop, with the new state, or
return a value from the enclosing function. -/
inductive StateStep (σ : Type v) (β : Type w) where
  | next (s : σ)
  | brk (s : σ)
  | ret (b : β)

/-- `P` holds of the state a round leaves, and `Q` of the value it returns. -/
def StateStep.Holds {σ : Type v} {β : Type w} (P : σ → Prop) (Q : β → Prop) : StateStep σ β → Prop
  | .next s => P s
  | .brk s => P s
  | .ret b => Q b

namespace List

variable {α : Type u} {σ : Type v}

/-- If a step can only make `P` true through an element satisfying `Q`, then a whole run makes
`P` true only from an initial state satisfying `P` or through some element satisfying `Q`. -/
theorem exists_of_foldl (P : σ → Prop) (Q : α → Prop) {f : σ → α → σ}
    (hstep : ∀ s a, P (f s a) → P s ∨ Q a) :
    ∀ {l : List α} {init : σ}, P (l.foldl f init) → P init ∨ ∃ a ∈ l, Q a
  | [], _, h => .inl h
  | a :: l, init, h => by
    have h₀ : P (l.foldl f (f init a)) := h
    rcases exists_of_foldl P Q hstep h₀ with h' | ⟨b, hb, hq⟩
    · rcases hstep init a h' with h'' | hq
      · exact .inl h''
      · exact .inr ⟨a, List.mem_cons_self, hq⟩
    · exact .inr ⟨b, List.mem_cons_of_mem a hb, hq⟩

/-- A property that every step preserves holds at the end of the run. -/
theorem foldl_invariant (P : σ → Prop) {l : List α} {f : σ → α → σ}
    (hstep : ∀ s a, a ∈ l → P s → P (f s a)) :
    ∀ {init : σ}, P init → P (l.foldl f init) := by
  induction l with
  | nil => exact fun h => h
  | cons a l ih =>
    intro init h
    exact ih (fun s b hb => hstep s b (List.mem_cons_of_mem a hb))
      (hstep init a List.mem_cons_self h)

/-- Two runs over the same list stay related when every step keeps the relation. -/
theorem foldl_simulation {τ : Type w} (R : σ → τ → Prop) {l : List α} {f : σ → α → σ}
    {g : τ → α → τ} (hstep : ∀ s t a, a ∈ l → R s t → R (f s a) (g t a)) :
    ∀ {s : σ} {t : τ}, R s t → R (l.foldl f s) (l.foldl g t) := by
  induction l with
  | nil => exact fun h => h
  | cons a l ih =>
    intro s t h
    exact ih (fun s t b hb => hstep s t b (List.mem_cons_of_mem a hb))
      (hstep s t a List.mem_cons_self h)

/-- A loop over `l` that stops at the first round that returns or breaks. -/
def searchLoop {β : Type w} (f : α → LoopStep β) : List α → Option β
  | [] => none
  | a :: l =>
    match f a with
    | .next => searchLoop f l
    | .brk => none
    | .ret b => some b

/-- A search loop returns only what one of its rounds returned. -/
theorem exists_of_searchLoop {β : Type w} {f : α → LoopStep β} {b : β} :
    ∀ {l : List α}, l.searchLoop f = some b → ∃ a ∈ l, f a = .ret b
  | [], h => nomatch h
  | a :: l, h => by
    simp only [searchLoop] at h
    split at h
    · obtain ⟨a', ha', hf⟩ := exists_of_searchLoop h
      exact ⟨a', mem_cons_of_mem a ha', hf⟩
    · cases h
    · rename_i b' hf
      cases h
      exact ⟨a, mem_cons_self, hf⟩

/-- A left fold whose round returns the new state and whether the loop goes on. -/
def foldlBreak (f : σ → α → σ × Bool) (s : σ) : List α → σ
  | [] => s
  | a :: l =>
    match f s a with
    | (s', true) => foldlBreak f s' l
    | (s', false) => s'

/-- A property that every round preserves holds when the loop ends, by a `break` or not. -/
theorem foldlBreak_invariant (P : σ → Prop) {l : List α} {f : σ → α → σ × Bool}
    (hstep : ∀ s a, a ∈ l → P s → P (f s a).1) : ∀ {s : σ}, P s → P (l.foldlBreak f s) := by
  induction l with
  | nil => exact fun h => h
  | cons a l ih =>
    intro s h
    have h' := hstep s a mem_cons_self h
    simp only [foldlBreak]
    split
    · rename_i s' heq
      rw [heq] at h'
      exact ih (fun t b hb => hstep t b (mem_cons_of_mem a hb)) h'
    · rename_i s' heq
      rwa [heq] at h'

/-- Changing one element in a way `g` does not see leaves the list's image under `g` alone. -/
theorem map_modify_of_comp {β : Type w} {g : α → β} {f : α → α} (hf : ∀ a, g (f a) = g a)
    (l : List α) (i : Nat) : (l.modify i f).map g = l.map g := by
  apply ext_getElem?
  intro j
  simp only [getElem?_map, getElem?_modify]
  split <;> cases l[j]? <;> simp [hf]

end List
