import Mathlib

/-!
# Terminated encodings

`terminated t ws` writes each word of `ws` followed by the terminator `t`, the layout of a domain
name's lookup format (its labels, each followed by a zero byte). For words without `t`:

* the encoding is injective (`terminated_inj`), also with its final terminator dropped when the
  words are nonempty (`dropLast_terminated_inj`);
* with nonempty words, what follows an encoding and one more `t` starts right after the last
  word (`terminated_tag_inj`): `t t`, or a leading `t`, occurs nowhere else, so keys with
  different tags after an encoding never meet.

The first occurrence of the terminator is where `splitOnP` cuts, which gives the step of every
induction here (`eq_of_append_cons_eq`).
-/

namespace List

variable {α : Type u} {t : α}

/-- Each word followed by the terminator `t`. -/
def terminated (t : α) (ws : List (List α)) : List α := (ws.map (· ++ [t])).flatten

@[simp] theorem terminated_nil : terminated t [] = [] := rfl

@[simp] theorem terminated_cons (w : List α) (ws : List (List α)) :
    terminated t (w :: ws) = w ++ t :: terminated t ws := by
  simp [terminated]

@[simp] theorem terminated_append (ws ws' : List (List α)) :
    terminated t (ws ++ ws') = terminated t ws ++ terminated t ws' := by
  simp [terminated]

/-- Equal lists cut at the first terminator have equal parts on both sides of it. -/
theorem eq_of_append_cons_eq [DecidableEq α] {w w' r r' : List α} (hw : t ∉ w) (hw' : t ∉ w')
    (h : w ++ t :: r = w' ++ t :: r') : w = w' ∧ r = r' := by
  have hfree : ∀ {v : List α}, t ∉ v → ∀ x ∈ v, (x == t) = false := by
    intro v hv x hx
    exact beq_eq_false_iff_ne.2 fun hxt => hv (hxt ▸ hx)
  have hs := congrArg (splitOnP (· == t)) h
  rw [@splitOnP_append_cons_of_forall_mem _ (· == t) w (hfree hw) t (beq_self_eq_true t),
    @splitOnP_append_cons_of_forall_mem _ (· == t) w' (hfree hw') t (beq_self_eq_true t)] at hs
  obtain rfl := (cons.inj hs).1
  exact ⟨rfl, (cons.inj (append_cancel_left h)).2⟩

/-- A nonempty word without the terminator does not start where a terminator does. -/
theorem append_ne_cons_of_ne_nil {w r r' : List α} (hw : w ≠ []) (ht : t ∉ w) :
    w ++ r ≠ t :: r' := by
  cases w with
  | nil => exact absurd rfl hw
  | cons x w =>
    intro h
    obtain rfl := (cons.inj h).1
    exact ht mem_cons_self

theorem terminated_inj [DecidableEq α] {ws ws' : List (List α)} (hws : ∀ w ∈ ws, t ∉ w)
    (hws' : ∀ w ∈ ws', t ∉ w) (h : terminated t ws = terminated t ws') : ws = ws' := by
  induction ws generalizing ws' with
  | nil =>
    cases ws' with
    | nil => rfl
    | cons w' ws' => simp at h
  | cons w ws ih =>
    cases ws' with
    | nil => simp at h
    | cons w' ws' =>
      rw [terminated_cons, terminated_cons] at h
      obtain ⟨rfl, hrest⟩ := eq_of_append_cons_eq (hws w mem_cons_self) (hws' w' mem_cons_self) h
      rw [ih (fun v hv => hws v (mem_cons_of_mem _ hv)) (fun v hv => hws' v (mem_cons_of_mem _ hv))
        hrest]

/-- An empty word ends an encoding of nonempty words: what follows it is determined. -/
theorem terminated_tag_inj [DecidableEq α] {ws ws' : List (List α)} {g g' : α}
    {r r' : List α} (hws : ∀ w ∈ ws, w ≠ [] ∧ t ∉ w) (hws' : ∀ w ∈ ws', w ≠ [] ∧ t ∉ w)
    (h : terminated t ws ++ t :: g :: r = terminated t ws' ++ t :: g' :: r') :
    ws = ws' ∧ g = g' ∧ r = r' := by
  induction ws generalizing ws' with
  | nil =>
    cases ws' with
    | nil => simpa using h
    | cons w' ws' =>
      -- the other side starts with a word, which cannot start with the terminator
      rw [terminated_cons, append_assoc] at h
      exact absurd h.symm (append_ne_cons_of_ne_nil (hws' w' mem_cons_self).1
        (hws' w' mem_cons_self).2)
  | cons w ws ih =>
    cases ws' with
    | nil =>
      rw [terminated_cons, append_assoc] at h
      exact absurd h (append_ne_cons_of_ne_nil (hws w mem_cons_self).1 (hws w mem_cons_self).2)
    | cons w' ws' =>
      simp only [terminated_cons, append_assoc, cons_append] at h
      obtain ⟨rfl, hrest⟩ := eq_of_append_cons_eq (hws w mem_cons_self).2
        (hws' w' mem_cons_self).2 h
      obtain ⟨rfl, hgg, hrr⟩ := ih (fun v hv => hws v (mem_cons_of_mem _ hv))
        (fun v hv => hws' v (mem_cons_of_mem _ hv)) hrest
      exact ⟨rfl, hgg, hrr⟩

/-- An encoding that is a prefix of another encoding followed by the terminator encodes a prefix
of its words. -/
theorem prefix_words_of_terminated [DecidableEq α] {r : List α} :
    ∀ {ws vs : List (List α)}, (∀ w ∈ ws, w ≠ [] ∧ t ∉ w) → (∀ v ∈ vs, t ∉ v) →
      terminated t ws <+: terminated t vs ++ t :: r → ws <+: vs
  | [], _, _, _, _ => List.nil_prefix
  | w :: ws, [], hws, _, ⟨x, hx⟩ => by
    -- a nonempty word cannot start where the terminator stands
    rw [terminated_cons, terminated_nil, List.nil_append, List.append_assoc, List.cons_append] at hx
    exact absurd hx (append_ne_cons_of_ne_nil (hws w mem_cons_self).1 (hws w mem_cons_self).2)
  | w :: ws, v :: vs, hws, hvs, ⟨x, hx⟩ => by
    rw [terminated_cons, terminated_cons, List.append_assoc, List.cons_append,
      List.append_assoc, List.cons_append] at hx
    obtain ⟨rfl, hrest⟩ := eq_of_append_cons_eq (hws w mem_cons_self).2 (hvs v mem_cons_self) hx
    have hpre : ws <+: vs := prefix_words_of_terminated
      (fun w' hw' => hws w' (mem_cons_of_mem _ hw')) (fun v' hv' => hvs v' (mem_cons_of_mem _ hv'))
      ⟨x, hrest⟩
    exact List.cons_prefix_cons.2 ⟨rfl, hpre⟩

/-- A nonempty encoding ends with the terminator. -/
theorem terminated_eq_dropLast_append {ws : List (List α)} (hws : ws ≠ []) :
    terminated t ws = (terminated t ws).dropLast ++ [t] := by
  have hsplit : terminated t ws = terminated t ws.dropLast ++ ws.getLast hws ++ [t] := by
    conv_lhs => rw [← dropLast_append_getLast hws]
    simp
  rw [hsplit, dropLast_concat]

theorem length_terminated_cons_ge {w : List α} {ws : List (List α)} (hw : w ≠ []) :
    2 ≤ (terminated t (w :: ws)).length := by
  have hpos : 0 < w.length := length_pos_iff.2 hw
  simp only [terminated_cons, length_append, length_cons]
  omega

/-- An encoding of nonempty words keeps a byte when its final terminator is dropped. -/
theorem dropLast_terminated_ne_nil {ws : List (List α)} (hws : ∀ w ∈ ws, w ≠ [] ∧ t ∉ w)
    (hne : ws ≠ []) : (terminated t ws).dropLast ≠ [] := by
  intro hnil
  obtain ⟨v, vs, rfl⟩ := exists_cons_of_ne_nil hne
  have h2 : 2 ≤ (terminated t (v :: vs)).length :=
    length_terminated_cons_ge (hws v mem_cons_self).1
  have h0 := congrArg length hnil
  rw [length_dropLast, length_nil] at h0
  omega

theorem dropLast_terminated_inj [DecidableEq α] {ws ws' : List (List α)}
    (hws : ∀ w ∈ ws, w ≠ [] ∧ t ∉ w) (hws' : ∀ w ∈ ws', w ≠ [] ∧ t ∉ w)
    (h : (terminated t ws).dropLast = (terminated t ws').dropLast) : ws = ws' := by
  have hfree : ∀ {vs : List (List α)}, (∀ w ∈ vs, w ≠ [] ∧ t ∉ w) → ∀ w ∈ vs, t ∉ w :=
    fun hvs w hw => (hvs w hw).2
  by_cases h₀ : ws = []
  · by_cases h₀' : ws' = []
    · rw [h₀, h₀']
    · rw [h₀] at h
      exact absurd h.symm (dropLast_terminated_ne_nil hws' h₀')
  · by_cases h₀' : ws' = []
    · rw [h₀'] at h
      exact absurd h (dropLast_terminated_ne_nil hws h₀)
    · apply terminated_inj (hfree hws) (hfree hws')
      rw [terminated_eq_dropLast_append h₀, terminated_eq_dropLast_append h₀', h]

/-- Without its final terminator, an encoding is the words joined by the terminator. -/
theorem dropLast_terminated_eq_intercalate {ws : List (List α)} (hws : ws ≠ []) :
    (terminated t ws).dropLast = [t].intercalate ws := by
  induction ws with
  | nil => exact absurd rfl hws
  | cons w ws ih =>
    cases ws with
    | nil => simp
    | cons v vs =>
      have hrest : terminated t (v :: vs) = (terminated t (v :: vs)).dropLast ++ [t] :=
        terminated_eq_dropLast_append (cons_ne_nil v vs)
      rw [terminated_cons, hrest, ih (cons_ne_nil v vs), intercalate_cons_cons, ← cons_append,
        ← append_assoc, dropLast_concat]
      simp

/-! ## Order

When the terminator sorts below every other element, the lexicographic order of encodings is the
lexicographic order of the word lists, each word compared lexicographically: a word that is a
proper prefix of another meets the terminator where the other goes on. -/

/-- In an encoding of nonempty words without `t`, a terminator is neither first nor right after
another: a leading `t`, or the pair `t t`, can only come after the encoding. -/
theorem pos_and_pred_ne_of_getElem?_terminated {ws : List (List α)}
    (hws : ∀ w ∈ ws, w ≠ [] ∧ t ∉ w) :
    ∀ {j : Nat}, (terminated t ws)[j]? = some t → 0 < j ∧ (terminated t ws)[j - 1]? ≠ some t := by
  induction ws with
  | nil => simp
  | cons w ws ih =>
    obtain ⟨hne, hfree⟩ := hws w mem_cons_self
    have ih := @ih fun v hv => hws v (mem_cons_of_mem _ hv)
    have hwt : ∀ i, w[i]? ≠ some t := fun i h => hfree (mem_of_getElem? h)
    have hpos := length_pos_of_ne_nil hne
    intro j hj
    rw [terminated_cons] at hj ⊢
    rcases Nat.lt_trichotomy j w.length with hlt | rfl | hgt
    · rw [getElem?_append_left hlt] at hj
      exact absurd hj (hwt j)
    · -- the terminator of the first word follows its last letter
      refine ⟨hpos, ?_⟩
      rw [getElem?_append_left (by omega)]
      exact hwt _
    · obtain ⟨k, rfl⟩ : ∃ k, j = w.length + 1 + k := ⟨j - w.length - 1, by omega⟩
      rw [getElem?_append_right (by omega), show w.length + 1 + k - w.length = k + 1 by omega,
        getElem?_cons_succ] at hj
      obtain ⟨hk, hprev⟩ := ih hj
      refine ⟨by omega, ?_⟩
      rw [getElem?_append_right (by omega),
        show w.length + 1 + k - 1 - w.length = (k - 1) + 1 by omega, getElem?_cons_succ]
      exact hprev

section Order

variable {cmp : α → α → Ordering} [Std.OrientedCmp cmp] [Std.ReflCmp cmp]

omit [Std.OrientedCmp cmp] [Std.ReflCmp cmp] in
theorem compareLex_nil_left_of_ne_nil {l : List α} (hl : l ≠ []) :
    List.compareLex cmp [] l = .lt := by
  obtain ⟨x, l, rfl⟩ := exists_cons_of_ne_nil hl
  exact List.compareLex_nil_cons

omit [Std.OrientedCmp cmp] [Std.ReflCmp cmp] in
theorem compareLex_nil_right_of_ne_nil {l : List α} (hl : l ≠ []) :
    List.compareLex cmp l [] = .gt := by
  obtain ⟨x, l, rfl⟩ := exists_cons_of_ne_nil hl
  exact List.compareLex_cons_nil

theorem compareLex_append_cons_of_least (hleast : ∀ x, x ≠ t → cmp t x = .lt) {w w' : List α}
    (hw : t ∉ w) (hw' : t ∉ w') (r r' : List α) :
    List.compareLex cmp (w ++ t :: r) (w' ++ t :: r') =
      (List.compareLex cmp w w').then (List.compareLex cmp r r') := by
  induction w generalizing w' with
  | nil =>
    cases w' with
    | nil => simp [List.compareLex_cons_cons, Std.ReflCmp.compare_self]
    | cons y w' =>
      have hy : cmp t y = .lt := hleast y fun h => hw' (h ▸ mem_cons_self)
      simp [List.compareLex_cons_cons, List.compareLex_nil_cons, hy]
  | cons x w ih =>
    cases w' with
    | nil =>
      have hx : cmp x t = .gt := by
        rw [@Std.OrientedCmp.eq_swap _ cmp _ x t, hleast x fun h => hw (h ▸ mem_cons_self)]
        rfl
      simp [List.compareLex_cons_cons, List.compareLex_cons_nil, hx]
    | cons y w' =>
      simp only [cons_append, List.compareLex_cons_cons]
      rw [ih (fun h => hw (mem_cons_of_mem x h)) (fun h => hw' (mem_cons_of_mem y h)),
        Ordering.then_assoc]

theorem compareLex_terminated (hleast : ∀ x, x ≠ t → cmp t x = .lt) {ws ws' : List (List α)}
    (hws : ∀ w ∈ ws, t ∉ w) (hws' : ∀ w ∈ ws', t ∉ w) :
    List.compareLex cmp (terminated t ws) (terminated t ws') =
      List.compareLex (List.compareLex cmp) ws ws' := by
  induction ws generalizing ws' with
  | nil =>
    cases ws' with
    | nil => rfl
    | cons w' ws' =>
      obtain ⟨x, l, hl⟩ : ∃ x l, terminated t (w' :: ws') = x :: l := by
        cases w' <;> simp
      rw [terminated_nil, hl, List.compareLex_nil_cons, List.compareLex_nil_cons]
  | cons w ws ih =>
    cases ws' with
    | nil =>
      obtain ⟨x, l, hl⟩ : ∃ x l, terminated t (w :: ws) = x :: l := by
        cases w <;> simp
      rw [terminated_nil, hl, List.compareLex_cons_nil, List.compareLex_cons_nil]
    | cons w' ws' =>
      rw [terminated_cons, terminated_cons,
        compareLex_append_cons_of_least hleast (hws w mem_cons_self) (hws' w' mem_cons_self),
        ih (fun v hv => hws v (mem_cons_of_mem _ hv)) (fun v hv => hws' v (mem_cons_of_mem _ hv)),
        List.compareLex_cons_cons]

/-- A terminator appended to both sides does not change a comparison. -/
theorem compareLex_append_singleton_of_least (hleast : ∀ x, x ≠ t → cmp t x = .lt)
    (l l' : List α) : List.compareLex cmp (l ++ [t]) (l' ++ [t]) = List.compareLex cmp l l' := by
  induction l generalizing l' with
  | nil =>
    cases l' with
    | nil => simp [Std.ReflCmp.compare_self]
    | cons y l' =>
      -- the terminator meets `y`, or ends first when `y` is a terminator
      have hne : l' ++ [t] ≠ [] := by simp
      by_cases hy : y = t
      · subst hy
        simp [List.compareLex_cons_cons, Std.ReflCmp.compare_self,
          compareLex_nil_left_of_ne_nil hne, List.compareLex_nil_cons]
      · simp [List.compareLex_cons_cons, hleast y hy, compareLex_nil_left_of_ne_nil hne,
          List.compareLex_nil_cons]
  | cons x l ih =>
    cases l' with
    | nil =>
      have hne : l ++ [t] ≠ [] := by simp
      by_cases hx : x = t
      · subst hx
        simp [List.compareLex_cons_cons, Std.ReflCmp.compare_self,
          compareLex_nil_right_of_ne_nil hne, List.compareLex_cons_nil]
      · have hxt : cmp x t = .gt := by
          rw [@Std.OrientedCmp.eq_swap _ cmp _ x t, hleast x hx]
          rfl
        simp [List.compareLex_cons_cons, hxt, compareLex_nil_right_of_ne_nil hne,
          List.compareLex_cons_nil]
    | cons y l' =>
      simp only [cons_append, List.compareLex_cons_cons, ih]

theorem compareLex_dropLast_terminated (hleast : ∀ x, x ≠ t → cmp t x = .lt)
    {ws ws' : List (List α)} (hws : ∀ w ∈ ws, w ≠ [] ∧ t ∉ w) (hws' : ∀ w ∈ ws', w ≠ [] ∧ t ∉ w) :
    List.compareLex cmp (terminated t ws).dropLast (terminated t ws').dropLast =
      List.compareLex (List.compareLex cmp) ws ws' := by
  have hfree : ∀ {vs : List (List α)}, (∀ w ∈ vs, w ≠ [] ∧ t ∉ w) → ∀ w ∈ vs, t ∉ w :=
    fun hvs w hw => (hvs w hw).2
  -- an empty side sorts first on both levels
  have hfirst : ∀ {vs : List (List α)}, (∀ w ∈ vs, w ≠ [] ∧ t ∉ w) → vs ≠ [] →
      ∃ x l, (terminated t vs).dropLast = x :: l ∧ ∃ v vs', vs = v :: vs' := by
    intro vs hvs hne
    obtain ⟨x, l, hl⟩ := exists_cons_of_ne_nil (dropLast_terminated_ne_nil hvs hne)
    obtain ⟨v, vs', hv⟩ := exists_cons_of_ne_nil hne
    exact ⟨x, l, hl, v, vs', hv⟩
  by_cases h₀ : ws = []
  · by_cases h₀' : ws' = []
    · rw [h₀, h₀']
      rfl
    · obtain ⟨x, l, hl, v, vs, rfl⟩ := hfirst hws' h₀'
      rw [h₀, hl]
      rfl
  · by_cases h₀' : ws' = []
    · obtain ⟨x, l, hl, v, vs, rfl⟩ := hfirst hws h₀
      rw [h₀', hl]
      rfl
    · rw [← compareLex_append_singleton_of_least hleast, ← terminated_eq_dropLast_append h₀,
        ← terminated_eq_dropLast_append h₀', compareLex_terminated hleast (hfree hws) (hfree hws')]

end Order

end List
