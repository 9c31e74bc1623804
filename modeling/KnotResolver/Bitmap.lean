import Mathlib

/-!
# Sparse arrays indexed by a bitmap

A bitmap `w` over `width` slots says which slots are present, and the entries of the present
slots are stored without holes in the order of their slots. `Bitmap.bits width w` lists the
present slots in increasing order and `Bitmap.weight` counts them; the entry of slot `v` sits
at the offset `weight width (w &&& (2 ^ v - 1))`, the number of present slots below `v`.

`bits_split` cuts the present slots at `v` into those below, `v` itself if present, and those
above. Setting the bit of an absent slot inserts that slot between the two parts
(`bits_or_two_pow`), clearing a present one removes it (`bits_and_xor_two_pow`), and a bitmap
of two bits lists the smaller slot first. Entries kept in step with `bits` are updated at the
same offsets.
-/

namespace Bitmap

/-- The present slots below `width`, in increasing order. -/
def bits (width w : Nat) : List Nat := (List.range width).filter (w.testBit ·)

/-- The number of present slots below `width`. -/
def weight (width w : Nat) : Nat := (bits width w).length

variable {width w v : Nat}

@[simp] theorem mem_bits : v ∈ bits width w ↔ v < width ∧ w.testBit v := by
  simp [bits]

theorem bits_pairwise (width w : Nat) : (bits width w).Pairwise (· < ·) :=
  List.pairwise_lt_range.filter _

theorem eq_bits {l : List Nat} (hl : l.Pairwise (· < ·))
    (hmem : ∀ x, x ∈ l ↔ x < width ∧ w.testBit x) : l = bits width w :=
  hl.eq_of_mem_iff (bits_pairwise width w) fun x => by rw [hmem, mem_bits]

theorem bits_mod_two_pow (width w v : Nat) :
    bits width (w % 2 ^ v) = (bits width w).filter (· < v) := by
  simp only [bits, List.filter_filter, Nat.testBit_mod_two_pow]

/-- The offset of slot `v` counts the present slots below it. -/
theorem weight_and_two_pow_sub_one (width w v : Nat) :
    weight width (w &&& 2 ^ v - 1) = ((bits width w).filter (· < v)).length := by
  rw [weight, Nat.and_two_pow_sub_one_eq_mod, bits_mod_two_pow]

/-- The slots below `v`, then `mid`, then the slots above `v`, are in increasing order when
`mid` is empty or `[v]`. -/
theorem pairwise_filter_append {l mid : List Nat} (hl : l.Pairwise (· < ·)) (hmid : ∀ x ∈ mid, x = v)
    (hmid' : mid.Pairwise (· < ·)) :
    (l.filter (· < v) ++ mid ++ l.filter (v < ·)).Pairwise (· < ·) := by
  have hlo := hl.filter (fun x => decide (x < v))
  have hhi := hl.filter (fun x => decide (v < x))
  refine List.pairwise_append.2 ⟨List.pairwise_append.2 ⟨hlo, hmid', ?_⟩, hhi, ?_⟩
  · intro a ha b hb
    rw [hmid b hb]
    simpa using (List.mem_filter.1 ha).2
  · intro a ha b hb
    have hb' : v < b := by simpa using (List.mem_filter.1 hb).2
    rcases List.mem_append.1 ha with ha | ha
    · have : a < v := by simpa using (List.mem_filter.1 ha).2
      omega
    · rw [hmid a ha]
      exact hb'

/-- The present slots cut at `v`. -/
theorem bits_split (w : Nat) (hv : v < width) :
    bits width w = (bits width w).filter (· < v) ++ (if w.testBit v then [v] else []) ++
      (bits width w).filter (v < ·) := by
  refine (eq_bits (pairwise_filter_append (bits_pairwise width w) ?_ ?_) fun x => ?_).symm
  · intro x hx
    split at hx
    · exact List.mem_singleton.1 hx
    · cases hx
  · split
    · exact List.pairwise_singleton _ _
    · exact List.Pairwise.nil
  · rcases Nat.lt_trichotomy x v with hx | rfl | hx
    · simp [hx, Nat.not_lt_of_gt hx, Nat.ne_of_lt hx]
    · split <;> simp_all
    · simp [hx, Nat.not_lt_of_gt hx, Nat.ne_of_gt hx]

/-- A present slot sits at its offset, between the slots below and above it. -/
theorem bits_eq_of_testBit (hv : v < width) (hw : w.testBit v) :
    bits width w = (bits width w).filter (· < v) ++ v :: (bits width w).filter (v < ·) := by
  have h := bits_split w hv
  rw [if_pos hw] at h
  simpa using h

/-- Setting the bit of an absent slot inserts the slot at its offset. -/
theorem bits_or_two_pow (hv : v < width) (hw : w.testBit v = false) :
    bits width (w ||| 2 ^ v) = (bits width w).filter (· < v) ++ v :: (bits width w).filter (v < ·) := by
  have hmid : ∀ x ∈ [v], x = v := fun x hx => List.mem_singleton.1 hx
  suffices h : (bits width w).filter (· < v) ++ [v] ++ (bits width w).filter (v < ·) =
      bits width (w ||| 2 ^ v) by simpa using h.symm
  refine eq_bits (pairwise_filter_append (bits_pairwise width w) hmid
    (List.pairwise_singleton _ _)) fun x => ?_
  rcases Nat.lt_trichotomy x v with hx | rfl | hx
  · simp [hx, Nat.not_lt_of_gt hx, hx.ne, hx.ne']
  · simp [hv]
  · simp [hx, Nat.not_lt_of_gt hx, hx.ne, hx.ne']

theorem testBit_and_xor_two_pow {m x : Nat} (hm : m.testBit x) :
    (w &&& (m ^^^ 2 ^ v)).testBit x = (w.testBit x && !decide (v = x)) := by
  simp [Nat.testBit_two_pow, hm]

/-- Clearing the bit of a present slot, with a mask `m` covering every slot, removes it. -/
theorem bits_and_xor_two_pow {m : Nat} (hm : ∀ i < width, m.testBit i) :
    bits width (w &&& (m ^^^ 2 ^ v)) = (bits width w).filter (· < v) ++ (bits width w).filter (v < ·) := by
  refine (eq_bits ?_ fun x => ?_).symm
  · have := pairwise_filter_append (bits_pairwise width w) (show ∀ x ∈ ([] : List Nat), x = v from nofun) .nil
    simpa using this
  · constructor
    · intro hx
      obtain ⟨⟨hxw, hb⟩, hxv⟩ : (x < width ∧ w.testBit x) ∧ x ≠ v := by
        rcases List.mem_append.1 hx with hx | hx <;>
        · obtain ⟨hb, hc⟩ := List.mem_filter.1 hx
          refine ⟨mem_bits.1 hb, ?_⟩
          simp only [decide_eq_true_eq] at hc
          omega
      refine ⟨hxw, ?_⟩
      rw [testBit_and_xor_two_pow (hm x hxw), hb]
      simpa using Ne.symm hxv
    · rintro ⟨hxw, hb⟩
      rw [testBit_and_xor_two_pow (hm x hxw)] at hb
      simp only [Bool.and_eq_true, Bool.not_eq_eq_eq_not, Bool.not_true, decide_eq_false_iff_not] at hb
      rcases Nat.lt_or_gt_of_ne (Ne.symm hb.2) with hx | hx
      · exact List.mem_append_left _ (List.mem_filter.2 ⟨mem_bits.2 ⟨hxw, hb.1⟩, by simpa using hx⟩)
      · exact List.mem_append_right _ (List.mem_filter.2 ⟨mem_bits.2 ⟨hxw, hb.1⟩, by simpa using hx⟩)

/-- Two slots, the smaller first. -/
theorem bits_two_pow_or_two_pow {a b : Nat} (hab : a < b) (hb : b < width) :
    bits width (2 ^ a ||| 2 ^ b) = [a, b] := by
  refine (eq_bits (by simpa using hab) fun x => ?_).symm
  simp only [List.mem_cons, List.not_mem_nil, or_false, Nat.testBit_or, Nat.testBit_two_pow,
    Bool.or_eq_true, decide_eq_true_eq]
  constructor
  · rintro (rfl | rfl) <;> omega
  · rintro ⟨_, rfl | rfl⟩ <;> simp

theorem and_two_pow_bne_zero (w v : Nat) : (w &&& 2 ^ v != 0) = w.testBit v := by
  apply Bool.eq_iff_iff.2
  rw [bne_iff_ne, ne_eq]
  constructor
  · intro hne
    by_contra hb
    refine hne (Nat.eq_of_testBit_eq fun i => ?_)
    by_cases hi : v = i
    · subst hi
      simpa using hb
    · simp [hi]
  · intro hb h0
    have := congrArg (Nat.testBit · v) h0
    simp [hb] at this

/-- In an increasing list cut at one of its members, the members below and above it are the
two parts. -/
theorem filter_of_pairwise {l₁ l₂ : List Nat} {n : Nat} (h : (l₁ ++ n :: l₂).Pairwise (· < ·)) :
    (l₁ ++ n :: l₂).filter (· < n) = l₁ ∧ (l₁ ++ n :: l₂).filter (n < ·) = l₂ := by
  obtain ⟨_, hn, hcross⟩ := List.pairwise_append.1 h
  have hlo : ∀ x ∈ l₁, x < n := fun x hx => hcross x hx n List.mem_cons_self
  have hhi : ∀ x ∈ l₂, n < x := fun x hx => List.rel_of_pairwise_cons hn hx
  constructor
  · rw [List.filter_append, List.filter_eq_self.2 (by simpa using hlo),
      List.filter_eq_nil_iff.2 (fun x hx => ?_)]
    · simp
    · rcases List.mem_cons.1 hx with rfl | hx
      · simp
      · simpa using Nat.le_of_lt (hhi x hx)
  · rw [List.filter_append, List.filter_eq_nil_iff.2 (fun x hx => ?_), List.filter_cons,
      List.filter_eq_self.2 (by simpa using hhi)]
    · simp
    · simpa using Nat.le_of_lt (hlo x hx)

/-! ## Entries kept in step with the slots -/

section Entries

variable {β γ : Type _} {R : β → γ → Prop}

theorem forall₂_append_cons_left :
    ∀ {A B : List β} {x : β} {l : List γ}, List.Forall₂ R (A ++ x :: B) l →
      ∃ l₁ y l₂, l = l₁ ++ y :: l₂ ∧ l₁.length = A.length ∧ List.Forall₂ R A l₁ ∧ R x y ∧
        List.Forall₂ R B l₂
  | [], B, x, l, h => by
    cases h with
    | cons hy hrest => exact ⟨[], _, _, rfl, rfl, .nil, hy, hrest⟩
  | a :: A, B, x, l, h => by
    cases h with
    | @cons _ b _ l' hb hrest =>
      obtain ⟨l₁, y, l₂, rfl, hlen, h₁, hy, h₂⟩ := forall₂_append_cons_left hrest
      exact ⟨b :: l₁, y, l₂, rfl, by simp [hlen], .cons hb h₁, hy, h₂⟩

theorem forall₂_append_cons_right :
    ∀ {l : List β} {A B : List γ} {x : γ}, List.Forall₂ R l (A ++ x :: B) →
      ∃ l₁ n l₂, l = l₁ ++ n :: l₂ ∧ l₁.length = A.length ∧ List.Forall₂ R l₁ A ∧ R n x ∧
        List.Forall₂ R l₂ B
  | l, [], B, x, h => by
    cases h with
    | cons hn hrest => exact ⟨[], _, _, rfl, rfl, .nil, hn, hrest⟩
  | l, a :: A, B, x, h => by
    cases h with
    | @cons n _ l' _ hn hrest =>
      obtain ⟨l₁, m, l₂, rfl, hlen, h₁, hm, h₂⟩ := forall₂_append_cons_right hrest
      exact ⟨n :: l₁, m, l₂, rfl, by simp [hlen], .cons hn h₁, hm, h₂⟩

theorem forall₂_append_cons {l₁ l₂ : List β} {A B : List γ} {n : β} {x : γ}
    (h₁ : List.Forall₂ R l₁ A) (hn : R n x) (h₂ : List.Forall₂ R l₂ B) :
    List.Forall₂ R (l₁ ++ n :: l₂) (A ++ x :: B) :=
  List.rel_append h₁ (.cons hn h₂)

/-- The entry of a present slot sits at the slot's offset. -/
theorem forall₂_split_of_testBit {xs : List γ} {R : Nat → γ → Prop}
    (h : List.Forall₂ R (bits width w) xs) (hv : v < width) (hw : w.testBit v) :
    ∃ xs₁ x xs₂, xs = xs₁ ++ x :: xs₂ ∧ xs₁.length = weight width (w &&& 2 ^ v - 1) ∧
      List.Forall₂ R ((bits width w).filter (· < v)) xs₁ ∧ R v x ∧
      List.Forall₂ R ((bits width w).filter (v < ·)) xs₂ := by
  rw [bits_eq_of_testBit hv hw] at h
  obtain ⟨xs₁, x, xs₂, rfl, hlen, h₁, hx, h₂⟩ := forall₂_append_cons_left h
  exact ⟨xs₁, x, xs₂, rfl, by rw [hlen, weight_and_two_pow_sub_one], h₁, hx, h₂⟩

/-- The entries around an absent slot, cut at the slot's offset. -/
theorem forall₂_split_of_not_testBit {xs : List γ} {R : Nat → γ → Prop}
    (h : List.Forall₂ R (bits width w) xs) (hv : v < width) (hw : w.testBit v = false) :
    List.Forall₂ R ((bits width w).filter (· < v)) (xs.take (weight width (w &&& 2 ^ v - 1))) ∧
      List.Forall₂ R ((bits width w).filter (v < ·)) (xs.drop (weight width (w &&& 2 ^ v - 1))) := by
  have hsplit := bits_split w hv
  simp only [hw, Bool.false_eq_true, ite_false, List.append_nil] at hsplit
  rw [hsplit] at h
  rw [weight_and_two_pow_sub_one]
  constructor
  · simpa using List.forall₂_take ((bits width w).filter (· < v)).length h
  · simpa using List.forall₂_drop ((bits width w).filter (· < v)).length h

end Entries

end Bitmap
