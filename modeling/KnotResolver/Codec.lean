import Mathlib

/-!
# Length-prefixed encodings

Words written one after the other, each preceded by a code of its length, can be read back when
the code is injective on the lengths that occur (`lengthPrefixed_inj`). When neither the codes
nor the letters are a given terminator, the encoding followed by the terminator is read back up
to it by `takeWhile` (`takeWhile_lengthPrefixed_append`).
-/

namespace List

variable {α : Type u} (code : Nat → α)

/-- Each word preceded by the code of its length. -/
def lengthPrefixed (ws : List (List α)) : List α := ws.flatMap fun w => code w.length :: w

@[simp] theorem lengthPrefixed_nil : lengthPrefixed code [] = [] := rfl

@[simp] theorem lengthPrefixed_cons (w : List α) (ws : List (List α)) :
    lengthPrefixed code (w :: ws) = code w.length :: (w ++ lengthPrefixed code ws) := by
  simp [lengthPrefixed]

variable {code}

theorem lengthPrefixed_inj {N : Nat} (hcode : ∀ a b, a < N → b < N → code a = code b → a = b) :
    ∀ {ws ws' : List (List α)}, (∀ w ∈ ws, w.length < N) → (∀ w ∈ ws', w.length < N) →
      lengthPrefixed code ws = lengthPrefixed code ws' → ws = ws'
  | [], [], _, _, _ => rfl
  | [], _ :: _, _, _, h => by simp at h
  | _ :: _, [], _, _, h => by simp at h
  | w :: ws, w' :: ws', hws, hws', h => by
    rw [lengthPrefixed_cons, lengthPrefixed_cons, cons.injEq] at h
    obtain ⟨hcodes, h⟩ := h
    have hlen : w.length = w'.length :=
      hcode _ _ (hws w mem_cons_self) (hws' w' mem_cons_self) hcodes
    -- equal lengths split both sides after the first word
    obtain ⟨rfl, hrest⟩ := append_inj h hlen
    rw [lengthPrefixed_inj hcode (fun v hv => hws v (mem_cons_of_mem _ hv))
      (fun v hv => hws' v (mem_cons_of_mem _ hv)) hrest]

theorem takeWhile_lengthPrefixed_append {p : α → Bool} {ws : List (List α)}
    (hcode : ∀ w ∈ ws, p (code w.length) = true) (hletters : ∀ w ∈ ws, ∀ a ∈ w, p a = true)
    (rest : List α) {t : α} (ht : p t = false) :
    (lengthPrefixed code ws ++ t :: rest).takeWhile p = lengthPrefixed code ws := by
  have hall : ∀ a ∈ lengthPrefixed code ws, p a = true := by
    intro a ha
    obtain ⟨w, hw, ha⟩ := mem_flatMap.mp ha
    rcases mem_cons.mp ha with rfl | ha
    · exact hcode w hw
    · exact hletters w hw a ha
  rw [takeWhile_append_of_pos hall, takeWhile_cons_of_neg (by simp [ht]), append_nil]

end List
