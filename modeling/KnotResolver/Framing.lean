import Mathlib

/-!
# Streams of length-prefixed frames

`List.framed hdr ws` writes each frame `w` after the header `hdr w.length`. A reader holding the
front `win` of such a stream, the rest `u` not yet arrived, sees either a first frame that is not
complete yet, or the whole first frame followed by the front of the rest of the stream
(`framed_cons_split`): that is the step by which a deframer stays aligned on frame boundaries,
however the stream was cut into reads.
-/

namespace List

variable {α : Type u} (hdr : Nat → List α)

/-- Each frame after the header of its length. -/
def framed (ws : List (List α)) : List α := ws.flatMap fun w => hdr w.length ++ w

@[simp] theorem framed_nil : framed hdr [] = [] := rfl

@[simp] theorem framed_cons (w : List α) (ws : List (List α)) :
    framed hdr (w :: ws) = hdr w.length ++ w ++ framed hdr ws := by
  simp [framed]

theorem framed_append (ws ws' : List (List α)) :
    framed hdr (ws ++ ws') = framed hdr ws ++ framed hdr ws' := by
  simp [framed]

variable {hdr}

theorem eq_nil_of_append_eq_framed_nil {win u : List α} (h : win ++ u = framed hdr []) :
    win = [] :=
  (append_eq_nil_iff.1 h).1

/-- The first frame as a reader holding `win` sees it: not complete, or complete and followed by
the front `win'` of the other frames. -/
theorem framed_cons_split {win u w : List α} {ws : List (List α)}
    (h : win ++ u = framed hdr (w :: ws)) :
    (win.length < (hdr w.length ++ w).length ∧ win <+: hdr w.length ++ w) ∨
      ∃ win', win = hdr w.length ++ w ++ win' ∧ win' ++ u = framed hdr ws := by
  rw [framed_cons] at h
  rcases append_eq_append_iff.1 h with ⟨a', hfr, hu⟩ | ⟨c', hwin, hrest⟩
  · -- `win` ends inside the first frame, or right at its end
    cases a' with
    | nil =>
      rw [append_nil] at hfr
      exact .inr ⟨[], by rw [hfr, append_nil], by rw [nil_append, hu, nil_append]⟩
    | cons x xs =>
      refine .inl ⟨?_, ⟨x :: xs, hfr.symm⟩⟩
      have hlen := congrArg length hfr
      simp only [length_append, length_cons] at hlen ⊢
      omega
  · exact .inr ⟨c', hwin, hrest.symm⟩

end List
