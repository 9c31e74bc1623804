import Mathlib

/-!
# Writes into a buffer

A buffer is a list; `writeAt mem off d` is a `memcpy` of `d` to offset `off`, undefined past the
end of `mem`. A write keeps the length and everything before `off` (`take_of_writeAt`) and puts
`d` at `off` (`drop_of_writeAt`). A slice that ends by `n` reads the same in two buffers that
agree up to `n` (`slice_eq_of_take_eq`), a slice reads as the buffer at its offset
(`getElem?_of_slice`), and a read that succeeds in a buffer reads the same in
any extension of it (`getElem?_append_of_eq_some`).
-/

namespace List

variable {α : Type u}

/-- `memcpy` of `d` to offset `off` of `mem`; `none` past its end. -/
def writeAt (mem : List α) (off : Nat) (d : List α) : Option (List α) :=
  if off + d.length ≤ mem.length then some (mem.take off ++ d ++ mem.drop (off + d.length))
  else none

theorem writeAt_of_le {mem : List α} {off : Nat} {d : List α} (h : off + d.length ≤ mem.length) :
    ∃ m, mem.writeAt off d = some m :=
  ⟨_, if_pos h⟩

theorem length_of_writeAt {mem d m : List α} {off : Nat} (h : mem.writeAt off d = some m) :
    m.length = mem.length := by
  unfold writeAt at h
  split at h
  · next hle =>
    cases h
    simp only [length_append, length_take, length_drop]
    omega
  · cases h

theorem take_of_writeAt {mem d m : List α} {off : Nat} (h : mem.writeAt off d = some m) :
    m.take off = mem.take off := by
  unfold writeAt at h
  split at h
  · next hle =>
    cases h
    rw [append_assoc, take_left' (by rw [length_take]; omega)]
  · cases h

theorem drop_of_writeAt {mem d m : List α} {off : Nat} (h : mem.writeAt off d = some m) :
    m.drop off = d ++ mem.drop (off + d.length) := by
  unfold writeAt at h
  split at h
  · next hle =>
    cases h
    rw [append_assoc, drop_left' (by rw [length_take]; omega)]
  · cases h

/-- A slice that ends by `n` reads the same in buffers that agree up to `n`. -/
theorem slice_eq_of_take_eq {m m' : List α} {n off len : Nat} (h : m.take n = m'.take n)
    (hle : off + len ≤ n) : (m.drop off).take len = (m'.drop off).take len := by
  have hm : m.take (off + len) = m'.take (off + len) := by
    have := congrArg (take (off + len)) h
    rwa [take_take, take_take, Nat.min_eq_left hle] at this
  have hslice : ∀ l : List α, (l.drop off).take len = (l.take (off + len)).drop off := by
    intro l
    rw [drop_take, Nat.add_sub_cancel_left]
  rw [hslice, hslice, hm]

/-! ## Slices -/

theorem getElem?_of_slice {buf s : List α} {it k : Nat} (h : (buf.drop it).take s.length = s)
    (hk : k < s.length) : buf[it + k]? = s[k]? := by
  rw [← h, getElem?_take, if_pos hk, getElem?_drop]

theorem add_le_length_of_slice {buf s : List α} {it : Nat} (h : (buf.drop it).take s.length = s)
    (hpos : 0 < s.length) : it + s.length ≤ buf.length := by
  have hlen := congrArg length h
  rw [length_take, length_drop] at hlen
  omega

theorem drop_eq_of_slice {buf s : List α} {it : Nat} (h : (buf.drop it).take s.length = s) :
    buf.drop it = s ++ buf.drop (it + s.length) := by
  rw [← take_append_drop s.length (buf.drop it), h, drop_drop]

theorem getElem?_append_of_eq_some {l l' : List α} {i : Nat} {a : α} (h : l[i]? = some a) :
    (l ++ l')[i]? = some a := by
  rw [getElem?_append_left (getElem?_eq_some_iff.1 h).1]
  exact h

end List
