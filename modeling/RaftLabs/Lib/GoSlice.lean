import Mathlib.Data.List.GetD

/-! Go's slices: windows on arrays that other windows may share.

`append` writes into the array as long as its capacity suffices, and whoever holds another window
on the array then reads the new values there. Only a slice that outgrows its array gets one of its
own. A slot that nobody has written holds the zero value, here `none`. -/
namespace RaftLabs.Lib

/-- All arrays that were ever allocated. -/
abbrev Arrays (α : Type) := List (List (Option α))

/-- A window on one of them; its capacity is the rest of the array. -/
structure GoSlice where
  array : Nat
  start : Nat
  length : Nat
deriving DecidableEq, Repr

namespace GoSlice
variable {α : Type}

/-- `nil`. -/
def empty : GoSlice := ⟨0, 0, 0⟩

/-- The slots from the start of the slice to its capacity. -/
def slots (s : GoSlice) (h : Arrays α) : List (Option α) := (h.getD s.array []).drop s.start

/-- What the slice reads. -/
def read (s : GoSlice) (h : Arrays α) : List (Option α) := (s.slots h).take s.length

/-- `s[k:]`. -/
def dropFirst (s : GoSlice) (k : Nat) : GoSlice := ⟨s.array, s.start + k, s.length - k⟩

/-- A new array with `l` and `spare` further slots. -/
def alloc (h : Arrays α) (l : List α) (spare : Nat) : Arrays α × GoSlice :=
  (h ++ [l.map some ++ List.replicate spare none], ⟨h.length, 0, l.length⟩)

/-- `s = append(s[:i], xs...)`, which leaves `l` in `s`: in place where the capacity suffices.
How much spare capacity a new array gets is up to the runtime. -/
def append (s : GoSlice) (h : Arrays α) (l : List α) (spare : Nat) : Arrays α × GoSlice :=
  if l.length ≤ (s.slots h).length then
    (h.modify s.array fun a => a.take s.start ++ l.map some ++ a.drop (s.start + l.length),
      { s with length := l.length })
  else alloc h l spare

/-- The slice holds the list. -/
structure Holds (s : GoSlice) (h : Arrays α) (l : List α) : Prop where
  read : s.read h = l.map some
  length : s.length = l.length

variable {s : GoSlice} {h : Arrays α} {l : List α} {spare : Nat}

theorem holds_empty : empty.Holds h [] := ⟨List.take_zero, rfl⟩

theorem holds_alloc : (alloc h l spare).2.Holds (alloc h l spare).1 l := by
  refine ⟨?_, rfl⟩
  simp [alloc, read, slots, List.getD_eq_getElem?_getD]

/-- What is written from position `i` on is read there. -/
theorem take_drop_write {a m r : List (Option α)} {i : Nat} (hi : i ≤ a.length) :
    ((a.take i ++ m ++ r).drop i).take m.length = m := by
  have hlen : (a.take i).length = i := List.length_take_of_le hi
  rw [List.append_assoc, List.drop_left' hlen, List.take_left]

theorem holds_append : (s.append h l spare).2.Holds (s.append h l spare).1 l := by
  unfold append
  split
  · rename_i hcap
    refine ⟨?_, rfl⟩
    cases l with
    | nil => simp [read]
    | cons x rest =>
      -- a slice with room for an entry is a window on an array
      rw [slots, List.length_drop, List.length_cons] at hcap
      have harray : s.array < h.length := by
        refine Nat.lt_of_not_le fun hge => ?_
        rw [List.getD_eq_default _ _ hge] at hcap
        exact absurd hcap (by simp)
      rw [List.getD_eq_getElem _ _ harray] at hcap
      have hget : (h.modify s.array fun a => a.take s.start ++ (x :: rest).map some ++
          a.drop (s.start + (x :: rest).length)).getD s.array [] =
          h[s.array].take s.start ++ (x :: rest).map some ++
            h[s.array].drop (s.start + (x :: rest).length) := by
        simp [List.getD_eq_getElem?_getD, harray]
      have hread := take_drop_write (a := h[s.array]) (m := (x :: rest).map some)
        (r := h[s.array].drop (s.start + (x :: rest).length)) (i := s.start) (by omega)
      rw [read, slots, hget]
      rwa [List.length_map] at hread
  · exact holds_alloc

theorem Holds.dropFirst (hs : s.Holds h l) (k : Nat) : (s.dropFirst k).Holds h (l.drop k) := by
  refine ⟨?_, ?_⟩
  · have hread := hs.read
    unfold GoSlice.read slots at hread
    rw [GoSlice.read, slots, GoSlice.dropFirst, ← List.drop_drop, ← List.drop_take, hread,
      List.map_drop]
  · rw [GoSlice.dropFirst, hs.length, List.length_drop]

/-- What the slice can be resliced to starts with what it holds. -/
theorem Holds.slots (hs : s.Holds h l) : ∃ rest, s.slots h = l.map some ++ rest :=
  ⟨(s.slots h).drop s.length, by rw [← hs.read, GoSlice.read, List.take_append_drop]⟩

end GoSlice

/-- Two slices share the array: an `append` to one of them, in place, is read by the other. -/
example : (GoSlice.dropFirst ⟨0, 0, 2⟩ 0).read
    ((GoSlice.append ⟨0, 0, 2⟩ [[some 10, some 11]] [20] 0).1) = [some 20, some 11] := by
  decide

end RaftLabs.Lib
