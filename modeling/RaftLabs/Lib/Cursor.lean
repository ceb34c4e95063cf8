import Mathlib.Data.Nat.Basic

/-! The place up to which a sender knows a receiver to follow it.

A sender keeps two numbers for a receiver: what is confirmed, and where it tries next. A probe
asks whether the receiver has everything up to a position. A confirmation moves both numbers
forward, a refusal moves the next attempt back. Several probes can be under way, and the answers
come in any order; what keeps the numbers together is that the next attempt moves forward with
confirmations only, so that it is never past every probe under way and what is confirmed. -/
namespace RaftLabs.Lib

/-- What a sender knows of a receiver. -/
structure Cursor where
  next : Nat
  matched : Nat
deriving DecidableEq, Repr

namespace Cursor
variable {c : Cursor} {k p last last' : Nat}

/-- Everything up to `k` is confirmed. -/
def confirm (c : Cursor) (k : Nat) : Cursor := ⟨max c.next (k + 1), max c.matched k⟩

/-- The next attempt is `k`. -/
def retreat (c : Cursor) (k : Nat) : Cursor := { c with next := k }

/-- A probe at `p` was made with this cursor, or with one that has moved to it since. -/
def Made (c : Cursor) (p : Nat) : Prop := c.next ≤ max p c.matched + 1

/-- Once something is confirmed, the next attempt is right behind it at most. -/
def Tight (c : Cursor) : Prop := c.matched = 0 ∨ c.next ≤ c.matched + 1

/-- The cursor points into a log that ends at `last`, or right behind it. -/
structure Within (c : Cursor) (last : Nat) : Prop where
  next : c.next ≤ last + 1
  matched : c.matched ≤ last

/-- The next attempt is past what is confirmed. -/
def Ordered (c : Cursor) : Prop := c.matched < c.next

/-! ### Confirmations -/

theorem Made.confirm (h : c.Made p) (k : Nat) : (c.confirm k).Made p := by
  unfold Made Cursor.confirm at *
  dsimp only
  omega

/-- A confirmation comes from a probe, and reaches at least as far. -/
theorem Made.tight (h : c.Made p) (hp : p ≤ k) : (c.confirm k).Tight := by
  refine .inr ?_
  unfold Made at h
  unfold Cursor.confirm
  dsimp only
  omega

theorem Within.confirm (h : c.Within last) (hk : k ≤ last) : (c.confirm k).Within last where
  next := Nat.max_le.mpr ⟨h.next, Nat.succ_le_succ hk⟩
  matched := Nat.max_le.mpr ⟨h.matched, hk⟩

theorem Ordered.confirm (h : c.Ordered) (k : Nat) : (c.confirm k).Ordered := by
  unfold Ordered Cursor.confirm at *
  dsimp only
  omega

/-! ### Refusals -/

theorem Made.retreat (h : c.Made p) (hk : k ≤ c.next) : (c.retreat k).Made p :=
  Nat.le_trans hk h

theorem Tight.retreat (h : c.Tight) (hk : k ≤ c.next) : (c.retreat k).Tight :=
  h.imp_right (Nat.le_trans hk)

theorem Within.retreat (h : c.Within last) (hk : k ≤ c.next) : (c.retreat k).Within last where
  next := Nat.le_trans hk h.next
  matched := h.matched

theorem Within.mono (h : c.Within last) (hle : last ≤ last') : c.Within last' where
  next := Nat.le_trans h.next (Nat.succ_le_succ hle)
  matched := Nat.le_trans h.matched hle

/-- **A refusal keeps the order exactly when it is news**: a refusal of the current probe that
arrives after this very position was confirmed takes the next attempt back below it. -/
theorem ordered_retreat_iff (h : c.Tight) (hprobe : c.next = p + 1) (hpos : 1 ≤ k) (hle : k ≤ p) :
    (c.retreat k).Ordered ↔ c.matched < p := by
  constructor
  · intro hordered
    exact Nat.lt_of_lt_of_le hordered hle
  · intro hlt
    -- the cursor is past `matched + 1`, so that nothing can be confirmed
    have hzero : c.matched = 0 := h.resolve_right (by omega)
    show c.matched < k
    omega

end Cursor
end RaftLabs.Lib
