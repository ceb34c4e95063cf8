import Mathlib.Algebra.BigOperators.Group.Finset.Basic
import Mathlib.Algebra.BigOperators.Group.Finset.Piecewise
import Mathlib.Algebra.Order.BigOperators.Group.Finset
import Mathlib.Data.Finset.Card

/-! Levelling a sorted list of counts towards an average from both ends.

The least count below the average takes what it needs from the greatest count above, and the one
that has reached the average is done. The loop stops when one side has nothing left to give or to
take. What is left above the average then sits where it was least: the greatest counts are levelled
first, and at most one count is left half way. -/
namespace RaftLabs.Lib.Leveling

/-- `k` units go from place `j` to place `i`. -/
def transfer (count : Nat → Nat) (i j k : Nat) : Nat → Nat :=
  Function.update (Function.update count i (count i + k)) j (count j - k)

/-- The loop, from the places `i` and `j`. -/
def level (avg i j : Nat) (count : Nat → Nat) : Nat → Nat :=
  if i < j ∧ count i < avg ∧ avg < count j then
    let need := avg - count i
    let extra := count j - avg
    let count' := transfer count i j (min need extra)
    if extra = need then level avg (i + 1) (j - 1) count'
    else if need < extra then level avg (i + 1) j count'
    else level avg i (j - 1) count'
  else count
termination_by j - i

section Transfer
variable {count : Nat → Nat} {i j k a : Nat}

theorem transfer_left (h : i ≠ j) : transfer count i j k i = count i + k := by
  rw [transfer, Function.update_of_ne h, Function.update_self]

theorem transfer_right : transfer count i j k j = count j - k := Function.update_self _ _ _

theorem transfer_of_ne (hi : a ≠ i) (hj : a ≠ j) : transfer count i j k a = count a := by
  rw [transfer, Function.update_of_ne hj, Function.update_of_ne hi]

/-- Nothing is lost on the way. -/
theorem sum_transfer {n : Nat} (hij : i ≠ j) (hi : i < n) (hj : j < n) (hk : k ≤ count j) :
    ∑ a ∈ Finset.range n, transfer count i j k a = ∑ a ∈ Finset.range n, count a := by
  have hi' := Finset.mem_range.mpr hi
  have hj' := Finset.mem_erase.mpr ⟨Ne.symm hij, Finset.mem_range.mpr hj⟩
  rw [← Finset.add_sum_erase _ _ hi', ← Finset.add_sum_erase _ _ hj',
    ← Finset.add_sum_erase _ count hi', ← Finset.add_sum_erase _ count hj',
    transfer_left hij, transfer_right]
  have hrest : ∑ a ∈ ((Finset.range n).erase i).erase j, transfer count i j k a =
      ∑ a ∈ ((Finset.range n).erase i).erase j, count a := by
    refine Finset.sum_congr rfl fun a ha => ?_
    obtain ⟨haj, ha⟩ := Finset.mem_erase.mp ha
    exact transfer_of_ne (Finset.mem_erase.mp ha).1 haj
  omega

end Transfer

/-! ### What the loop keeps -/

/-- The counts during the loop against the counts `start` before it. -/
structure Levels (n avg : Nat) (start : Nat → Nat) (i j : Nat) (count : Nat → Nat) : Prop where
  meet : i ≤ j + 1
  bound : j < n
  low : ∀ a < i, count a = avg ∧ start a < avg
  high : ∀ a, j < a → a < n → count a = avg ∧ avg < start a
  between : ∀ a, i < a → a < j → count a = start a
  left : i < j → count i = start i ∨ (start i < count i ∧ count i < avg)
  right : i < j → count j = start j ∨ (avg < count j ∧ count j < start j)
  towards : ∀ a < n, (start a ≤ count a ∧ count a ≤ avg) ∨ (avg ≤ count a ∧ count a ≤ start a)
  sum : ∑ a ∈ Finset.range n, count a = ∑ a ∈ Finset.range n, start a

theorem Levels.start {n : Nat} (avg : Nat) (start : Nat → Nat) (hn : 0 < n) :
    Levels n avg start 0 (n - 1) start where
  meet := Nat.zero_le _
  bound := Nat.sub_lt hn Nat.one_pos
  low a ha := absurd ha (Nat.not_lt_zero a)
  high a ha hn := by omega
  between _ _ _ := rfl
  left _ := .inl rfl
  right _ := .inl rfl
  towards a _ := by omega
  sum := rfl

section Loop
variable {n avg i j : Nat} {start count : Nat → Nat}

/-- Units go from the right end to the left one; an end that has reached the average is done. -/
theorem Levels.move (h : Levels n avg start i j count) (hij : i < j) {k i' j' : Nat} (hk : 0 < k)
    (hi : (i' = i ∧ count i + k < avg) ∨ (i' = i + 1 ∧ count i + k = avg))
    (hj : (j' = j ∧ avg + k < count j) ∨ (j' = j - 1 ∧ avg + k = count j)) :
    Levels n avg start i' j' (transfer count i j k) := by
  have hi₀ : transfer count i j k i = count i + k := transfer_left hij.ne
  have hj₀ : transfer count i j k j = count j - k := transfer_right
  have hother : ∀ a, a ≠ i → a ≠ j → transfer count i j k a = count a := fun a => transfer_of_ne
  have hstarti : start i ≤ count i := by
    have := h.left hij
    omega
  have hstartj : count j ≤ start j := by
    have := h.right hij
    omega
  have hmid : ∀ a, i < a → a < j → transfer count i j k a = start a := by
    intro a hia haj
    rw [hother a hia.ne' haj.ne]
    exact h.between a hia haj
  have hbound := h.bound
  have hmeet : i' ≤ i + 1 ∧ i ≤ i' ∧ j' ≤ j ∧ j ≤ j' + 1 := by omega
  constructor
  case meet => omega
  case bound => omega
  case low =>
    intro a ha
    by_cases hai : a = i
    · subst hai
      omega
    · rw [hother a hai (by omega)]
      exact h.low a (by omega)
  case high =>
    intro a ha hn
    by_cases haj : a = j
    · subst haj
      omega
    · rw [hother a (by omega) haj]
      exact h.high a (by omega) hn
  case between =>
    intro a hia haj
    exact hmid a (by omega) (by omega)
  case left =>
    intro hij'
    rcases hi with ⟨rfl, hlt⟩ | ⟨rfl, -⟩
    · exact .inr (by omega)
    · exact .inl (hmid _ (by omega) (by omega))
  case right =>
    intro hij'
    rcases hj with ⟨rfl, hlt⟩ | ⟨rfl, -⟩
    · exact .inr (by omega)
    · exact .inl (hmid _ (by omega) (by omega))
  case towards =>
    intro a ha
    by_cases hai : a = i
    · subst hai
      exact .inl (by omega)
    · by_cases haj : a = j
      · subst haj
        exact .inr (by omega)
      · rw [hother a hai haj]
        exact h.towards a ha
  case sum =>
    exact (sum_transfer hij.ne (by omega) hbound (by omega)).trans h.sum

/-- What the loop ends with: no round is possible any more. -/
theorem Levels.level (h : Levels n avg start i j count) : ∃ i' j',
    Levels n avg start i' j' (level avg i j count) ∧
      ¬ (i' < j' ∧ level avg i j count i' < avg ∧ avg < level avg i j count j') := by
  induction hd : j - i using Nat.strong_induction_on generalizing i j count with
  | _ d ih =>
    rw [Leveling.level]
    split
    swap
    · exact ⟨i, j, h, ‹_›⟩
    · rename_i hguard
      obtain ⟨hij, hi, hj⟩ := hguard
      dsimp only
      split
      · rename_i heq
        rw [Nat.min_eq_left heq.ge]
        exact ih (j - 1 - (i + 1)) (by omega) (h.move hij (by omega) (.inr (by omega))
          (.inr (by omega))) rfl
      · rename_i hne
        split
        · rename_i hlt
          rw [Nat.min_eq_left hlt.le]
          exact ih (j - (i + 1)) (by omega) (h.move hij (by omega) (.inr (by omega))
            (.inl (by omega))) rfl
        · rename_i hge
          rw [Nat.min_eq_right (by omega)]
          exact ih (j - 1 - i) (by omega) (h.move hij (by omega) (.inl (by omega))
            (.inr (by omega))) rfl

end Loop

/-! ### What the loop leaves -/

/-- The counts `final` after the loop: all on one side of the average, and what is left above it
is the least that was there. -/
structure Leveled (n avg : Nat) (start final : Nat → Nat) : Prop where
  side : (∀ a < n, avg ≤ final a) ∨ (∀ a < n, final a ≤ avg)
  sum : ∑ a ∈ Finset.range n, final a = ∑ a ∈ Finset.range n, start a
  above : ∀ a < n, avg < final a → final a ≤ start a
  untouched : ∃ b, ∀ a < n, a ≠ b → avg < final a → final a = start a
  greatest : ∀ a < n, ∀ b < n, avg < start a → final a < start a → start a < start b →
    final b = avg

section Ends
variable {n avg i j : Nat} {start final : Nat → Nat} (h : Levels n avg start i j final)
include h

/-- Between the ends, and at the left end while it is above the average, nothing is moved. -/
theorem Levels.unmoved {a : Nat} (haj : a < j) (habove : avg < final a) : final a = start a := by
  rcases Nat.lt_trichotomy a i with hai | rfl | hia
  · have := (h.low a hai).1
    omega
  · have := h.left haj
    omega
  · exact h.between a hia haj

/-- A place whose count went down is at the right end or beyond. -/
theorem Levels.right_of_lt {a : Nat} (hdown : final a < start a) : j ≤ a := by
  by_contra hlt
  have hmeet := h.meet
  rcases Nat.lt_trichotomy a i with hai | rfl | hia
  · have := h.low a hai
    omega
  · have := h.left (by omega)
    omega
  · have := h.between a hia (by omega)
    omega

variable (hsorted : ∀ a b, a ≤ b → b < n → start a ≤ start b)
include hsorted

/-- The left end was at the average from the start, and so is everything to its right. -/
theorem Levels.ge_of_left (hij : i < j) (hi : avg ≤ final i) : ∀ a < n, avg ≤ final a := by
  intro a ha
  have hleft := h.left hij
  have hstart : avg ≤ start i := by omega
  rcases Nat.lt_trichotomy a i with hai | rfl | hia
  · exact (h.low a hai).1.ge
  · exact hi
  · have hge := hsorted i a hia.le ha
    have := h.towards a ha
    omega

theorem Levels.le_of_right (hij : i < j) (hj : final j ≤ avg) : ∀ a < n, final a ≤ avg := by
  intro a ha
  have hright := h.right hij
  have hstart : start j ≤ avg := by omega
  rcases Nat.lt_or_ge j a with hja | haj
  · exact (h.high a hja ha).1.le
  · have hle := hsorted a j haj h.bound
    have := h.towards a ha
    omega

omit hsorted in
/-- The ends have met: one place decides. -/
theorem Levels.eq_of_met (hij : ¬ i < j) {a : Nat} (ha : a < n) (hne : a ≠ j) : final a = avg := by
  have hmeet := h.meet
  rcases Nat.lt_or_ge j a with hja | haj
  · exact (h.high a hja ha).1
  · exact (h.low a (by omega)).1

theorem Levels.side (hstop : ¬ (i < j ∧ final i < avg ∧ avg < final j)) :
    (∀ a < n, avg ≤ final a) ∨ (∀ a < n, final a ≤ avg) := by
  by_cases hij : i < j
  · by_cases hi : avg ≤ final i
    · exact .inl (h.ge_of_left hsorted hij hi)
    · have hj : final j ≤ avg := by
        by_contra hj
        exact hstop ⟨hij, by omega, by omega⟩
      exact .inr (h.le_of_right hsorted hij hj)
  · rcases Nat.le_total avg (final j) with hle | hle
    · refine .inl fun a ha => ?_
      by_cases haj : a = j
      · rwa [haj]
      · exact (h.eq_of_met hij ha haj).ge
    · refine .inr fun a ha => ?_
      by_cases haj : a = j
      · rwa [haj]
      · exact (h.eq_of_met hij ha haj).le

end Ends

/-- **The loop levels sorted counts.** -/
theorem leveled_level {n : Nat} (avg : Nat) {start : Nat → Nat} (hn : 0 < n)
    (hsorted : ∀ a b, a ≤ b → b < n → start a ≤ start b) :
    Leveled n avg start (level avg 0 (n - 1) start) := by
  obtain ⟨i, j, h, hstop⟩ := (Levels.start avg start hn).level
  generalize level avg 0 (n - 1) start = final at h hstop
  refine ⟨h.side hsorted hstop, h.sum, fun a ha habove => ?_, ⟨j, fun a ha hne habove => ?_⟩,
    fun a ha b hb _ hlt hab => ?_⟩
  · have := h.towards a ha
    omega
  · rcases Nat.lt_or_gt_of_ne hne with haj | hja
    · exact h.unmoved haj habove
    · have := (h.high a hja ha).1
      omega
  · have hja := h.right_of_lt hlt
    have hab' : a < b := by
      by_contra hge
      have := hsorted b a (by omega) ha
      omega
    exact (h.high b (by omega) hb).1

section Leveled
variable {n avg r : Nat} {start final : Nat → Nat}

/-- Only the counts at the `n` places matter. -/
theorem Leveled.congr (h : Leveled n avg start final) {start' final' : Nat → Nat}
    (hstart : ∀ a < n, start' a = start a) (hfinal : ∀ a < n, final' a = final a) :
    Leveled n avg start' final' where
  side := h.side.imp (fun hge a ha => hfinal a ha ▸ hge a ha) fun hle a ha => hfinal a ha ▸ hle a ha
  sum := by
    rw [Finset.sum_congr rfl fun a ha => hfinal a (Finset.mem_range.mp ha), h.sum]
    exact Finset.sum_congr rfl fun a ha => (hstart a (Finset.mem_range.mp ha)).symm
  above a ha := by
    rw [hstart a ha, hfinal a ha]
    exact h.above a ha
  untouched := by
    obtain ⟨b, hb⟩ := h.untouched
    refine ⟨b, fun a ha => ?_⟩
    rw [hstart a ha, hfinal a ha]
    exact hb a ha
  greatest a ha b hb := by
    rw [hstart a ha, hfinal a ha, hstart b hb, hfinal b hb]
    exact h.greatest a ha b hb

/-- Too little for all: nobody is above the average. -/
theorem Leveled.le_of_sum_lt (h : Leveled n avg start final)
    (hsum : ∑ a ∈ Finset.range n, start a < n * avg) : ∀ a < n, final a ≤ avg := by
  refine h.side.resolve_left fun hge => ?_
  have hle : n * avg ≤ ∑ a ∈ Finset.range n, final a := by
    have := Finset.card_nsmul_le_sum (Finset.range n) final avg
      fun a ha => hge a (Finset.mem_range.mp ha)
    rwa [Finset.card_range, Nat.nsmul_eq_mul] at this
  have := h.sum
  omega

/-- Enough for all: nobody is below the average. -/
theorem Leveled.ge_of_sum_ge (h : Leveled n avg start final)
    (hsum : n * avg ≤ ∑ a ∈ Finset.range n, start a) : ∀ a < n, avg ≤ final a := by
  rcases h.side with hge | hle
  · exact hge
  · -- then everybody is at the average
    intro a ha
    by_contra hlt
    have hless : ∑ a ∈ Finset.range n, final a < ∑ a ∈ Finset.range n, avg :=
      Finset.sum_lt_sum (fun a ha => hle a (Finset.mem_range.mp ha))
        ⟨a, Finset.mem_range.mpr ha, by omega⟩
    rw [Finset.sum_const, Finset.card_range, Nat.nsmul_eq_mul, h.sum] at hless
    omega

/-- What is above the average, all together. -/
theorem Leveled.sum_above (h : Leveled n avg start final)
    (hsum : ∑ a ∈ Finset.range n, start a = n * avg + r) :
    ∑ a ∈ Finset.range n, (final a - avg) = r := by
  have hge := h.ge_of_sum_ge (by omega)
  have hsplit : ∑ a ∈ Finset.range n, final a =
      ∑ a ∈ Finset.range n, avg + ∑ a ∈ Finset.range n, (final a - avg) := by
    rw [← Finset.sum_add_distrib]
    refine Finset.sum_congr rfl fun a ha => ?_
    have := hge a (Finset.mem_range.mp ha)
    omega
  rw [Finset.sum_const, Finset.card_range, Nat.nsmul_eq_mul, h.sum] at hsplit
  omega

/-- When nobody is more than one above the average, the remainder is one place each. -/
theorem Leveled.card_of_le_succ (h : Leveled n avg start final)
    (hsum : ∑ a ∈ Finset.range n, start a = n * avg + r) (hle : ∀ a < n, final a ≤ avg + 1) :
    r = ((Finset.range n).filter fun a => final a = avg + 1).card := by
  rw [← h.sum_above hsum, Finset.card_filter]
  refine Finset.sum_congr rfl fun a ha => ?_
  have hle' := hle a (Finset.mem_range.mp ha)
  have hge' := h.ge_of_sum_ge (by omega) a (Finset.mem_range.mp ha)
  split <;> omega

/-- Next to a place that is more than one above the average, those one above it are unmoved. -/
theorem Leveled.stays_one_above (h : Leveled n avg start final)
    (hsum : ∑ a ∈ Finset.range n, start a = n * avg + r) {p : Nat} (hp : p < n)
    (hbig : avg + 1 < final p) {a : Nat} (ha : a < n) (heq : start a = avg + 1) :
    final a = avg + 1 := by
  by_contra hne
  have hup := h.above a ha
  have hgea := h.ge_of_sum_ge (by omega) a ha
  have hstartp := h.above p hp (by omega)
  have := h.greatest a ha p hp (by omega) (by omega) (by omega)
  omega

/-- Nobody is more than one above the average exactly when enough places were one above it. -/
theorem Leveled.le_succ_iff (h : Leveled n avg start final)
    (hsum : ∑ a ∈ Finset.range n, start a = n * avg + r) :
    (∀ a < n, final a ≤ avg + 1) ↔
      r ≤ ((Finset.range n).filter fun a => start a = avg + 1).card + 1 := by
  constructor
  · intro hle
    obtain ⟨b, hb⟩ := h.untouched
    have hcard := h.card_of_le_succ hsum hle
    -- what is one above now was so before, with one exception
    have hsub : ((Finset.range n).filter fun a => final a = avg + 1).erase b ⊆
        (Finset.range n).filter fun a => start a = avg + 1 := by
      intro a ha
      obtain ⟨hne, ha⟩ := Finset.mem_erase.mp ha
      obtain ⟨ha, heq⟩ := Finset.mem_filter.mp ha
      refine Finset.mem_filter.mpr ⟨ha, ?_⟩
      rw [← hb a (Finset.mem_range.mp ha) hne (by omega), heq]
    have hle' := Finset.card_le_card hsub
    have := Finset.pred_card_le_card_erase
      (s := (Finset.range n).filter fun a => final a = avg + 1) (a := b)
    omega
  · intro hr
    by_contra hno
    push Not at hno
    obtain ⟨p, hp, hbig⟩ := hno
    -- everything that was one above is still there, and `p` comes on top
    have hstay : ∀ a ∈ (Finset.range n).filter (fun a => start a = avg + 1), final a = avg + 1 := by
      intro a ha
      obtain ⟨ha, heq⟩ := Finset.mem_filter.mp ha
      exact h.stays_one_above hsum hp hbig (Finset.mem_range.mp ha) heq
    have hp' : p ∉ (Finset.range n).filter (fun a => start a = avg + 1) := fun hmem => by
      have := hstay p hmem
      omega
    have hsub : insert p ((Finset.range n).filter fun a => start a = avg + 1) ⊆ Finset.range n := by
      intro a ha
      rcases Finset.mem_insert.mp ha with rfl | ha
      · exact Finset.mem_range.mpr hp
      · exact (Finset.mem_filter.mp ha).1
    have hle := Finset.sum_le_sum_of_subset (f := fun a => final a - avg) hsub
    rw [Finset.sum_insert hp', h.sum_above hsum] at hle
    have hones : ∑ a ∈ (Finset.range n).filter (fun a => start a = avg + 1), (final a - avg) =
        ((Finset.range n).filter fun a => start a = avg + 1).card := by
      rw [Finset.card_eq_sum_ones]
      refine Finset.sum_congr rfl fun a ha => ?_
      have := hstay a ha
      omega
    omega

/-- **When levelling spreads the remainder.** -/
theorem Leveled.even_iff (h : Leveled n avg start final)
    (hsum : ∑ a ∈ Finset.range n, start a = n * avg + r) (hr : r < n) :
    (∀ a < n, ∀ b < n, final a ≤ final b + 1) ↔
      r ≤ ((Finset.range n).filter fun a => start a = avg + 1).card + 1 := by
  have hge := h.ge_of_sum_ge (by omega)
  rw [← h.le_succ_iff hsum]
  constructor
  · intro heven
    -- some place is at the average
    obtain ⟨b, hb, hbavg⟩ : ∃ b < n, final b = avg := by
      by_contra hno
      push Not at hno
      have hle := Finset.card_nsmul_le_sum (Finset.range n) (fun a => final a - avg) 1 fun a ha => by
        have hge' := hge a (Finset.mem_range.mp ha)
        have hne := hno a (Finset.mem_range.mp ha)
        omega
      rw [Finset.card_range, Nat.nsmul_eq_mul, h.sum_above hsum] at hle
      omega
    intro a ha
    have := heven a ha b hb
    omega
  · intro hle a ha b hb
    have := hle a ha
    have := hge b hb
    omega

end Leveled

/-! ### Who gives and who takes -/

/-- The counts of `s` before and after a levelling in the order `before`: whoever takes something
comes after nobody who still misses some, and whoever gives something comes before nobody who still
has too much. -/
structure Exchanged {α : Type*} (s : Finset α) (before : α → α → Prop) (avg : Nat)
    (start final : α → Nat) : Prop where
  side : (∀ a ∈ s, avg ≤ final a) ∨ (∀ a ∈ s, final a ≤ avg)
  towards : ∀ a ∈ s, (start a ≤ final a ∧ final a ≤ avg) ∨ (avg ≤ final a ∧ final a ≤ start a)
  sum : ∑ a ∈ s, final a = ∑ a ∈ s, start a
  takes : ∀ a ∈ s, ∀ b ∈ s, before a b → start b < final b → start a < avg → final a = avg
  gives : ∀ a ∈ s, ∀ b ∈ s, before a b → final a < start a → avg < start b → final b = avg

/-- What there is to move: all that is too much or all that is missing, whichever is less. -/
def volume {α : Type*} (s : Finset α) (avg : Nat) (start : α → Nat) : Nat :=
  min (∑ a ∈ s, (start a - avg)) (∑ a ∈ s, (avg - start a))

theorem exchanged_level {n : Nat} (avg : Nat) {start : Nat → Nat} (hn : 0 < n)
    (hsorted : ∀ a b, a ≤ b → b < n → start a ≤ start b) :
    Exchanged (Finset.range n) (· < ·) avg start (level avg 0 (n - 1) start) := by
  obtain ⟨i, j, h, hstop⟩ := (Levels.start avg start hn).level
  generalize level avg 0 (n - 1) start = final at h hstop
  have hmeet := h.meet
  refine ⟨by simpa using h.side hsorted hstop, by simpa using h.towards, h.sum, ?_, ?_⟩
  · intro a ha b hb hab htakes _
    -- what takes is at the left end at most
    have hbi : b ≤ i := by
      by_contra hib
      rcases Nat.lt_trichotomy b j with hbj | rfl | hjb
      · have := h.between b (by omega) hbj
        omega
      · have := h.right (by omega)
        omega
      · have := h.high b hjb (Finset.mem_range.mp hb)
        omega
    exact (h.low a (by omega)).1
  · intro a ha b hb hab hgives _
    exact (h.high b (Nat.lt_of_le_of_lt (h.right_of_lt hgives) hab) (Finset.mem_range.mp hb)).1

section Exchanged
variable {α : Type*} {s : Finset α} {before : α → α → Prop} {avg : Nat} {start final : α → Nat}

/-- An exchange between the places of a list is one between what is listed. -/
theorem Exchanged.of_places [DecidableEq α] {n : Nat} {f : Nat → α} {start' final' : Nat → Nat}
    (himage : (Finset.range n).image f = s) (hinj : Set.InjOn f (Finset.range n))
    (hbefore : ∀ a < n, ∀ b < n, before (f a) (f b) → a < b)
    (hstart : ∀ a < n, start' a = start (f a)) (hfinal : ∀ a < n, final' a = final (f a))
    (h : Exchanged (Finset.range n) (· < ·) avg start' final') :
    Exchanged s before avg start final := by
  subst himage
  obtain ⟨hside, htowards, hsum, htakes, hgives⟩ := h
  rw [Finset.sum_congr rfl fun a ha => hfinal a (Finset.mem_range.mp ha),
    Finset.sum_congr rfl fun a ha => hstart a (Finset.mem_range.mp ha)] at hsum
  simp only [Finset.mem_range] at hside htowards htakes hgives
  constructor <;> simp only [Finset.forall_mem_image, Finset.sum_image hinj, Finset.mem_range]
  · exact hside.imp (fun hge a ha => hfinal a ha ▸ hge a ha) fun hle a ha => hfinal a ha ▸ hle a ha
  · intro a ha
    rw [← hstart a ha, ← hfinal a ha]
    exact htowards a ha
  · exact hsum
  · intro a ha b hb hab
    rw [← hstart a ha, ← hfinal a ha, ← hstart b hb, ← hfinal b hb]
    exact htakes a ha b hb (hbefore a ha b hb hab)
  · intro a ha b hb hab
    rw [← hstart a ha, ← hfinal a ha, ← hstart b hb, ← hfinal b hb]
    exact hgives a ha b hb (hbefore a ha b hb hab)

variable (h : Exchanged s before avg start final)
include h

/-- What is taken is what is given. -/
theorem Exchanged.sum_taken_eq : ∑ a ∈ s, (final a - start a) = ∑ a ∈ s, (start a - final a) := by
  have hsum : ∑ a ∈ s, (start a + (final a - start a)) = ∑ a ∈ s, (final a + (start a - final a)) :=
    Finset.sum_congr rfl fun a _ => by omega
  rw [Finset.sum_add_distrib, Finset.sum_add_distrib, h.sum] at hsum
  exact Nat.add_left_cancel hsum

theorem Exchanged.sum_given : ∑ a ∈ s, (start a - final a) = volume s avg start := by
  have heq := h.sum_taken_eq
  rw [volume]
  rcases h.side with hge | hle
  · -- nobody misses anything any more
    have htaken : ∑ a ∈ s, (final a - start a) = ∑ a ∈ s, (avg - start a) :=
      Finset.sum_congr rfl fun a ha => by
        have := h.towards a ha
        have := hge a ha
        omega
    have hgiven : ∑ a ∈ s, (start a - final a) ≤ ∑ a ∈ s, (start a - avg) :=
      Finset.sum_le_sum fun a ha => Nat.sub_le_sub_left (hge a ha) _
    omega
  · have hgiven : ∑ a ∈ s, (start a - final a) = ∑ a ∈ s, (start a - avg) :=
      Finset.sum_congr rfl fun a ha => by
        have := h.towards a ha
        have := hle a ha
        omega
    have htaken : ∑ a ∈ s, (final a - start a) ≤ ∑ a ∈ s, (avg - start a) :=
      Finset.sum_le_sum fun a ha => Nat.sub_le_sub_right (hle a ha) _
    omega

/-- **Who takes something**: a member below the average, unless what those before it miss is enough
for all that is moved. -/
theorem Exchanged.takes_iff [DecidableEq α] [DecidableRel before] {g : α} (hg : g ∈ s)
    (hirrefl : ¬ before g g)
    (htotal : ∀ a ∈ s, a ≠ g → before a g ∨ before g a) :
    start g < final g ↔
      start g < avg ∧ ∑ a ∈ s with before a g, (avg - start a) < volume s avg start := by
  have hvolume := h.sum_taken_eq.trans h.sum_given
  have htowards := h.towards g hg
  constructor
  · intro htakes
    refine ⟨by omega, ?_⟩
    -- those before it are at the average
    have hfull : ∑ a ∈ s with before a g, (avg - start a) ≤
        ∑ a ∈ s with before a g, (final a - start a) := by
      refine Finset.sum_le_sum fun a ha => ?_
      obtain ⟨ha, hbefore⟩ := Finset.mem_filter.mp ha
      have := h.takes a ha g hg hbefore htakes
      omega
    have hnot : g ∉ s.filter (before · g) := fun hmem => hirrefl (Finset.mem_filter.mp hmem).2
    have hsub : insert g (s.filter (before · g)) ⊆ s :=
      Finset.insert_subset hg (Finset.filter_subset _ _)
    have hle := Finset.sum_le_sum_of_subset (f := fun a => final a - start a) hsub
    rw [Finset.sum_insert hnot] at hle
    omega
  · rintro ⟨hbelow, hlt⟩
    by_contra hno
    -- then nobody after it takes anything
    have hafter : ∀ a ∈ s, ¬ before a g → final a - start a = 0 := by
      intro a ha hnot
      by_cases hag : a = g
      · rw [hag]
        omega
      · have hbefore := (htotal a ha hag).resolve_left hnot
        by_contra htakes
        have := h.takes g hg a ha hbefore (by omega) hbelow
        omega
    have hsplit := Finset.sum_filter_add_sum_filter_not s (before · g) fun a => final a - start a
    rw [Finset.sum_eq_zero (s := s.filter (¬ before · g)) fun a ha =>
      hafter a (Finset.mem_filter.mp ha).1 (Finset.mem_filter.mp ha).2, Nat.add_zero] at hsplit
    have hle : ∑ a ∈ s with before a g, (final a - start a) ≤
        ∑ a ∈ s with before a g, (avg - start a) := by
      refine Finset.sum_le_sum fun a ha => ?_
      have := h.towards a (Finset.mem_filter.mp ha).1
      omega
    omega

/-- The last one gives everything if it has enough. -/
theorem Exchanged.gives_last {t : α} (ht : t ∈ s) (hlast : ∀ a ∈ s, a ≠ t → before a t)
    (henough : volume s avg start ≤ start t - avg) : ∀ a ∈ s, a ≠ t → start a - final a = 0 := by
  classical
  intro a ha hne
  by_contra hgives
  have hsub : ({a, t} : Finset α) ⊆ s :=
    Finset.insert_subset ha (Finset.singleton_subset_iff.mpr ht)
  have hle := Finset.sum_le_sum_of_subset (f := fun a => start a - final a) hsub
  rw [Finset.sum_pair hne, h.sum_given] at hle
  have := h.gives a ha t ht (hlast a ha hne) (by omega) (by omega)
  omega

/-- When nobody else gives anything, one gives all. -/
theorem Exchanged.given_of_others {t : α} (ht : t ∈ s)
    (hothers : ∀ a ∈ s, a ≠ t → start a - final a = 0) :
    start t - final t = volume s avg start := by
  rw [← h.sum_given, Finset.sum_eq_single_of_mem t ht hothers]

end Exchanged

end RaftLabs.Lib.Leveling
