import Mathlib.Data.List.Basic
import Mathlib.Logic.Function.Basic

/-! Sets of operation numbers, as the checker keeps them: bits in words of 64.

Bits 0 to 63 are in the first word, the next ones in the second, and so on. A position beyond the
last word is an index out of range, which stops the program. -/
namespace RaftLabs.Porcupine

/-- `[]uint64`. -/
structure Bitset where
  words : List (BitVec 64)
deriving DecidableEq

def newBitset (bits : Nat) : Bitset :=
  let extra := if bits % 64 ≠ 0 then 1 else 0
  let chunks := bits / 64 + extra
  ⟨List.replicate chunks 0#64⟩

/-- The word of a position and the bit in it. -/
def bitsetIndex (pos : Nat) : Nat × Nat := (pos / 64, pos % 64)

/-- The word with this bit alone. -/
def bit (minor : Nat) : BitVec 64 := 1#64 <<< minor

/-- The number of ones in a word. -/
def onesCount64 (v : BitVec 64) : Nat := (List.range 64).countP v.getLsbD

namespace Bitset

/-- Replaces the word at a position. -/
def update (b : Bitset) (pos : Nat) (f : BitVec 64 → BitVec 64) : Option Bitset :=
  let (major, _) := bitsetIndex pos
  (b.words[major]?).map fun word => ⟨b.words.set major (f word)⟩

def set (b : Bitset) (pos : Nat) : Option Bitset :=
  let (_, minor) := bitsetIndex pos
  b.update pos (· ||| bit minor)

def clear (b : Bitset) (pos : Nat) : Option Bitset :=
  let (_, minor) := bitsetIndex pos
  b.update pos (· &&& ~~~ bit minor)

def get (b : Bitset) (pos : Nat) : Option Bool :=
  let (major, minor) := bitsetIndex pos
  (b.words[major]?).map fun word => decide (word &&& bit minor ≠ 0)

def popcnt (b : Bitset) : Nat := b.words.foldl (fun total v => total + onesCount64 v) 0

def hash (b : Bitset) : BitVec 64 := b.words.foldl (· ^^^ ·) (BitVec.ofNat 64 b.popcnt)

def equals (b b2 : Bitset) : Bool :=
  if b.words.length ≠ b2.words.length then false
  else (List.range b.words.length).all fun i => decide (b.words[i]? = b2.words[i]?)

def word (b : Bitset) (major : Nat) : BitVec 64 := (b.words[major]?).getD 0#64

/-- The set a bitset stands for. -/
def mem (b : Bitset) (pos : Nat) : Bool := (b.word (pos / 64)).getLsbD (pos % 64)

/-- The positions that have a word. -/
def capacity (b : Bitset) : Nat := 64 * b.words.length

end Bitset

theorem getLsbD_bit (minor i : Nat) (hi : i < 64) : (bit minor).getLsbD i = decide (i = minor) := by
  simp only [bit, BitVec.getLsbD_shiftLeft, BitVec.getLsbD_one, hi, decide_true, Bool.true_and]
  by_cases hlt : i < minor
  · simp [hlt, Nat.ne_of_lt hlt]
  · simp [hlt]
    omega

/-- Masking with a bit tests it. -/
theorem and_bit_ne_zero (v : BitVec 64) {minor : Nat} (hminor : minor < 64) :
    decide (v &&& bit minor ≠ 0) = v.getLsbD minor := by
  cases hbit : v.getLsbD minor with
  | false =>
    have hzero : v &&& bit minor = 0 := by
      refine BitVec.eq_of_getLsbD_eq fun i hi => ?_
      rw [BitVec.getLsbD_and, getLsbD_bit minor i hi, BitVec.ofNat_eq_ofNat, BitVec.getLsbD_zero]
      by_cases h : i = minor <;> simp [h, hbit]
    simp [hzero]
  | true =>
    refine decide_eq_true fun hzero => ?_
    have hlsb := congrArg (BitVec.getLsbD · minor) hzero
    simp [BitVec.getLsbD_and, getLsbD_bit minor minor hminor, hbit] at hlsb

theorem le_capacity_newBitset (bits : Nat) : bits ≤ (newBitset bits).capacity := by
  simp only [newBitset, Bitset.capacity, List.length_replicate]
  split <;> omega

@[simp] theorem mem_newBitset (bits pos : Nat) : (newBitset bits).mem pos = false := by
  have hword : ∀ major, (newBitset bits).word major = 0#64 := by
    intro major
    by_cases h : major < (newBitset bits).words.length
    · rw [Bitset.word, List.getElem?_eq_getElem h]
      exact List.getElem_replicate h
    · rw [Bitset.word, List.getElem?_eq_none (Nat.le_of_not_lt h), Option.getD_none]
  rw [Bitset.mem, hword, BitVec.getLsbD_zero]

namespace Bitset
variable {b b' : Bitset} {pos : Nat}

theorem div_lt_length (hpos : pos < b.capacity) : pos / 64 < b.words.length := by
  unfold capacity at hpos
  omega

theorem getElem?_words (hpos : pos < b.capacity) : b.words[pos / 64]? = some (b.word (pos / 64)) := by
  rw [word, List.getElem?_eq_getElem (div_lt_length hpos), Option.getD_some]

theorem update_eq (f : BitVec 64 → BitVec 64) (hpos : pos < b.capacity) :
    b.update pos f = some ⟨b.words.set (pos / 64) (f (b.word (pos / 64)))⟩ := by
  simp [update, bitsetIndex, getElem?_words hpos]

theorem word_set (hpos : pos < b.capacity) (v : BitVec 64) (major : Nat) :
    Bitset.word ⟨b.words.set (pos / 64) v⟩ major = if pos / 64 = major then v else b.word major := by
  have hlt := div_lt_length hpos
  by_cases h : pos / 64 = major
  · subst h
    simp [word, hlt]
  · simp [word, h]

theorem exists_set (hpos : pos < b.capacity) : ∃ b', b.set pos = some b' :=
  ⟨_, update_eq _ hpos⟩

theorem lt_capacity_of_set (h : b.set pos = some b') : pos < b.capacity := by
  obtain ⟨v, hv, -⟩ := Option.map_eq_some_iff.mp h
  have hlt : pos / 64 < b.words.length := (List.getElem?_eq_some_iff.mp hv).1
  unfold capacity
  omega

theorem capacity_set (h : b.set pos = some b') : b'.capacity = b.capacity := by
  obtain ⟨v, -, rfl⟩ := Option.map_eq_some_iff.mp h
  simp [capacity]

/-- What `set` gives, where it gives something. -/
theorem set_eq (h : b.set pos = some b') :
    b' = ⟨b.words.set (pos / 64) (b.word (pos / 64) ||| bit (pos % 64))⟩ := by
  have heq : b.set pos = some _ := update_eq _ (lt_capacity_of_set h)
  exact Option.some.inj (h.symm.trans heq)

theorem mem_set (h : b.set pos = some b') (q : Nat) :
    b'.mem q = (b.mem q || decide (q = pos)) := by
  have hq : q % 64 < 64 := Nat.mod_lt _ (by omega)
  rw [set_eq h, mem, word_set (lt_capacity_of_set h)]
  split
  · rename_i hword
    have hdec : decide (q % 64 = pos % 64) = decide (q = pos) := by
      simp only [decide_eq_decide]
      omega
    rw [BitVec.getLsbD_or, getLsbD_bit _ _ hq, hdec, hword, mem]
  · rename_i hword
    have hne : q ≠ pos := fun h' => hword (by rw [h'])
    simp [hne, mem]

/-- Clearing a bit that was just set restores the set. -/
theorem clear_set (h : b.set pos = some b') (hmem : b.mem pos = false) :
    b'.clear pos = some b := by
  have hpos := lt_capacity_of_set h
  have hclear : b'.clear pos = some _ := update_eq _ (capacity_set h ▸ hpos)
  rw [hclear, set_eq h, word_set hpos, if_pos rfl]
  have hword : (b.word (pos / 64) ||| bit (pos % 64)) &&& ~~~ bit (pos % 64) =
      b.word (pos / 64) := by
    refine BitVec.eq_of_getLsbD_eq fun i hi => ?_
    rw [BitVec.getLsbD_and, BitVec.getLsbD_or, BitVec.getLsbD_not, getLsbD_bit _ _ hi]
    by_cases hipos : i = pos % 64
    · rw [hipos, show (b.word (pos / 64)).getLsbD (pos % 64) = false from hmem]
      simp
    · simp [hipos, hi]
  have hself : b.words.set (pos / 64) (b.word (pos / 64)) = b.words := by
    rw [word, List.getElem?_eq_getElem (div_lt_length hpos), Option.getD_some,
      List.set_getElem_self]
  simp only [hword, List.set_set, hself]

theorem get_eq (hpos : pos < b.capacity) : b.get pos = some (b.mem pos) := by
  simp only [get, bitsetIndex, getElem?_words hpos, Option.map_some, mem]
  exact congrArg some (and_bit_ne_zero _ (Nat.mod_lt pos (by omega)))

/-- `equals` compares the words. -/
theorem equals_iff {b b2 : Bitset} : b.equals b2 = true ↔ b = b2 := by
  obtain ⟨words⟩ := b
  obtain ⟨words2⟩ := b2
  simp only [equals, Bitset.mk.injEq]
  constructor
  · intro h
    split at h
    · cases h
    · rename_i hlength
      refine List.ext_getElem? fun i => ?_
      by_cases hi : i < words.length
      · exact of_decide_eq_true (List.all_eq_true.mp h i (List.mem_range.mpr hi))
      · rw [List.getElem?_eq_none (by omega), List.getElem?_eq_none (by omega)]
  · rintro rfl
    simp

end Bitset
end RaftLabs.Porcupine
