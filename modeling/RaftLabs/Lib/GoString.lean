import Mathlib.Data.List.Basic
import Mathlib.Data.List.TakeWhile
import Mathlib.Order.Basic

/-! Go's strings: sequences of bytes.

They are what file names, file contents and the words in them are. `itoa` writes numbers in
decimal, and `lines` reads a text line by line; a text that ends with a newline keeps its lines
whatever follows it. -/
namespace RaftLabs.Lib

abbrev GoString := List (Fin 256)

namespace GoString

/-- A string literal. -/
def lit (s : String) : GoString := s.toUTF8.data.toList.map UInt8.toFin

def dash : Fin 256 := 45

def newline : Fin 256 := 10

/-- A byte by its number. -/
def byte (n : Nat) : Fin 256 := Fin.ofNat 256 n

/-! ### Numbers -/

def digit (n : Nat) : Fin 256 := ⟨48 + n % 10, by omega⟩

def itoaNat (n : Nat) : GoString :=
  if n < 10 then [digit n] else itoaNat (n / 10) ++ [digit n]

/-- `strconv.Itoa`. -/
def itoa : Int → GoString
  | .ofNat n => itoaNat n
  | .negSucc n => dash :: itoaNat (n + 1)

theorem digit_mem_itoaNat {n : Nat} {b : Fin 256} (h : b ∈ itoaNat n) :
    48 ≤ b.val ∧ b.val ≤ 57 := by
  have hdigit : ∀ m, 48 ≤ (digit m).val ∧ (digit m).val ≤ 57 := by
    intro m
    simp only [digit]
    omega
  induction n using Nat.strong_induction_on with
  | _ n ih =>
    rw [itoaNat] at h
    split at h
    · rw [List.mem_singleton.mp h]
      exact hdigit n
    · rcases List.mem_append.mp h with h | h
      · exact ih (n / 10) (by omega) h
      · rw [List.mem_singleton.mp h]
        exact hdigit n

theorem itoaNat_ne_nil (n : Nat) : itoaNat n ≠ [] := by
  rw [itoaNat]
  split <;> simp

/-- The number that a string of digits stands for. -/
def value (s : GoString) : Nat := s.foldl (fun n b => 10 * n + (b.val - 48)) 0

theorem value_itoaNat (n : Nat) : value (itoaNat n) = n := by
  induction n using Nat.strong_induction_on with
  | _ n ih =>
    rw [itoaNat]
    split
    · simp only [value, List.foldl_cons, List.foldl_nil, digit]
      omega
    · have hdiv : value (itoaNat (n / 10)) = n / 10 := ih (n / 10) (by omega)
      rw [value, List.foldl_append]
      change 10 * value (itoaNat (n / 10)) + ((digit n).val - 48) = n
      rw [hdiv]
      simp only [digit]
      omega

theorem itoaNat_injective : Function.Injective itoaNat :=
  Function.LeftInverse.injective value_itoaNat

/-- What stands on both sides of a separator that is not in the left part. -/
theorem append_cons_inj {α : Type*} {sep : α} {l l' r r' : List α} (hl : sep ∉ l) (hl' : sep ∉ l')
    (h : l ++ sep :: r = l' ++ sep :: r') : l = l' ∧ r = r' := by
  induction l generalizing l' with
  | nil =>
    cases l' with
    | nil => exact ⟨rfl, (List.cons.inj h).2⟩
    | cons a rest => exact absurd ((List.cons.inj h).1 ▸ List.mem_cons_self) hl'
  | cons a rest ih =>
    cases l' with
    | nil => exact absurd ((List.cons.inj h).1 ▸ List.mem_cons_self) hl
    | cons a' rest' =>
      obtain ⟨rfl, htail⟩ := List.cons.inj h
      obtain ⟨rfl, rfl⟩ := ih (fun hmem => hl (List.mem_cons_of_mem _ hmem))
        (fun hmem => hl' (List.mem_cons_of_mem _ hmem)) htail
      exact ⟨rfl, rfl⟩

/-! ### Lines -/

/-- The lines of a text, without their ends; a last line need not be ended. -/
def lines : GoString → List GoString
  | [] => []
  | b :: rest =>
    if b = newline then [] :: lines rest
    else match lines rest with
      | [] => [[b]]
      | l :: ls => (b :: l) :: ls

theorem lines_append (s t : GoString) :
    lines (s ++ newline :: t) = lines (s ++ [newline]) ++ lines t := by
  induction s with
  | nil => simp [lines]
  | cons b rest ih =>
    rw [List.cons_append, List.cons_append, lines, lines, ih]
    split
    · rfl
    · have hne : lines (rest ++ [newline]) ≠ [] := by
        cases rest with
        | nil => simp [lines]
        | cons b' rest' =>
          rw [List.cons_append, lines]
          split
          · simp
          · split <;> simp
      obtain ⟨l, ls, hlines⟩ := List.exists_cons_of_ne_nil hne
      rw [hlines]
      rfl

/-- The lines of texts that all end with a newline, one after the other. -/
theorem lines_flatMap {α : Type*} (text : α → GoString) (l : List α) :
    lines (l.flatMap fun a => text a ++ [newline]) =
      l.flatMap fun a => lines (text a ++ [newline]) := by
  induction l with
  | nil => rfl
  | cons a rest ih =>
    rw [List.flatMap_cons, List.flatMap_cons, List.append_assoc, List.singleton_append,
      lines_append, ih]

end GoString
end RaftLabs.Lib
