import RaftLabs.Lib.GoString

/-! Go's runes: the characters of a string in UTF-8.

A `range` loop over a string reads it rune by rune. Bytes that are not UTF-8 are read one at a time,
each as the replacement character. `fieldsFunc` splits a string at the runes that separate words. -/
namespace RaftLabs.Lib.GoString

/-- The replacement character. -/
def runeError : Nat := 0xFFFD

/-- How many bytes follow a first byte, and the range of the first of them; `none` for a byte that
starts no rune of several bytes. -/
def first (b : Nat) : Option (Nat × Nat × Nat) :=
  if b < 0xC2 then none
  else if b ≤ 0xDF then some (1, 0x80, 0xBF)
  else if b = 0xE0 then some (2, 0xA0, 0xBF)
  else if b = 0xED then some (2, 0x80, 0x9F)
  else if b ≤ 0xEF then some (2, 0x80, 0xBF)
  else if b = 0xF0 then some (3, 0x90, 0xBF)
  else if b ≤ 0xF3 then some (3, 0x80, 0xBF)
  else if b = 0xF4 then some (3, 0x80, 0x8F)
  else none

/-- The bits that the bytes after the first one add to a rune. -/
def continued (r : Nat) (bytes : GoString) : Nat :=
  bytes.foldl (fun r b => r * 64 + b.val % 64) r

/-- The first rune of a string that begins with `b`, and how many bytes of `rest` belong to it. -/
def decodeRune (b : Fin 256) (rest : GoString) : Nat × Nat :=
  if b.val < 0x80 then (b.val, 0)
  else match first b.val, rest with
    | some (n, lo, hi), c :: _ =>
      if lo ≤ c.val ∧ c.val ≤ hi ∧ (rest.take n).length = n ∧
          (rest.take n).all (fun d => 0x80 ≤ d.val && d.val ≤ 0xBF) then
        (continued (b.val % (64 >>> n)) (rest.take n), n)
      else (runeError, 0)
    | _, _ => (runeError, 0)

/-- The runes of a string with their bytes, after `skip` bytes. -/
def runesFrom : Nat → GoString → List (Nat × GoString)
  | _, [] => []
  | 0, b :: rest =>
    ((decodeRune b rest).1, b :: rest.take (decodeRune b rest).2) ::
      runesFrom (decodeRune b rest).2 rest
  | skip + 1, _ :: rest => runesFrom skip rest

def runes (s : GoString) : List (Nat × GoString) := runesFrom 0 s

/-- The words among these runes, the first of which begins with `word`. -/
def fieldsFrom (separates : Nat → Bool) (word : GoString) : List (Nat × GoString) → List GoString
  | [] => if word = [] then [] else [word]
  | (r, bytes) :: rest =>
    if separates r then
      if word = [] then fieldsFrom separates [] rest else word :: fieldsFrom separates [] rest
    else fieldsFrom separates (word ++ bytes) rest

/-- `strings.FieldsFunc`. -/
def fieldsFunc (separates : Nat → Bool) (s : GoString) : List GoString :=
  fieldsFrom separates [] (runes s)

/-! ### The bytes of words -/

variable {s rest word : GoString} {b c : Fin 256} {r : Nat} {bytes : GoString} {skip : Nat}

theorem decodeRune_ascii (h : b.val < 0x80) : decodeRune b rest = (b.val, 0) :=
  if_pos h

/-- The further bytes of a rune are not ASCII. -/
theorem le_of_mem_take_decodeRune (hc : c ∈ rest.take (decodeRune b rest).2) : 0x80 ≤ c.val := by
  unfold decodeRune at hc
  split at hc
  · simp at hc
  · split at hc
    · split at hc
      · rename_i hvalid
        have hall := List.all_eq_true.mp hvalid.2.2.2 c hc
        simp only [Bool.and_eq_true, decide_eq_true_eq] at hall
        exact hall.1
      · simp at hc
    · simp at hc

/-- An ASCII byte is a rune of its own. -/
theorem rune_eq_of_ascii (h : (r, bytes) ∈ runesFrom skip s) (hb : b ∈ bytes) (hascii : b.val < 0x80) :
    r = b.val := by
  induction s generalizing skip with
  | nil => simp [runesFrom] at h
  | cons a rest ih =>
    cases skip with
    | zero =>
      rw [runesFrom] at h
      rcases List.mem_cons.mp h with heq | hmem
      · cases heq
        rcases List.mem_cons.mp hb with rfl | htake
        · rw [decodeRune_ascii hascii]
        · exact absurd (le_of_mem_take_decodeRune htake) (Nat.not_le.mpr hascii)
      · exact ih hmem
    | succ skip => exact ih h

/-- The bytes of a word come from runes that do not separate. -/
theorem exists_rune_of_mem_fieldsFrom {separates : Nat → Bool} {l : List (Nat × GoString)}
    {w : GoString} (hw : w ∈ fieldsFrom separates word l) (hb : b ∈ w) :
    b ∈ word ∨ ∃ r bytes, (r, bytes) ∈ l ∧ b ∈ bytes ∧ separates r = false := by
  induction l generalizing word with
  | nil =>
    rw [fieldsFrom] at hw
    split at hw
    · cases hw
    · rw [List.mem_singleton.mp hw] at hb
      exact .inl hb
  | cons x l ih =>
    obtain ⟨r, bytes⟩ := x
    have later : ∀ {word : GoString}, w ∈ fieldsFrom separates word l → b ∉ word →
        ∃ r' bytes', (r', bytes') ∈ (r, bytes) :: l ∧ b ∈ bytes' ∧ separates r' = false := by
      intro word hw hword
      rcases ih hw with hmem | ⟨r', bytes', hmem, hrest⟩
      · exact absurd hmem hword
      · exact ⟨r', bytes', List.mem_cons_of_mem _ hmem, hrest⟩
    by_cases hword : b ∈ word
    · exact .inl hword
    refine .inr ?_
    rw [fieldsFrom] at hw
    split at hw
    · split at hw
      · exact later hw List.not_mem_nil
      · rcases List.mem_cons.mp hw with rfl | hw
        · exact absurd hb hword
        · exact later hw List.not_mem_nil
    · rename_i hsep
      by_cases hbytes : b ∈ bytes
      · exact ⟨r, bytes, List.mem_cons_self, hbytes, by simpa using hsep⟩
      · exact later hw (by simp [hword, hbytes])

/-- An ASCII byte that separates words is in no word. -/
theorem not_mem_of_separates {separates : Nat → Bool} (hascii : b.val < 0x80)
    (hsep : separates b.val = true) {w : GoString} (hw : w ∈ fieldsFunc separates s) : b ∉ w := by
  intro hb
  rcases exists_rune_of_mem_fieldsFrom hw hb with hnil | ⟨r, bytes, hmem, hbytes, hnot⟩
  · cases hnil
  · rw [rune_eq_of_ascii hmem hbytes hascii, hsep] at hnot
    cases hnot

end RaftLabs.Lib.GoString
