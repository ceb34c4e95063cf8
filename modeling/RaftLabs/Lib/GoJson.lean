import RaftLabs.Lib.GoRunes

/-! JSON strings, as Go's `encoding/json` writes them.

A string is written rune by rune between quotation marks. What has a meaning of its own in JSON, in
HTML or in JavaScript is escaped, and a byte that is not UTF-8 is written as the replacement
character. A string is read back as it was exactly when it is UTF-8. -/
namespace RaftLabs.Lib.GoString

def quotationMark : Fin 256 := byte 34

def backslash : Fin 256 := byte 92

/-! ### Writing -/

def hexDigit (n : Nat) : Fin 256 :=
  if n % 16 < 10 then byte (48 + n % 16) else byte (87 + n % 16)

/-- `\u` and four digits. -/
def escapeRune (r : Nat) : GoString :=
  [backslash, byte 117, hexDigit (r / 4096), hexDigit (r / 256), hexDigit (r / 16), hexDigit r]

/-- The letters for the characters that have one after the backslash. -/
def escapeLetter (b : Fin 256) : Option (Fin 256) :=
  if b = quotationMark ∨ b = backslash then some b
  else if b = newline then some (byte 110)
  else if b = byte 13 then some (byte 114)
  else if b = byte 9 then some (byte 116)
  else none

/-- Control characters, and `<`, `>` and `&`. -/
def needsEscape (b : Fin 256) : Prop := b.val < 0x20 ∨ b = byte 60 ∨ b = byte 62 ∨ b = byte 38

instance (b : Fin 256) : Decidable (needsEscape b) := inferInstanceAs (Decidable (_ ∨ _))

def quoteAscii (b : Fin 256) : GoString :=
  match escapeLetter b with
  | some c => [backslash, c]
  | none => if needsEscape b then escapeRune b.val else [b]

/-- U+2028, which ends a line in JavaScript. -/
def lineSeparator : GoString := [byte 0xE2, byte 0x80, byte 0xA8]

def paragraphSeparator : GoString := [byte 0xE2, byte 0x80, byte 0xA9]

/-- The bytes of a rune; a single one that is not ASCII is not UTF-8. -/
def quoteRune : GoString → GoString
  | [b] => if b.val < 0x80 then quoteAscii b else escapeRune runeError
  | bytes =>
    if bytes = lineSeparator then escapeRune 0x2028
    else if bytes = paragraphSeparator then escapeRune 0x2029
    else bytes

def quote (s : GoString) : GoString :=
  quotationMark :: (runes s).flatMap (fun x => quoteRune x.2) ++ [quotationMark]

/-! ### Reading -/

def hexValue (b : Fin 256) : Option Nat :=
  if 48 ≤ b.val ∧ b.val ≤ 57 then some (b.val - 48)
  else if 97 ≤ b.val ∧ b.val ≤ 102 then some (b.val - 87)
  else none

/-- The rune of four digits. -/
def runeOf (a b c d : Fin 256) : Option Nat := do
  return ((← hexValue a) * 16 + (← hexValue b)) * 256 + (← hexValue c) * 16 + (← hexValue d)

/-- The bytes of a rune that four digits can give. -/
def encodeRune (r : Nat) : GoString :=
  if r < 0x80 then [byte r]
  else if r < 0x800 then [byte (0xC0 + r / 64), byte (0x80 + r % 64)]
  else [byte (0xE0 + r / 4096), byte (0x80 + r / 64 % 64), byte (0x80 + r % 64)]

/-- The character that a letter after the backslash stands for. -/
def unescapeLetter (c : Fin 256) : Option (Fin 256) :=
  if c = quotationMark ∨ c = backslash then some c
  else if c = byte 110 then some newline
  else if c = byte 114 then some (byte 13)
  else if c = byte 116 then some (byte 9)
  else none

/-- Puts bytes before what was read. -/
def prepend (bytes : GoString) (read : Option (GoString × GoString)) :
    Option (GoString × GoString) :=
  read.map fun (s, rest) => (bytes ++ s, rest)

/-- What stands after a backslash: the bytes that it means, and its length. -/
def readEscape : GoString → Option (GoString × Nat)
  | [] => none
  | c :: rest =>
    if c = byte 117 then
      match rest with
      | d₁ :: d₂ :: d₃ :: d₄ :: _ => (runeOf d₁ d₂ d₃ d₄).map fun r => (encodeRune r, 5)
      | _ => none
    else (unescapeLetter c).map fun b => ([b], 1)

/-- The bytes that `b` means before `rest`, and how many bytes of `rest` belong to it. -/
def readByte (b : Fin 256) (rest : GoString) : Option (GoString × Nat) :=
  if b = backslash then readEscape rest
  else if b.val < 0x20 then none
  else some ([b], 0)

/-- Reads up to the next quotation mark, after `skip` bytes: the string, and what follows. -/
def unquoteFrom : Nat → GoString → Option (GoString × GoString)
  | _, [] => none
  | skip + 1, _ :: rest => unquoteFrom skip rest
  | 0, b :: rest =>
    if b = quotationMark then some ([], rest)
    else (readByte b rest).bind fun x => prepend x.1 (unquoteFrom x.2 rest)

def unquote : GoString → Option (GoString × GoString)
  | [] => none
  | b :: rest => if b = quotationMark then unquoteFrom 0 rest else none

/-! ### Reading what was written -/

variable {s t bytes : GoString} {b : Fin 256} {skip : Nat}

theorem prepend_append (bytes bytes' : GoString) (read : Option (GoString × GoString)) :
    prepend (bytes ++ bytes') read = prepend bytes (prepend bytes' read) := by
  cases read <;> simp [prepend]

theorem unquoteFrom_drop (skip : Nat) (t : GoString) :
    unquoteFrom skip t = unquoteFrom 0 (t.drop skip) := by
  induction t generalizing skip with
  | nil => cases skip <;> rfl
  | cons b rest ih =>
    cases skip with
    | zero => rfl
    | succ skip => exact ih skip

theorem unquoteFrom_cons {bytes : GoString} {n : Nat} (hmark : b ≠ quotationMark)
    (hread : readByte b t = some (bytes, n)) :
    unquoteFrom 0 (b :: t) = prepend bytes (unquoteFrom 0 (t.drop n)) := by
  rw [unquoteFrom, if_neg hmark, hread, ← unquoteFrom_drop]
  rfl

theorem unquoteFrom_escapeRune {r : Nat} (h : r < 0x10000) (t : GoString) :
    unquoteFrom 0 (escapeRune r ++ t) = prepend (encodeRune r) (unquoteFrom 0 t) := by
  have hdigit : ∀ n, hexValue (hexDigit n) = some (n % 16) := by
    intro n
    have hlt : n % 16 < 16 := Nat.mod_lt _ (by decide)
    unfold hexDigit
    generalize n % 16 = m at hlt
    revert m
    decide
  have hrune : runeOf (hexDigit (r / 4096)) (hexDigit (r / 256)) (hexDigit (r / 16)) (hexDigit r) =
      some r := by
    simp only [runeOf, hdigit, Option.pure_def, Option.bind_eq_bind, Option.bind_some,
      Option.some.injEq]
    omega
  refine unquoteFrom_cons (b := backslash) (n := 5) (by decide) ?_
  show (runeOf _ _ _ _).map _ = _
  rw [hrune]
  rfl

theorem unquoteFrom_plain (hascii : 0x20 ≤ b.val) (hmark : b ≠ quotationMark)
    (hslash : b ≠ backslash) (t : GoString) :
    unquoteFrom 0 (b :: t) = prepend [b] (unquoteFrom 0 t) := by
  refine unquoteFrom_cons (n := 0) hmark ?_
  rw [readByte, if_neg hslash, if_neg (Nat.not_lt.mpr hascii)]

theorem unescapeLetter_of_escapeLetter {c : Fin 256} (h : escapeLetter b = some c) :
    c ≠ byte 117 ∧ unescapeLetter c = some b := by
  unfold escapeLetter at h
  repeat' split at h
  all_goals cases h
  · rename_i hmarks
    rcases hmarks with rfl | rfl <;> decide
  all_goals
    subst b
    decide

theorem unquoteFrom_quoteAscii (h : b.val < 0x80) (t : GoString) :
    unquoteFrom 0 (quoteAscii b ++ t) = prepend [b] (unquoteFrom 0 t) := by
  unfold quoteAscii
  split
  · rename_i c hletter
    obtain ⟨hc, hread⟩ := unescapeLetter_of_escapeLetter hletter
    refine unquoteFrom_cons (n := 1) (by decide) ?_
    show (if c = byte 117 then _ else (unescapeLetter c).map _) = _
    rw [if_neg hc, hread]
    rfl
  · rename_i hnone
    split
    · rw [unquoteFrom_escapeRune (by omega), encodeRune, if_pos h]
      simp [byte]
    · rename_i hplain
      have hge : 0x20 ≤ b.val := Nat.not_lt.mp fun hlt => hplain (.inl hlt)
      refine unquoteFrom_plain hge ?_ ?_ t <;>
      · rintro rfl
        cases hnone

/-- Bytes beyond ASCII are read as they are. -/
theorem unquoteFrom_bytes (h : ∀ b ∈ bytes, 0x80 ≤ b.val) (t : GoString) :
    unquoteFrom 0 (bytes ++ t) = prepend bytes (unquoteFrom 0 t) := by
  induction bytes with
  | nil =>
    rw [List.nil_append]
    cases unquoteFrom 0 t <;> rfl
  | cons b bytes ih =>
    have hb := h b List.mem_cons_self
    have hne : ∀ {c : Fin 256}, c.val < 0x80 → b ≠ c := fun hc heq => by
      rw [heq] at hb
      omega
    rw [List.cons_append, unquoteFrom_plain (by omega) (hne (by decide)) (hne (by decide)),
      ih fun c hc => h c (List.mem_cons_of_mem b hc), ← prepend_append]
    rfl

/-- No rune is a single byte that is not ASCII. -/
def IsUtf8 (s : GoString) : Prop :=
  ∀ x ∈ runes s, x.2.length = 1 → ∀ b ∈ x.2, b.val < 0x80

instance (s : GoString) : Decidable (IsUtf8 s) :=
  inferInstanceAs (Decidable (∀ x ∈ runes s, _))

/-- A rune is a single byte, or has no ASCII bytes. -/
theorem length_eq_one_or_of_mem_runesFrom {x : Nat × GoString} (h : x ∈ runesFrom skip s) :
    x.2.length = 1 ∨ ∀ b ∈ x.2, 0x80 ≤ b.val := by
  induction s generalizing skip with
  | nil => simp [runesFrom] at h
  | cons a rest ih =>
    cases skip with
    | succ skip => exact ih h
    | zero =>
      rw [runesFrom] at h
      rcases List.mem_cons.mp h with rfl | hmem
      · by_cases hascii : a.val < 0x80
        · exact .inl (by simp [decodeRune_ascii hascii])
        · refine .inr fun b hb => ?_
          rcases List.mem_cons.mp hb with rfl | hmem
          · omega
          · exact le_of_mem_take_decodeRune hmem
      · exact ih hmem

/-- The bytes of all runes are the string. -/
theorem flatMap_runesFrom (skip : Nat) (s : GoString) :
    (runesFrom skip s).flatMap (·.2) = s.drop skip := by
  induction s generalizing skip with
  | nil => simp [runesFrom]
  | cons a rest ih =>
    cases skip with
    | succ skip => exact ih skip
    | zero => rw [runesFrom, List.flatMap_cons, ih, List.cons_append, List.take_append_drop]; rfl

theorem unquoteFrom_quoteRune (hutf8 : bytes.length = 1 → ∀ b ∈ bytes, b.val < 0x80)
    (hrune : bytes.length = 1 ∨ ∀ b ∈ bytes, 0x80 ≤ b.val) (t : GoString) :
    unquoteFrom 0 (quoteRune bytes ++ t) = prepend bytes (unquoteFrom 0 t) := by
  unfold quoteRune
  split
  · rename_i b
    have hb := hutf8 rfl b List.mem_cons_self
    rw [if_pos hb]
    exact unquoteFrom_quoteAscii hb t
  · rename_i hsingle
    split
    · rename_i hline
      rw [hline]
      exact unquoteFrom_escapeRune (by decide) t
    · split
      · rename_i hparagraph
        rw [hparagraph]
        exact unquoteFrom_escapeRune (by decide) t
      · refine unquoteFrom_bytes (hrune.resolve_left fun hlen => ?_) t
        obtain ⟨b, hb⟩ := List.length_eq_one_iff.mp hlen
        exact hsingle b hb

/-- **A UTF-8 string is read back from its text.** -/
theorem unquote_quote (h : IsUtf8 s) (t : GoString) : unquote (quote s ++ t) = some (s, t) := by
  have hread : ∀ l : List (Nat × GoString), (∀ x ∈ l, x ∈ runes s) →
      unquoteFrom 0 (l.flatMap (fun x => quoteRune x.2) ++ quotationMark :: t) =
        some (l.flatMap (·.2), t) := by
    intro l hl
    induction l with
    | nil => rfl
    | cons x l ih =>
      have hx := hl x List.mem_cons_self
      rw [List.flatMap_cons, List.append_assoc, unquoteFrom_quoteRune (h x hx)
        (length_eq_one_or_of_mem_runesFrom hx), ih fun y hy => hl y (List.mem_cons_of_mem x hy)]
      rfl
  have hruns := hread (runes s) fun _ hx => hx
  rw [runes, flatMap_runesFrom, List.drop_zero] at hruns
  show unquoteFrom 0 (_ ++ [quotationMark] ++ t) = _
  rw [List.append_assoc]
  exact hruns

/-- A byte that is not UTF-8 is lost. -/
example : unquote (quote [byte 0xff]) = some ([byte 0xEF, byte 0xBF, byte 0xBD], []) := by decide

end RaftLabs.Lib.GoString
