import ClassLang.Text.Blank
import ClassLang.Token

/-! # Scanning

    From a source text to its tokens.

    * **`Token.lexeme`** reads one lexeme: a whole word, a whole run of
      digits, or the longest symbol that starts here.
    * **`Token.scanFrom`** alternates gaps and lexemes.  A gap is blanks and
      `//` comments; only line feeds advance the line.
    * **`ScanError`** says on which line and why scanning stopped. -/

namespace ClassLang

/-! ## Errors -/

/-- Why no token can be read. -/
inductive ScanCause where
  /-- No lexeme starts with this character. -/
  | unexpected (c : Char)
  /-- The value of this run of digits exceeds the largest word. -/
  | tooLarge (digits : String)
deriving DecidableEq

/-- Why scanning stopped, and on which line. -/
structure ScanError where
  line : Nat
  cause : ScanCause
deriving DecidableEq

/-- What a message says about a cause. -/
def ScanCause.text : ScanCause → String
  | .unexpected c => "unexpected character " ++ Text.quotedChar c
  | .tooLarge digits => "integer literal " ++ digits ++ " does not fit in a word"

/-- The message of an error. -/
def ScanError.message (e : ScanError) : String :=
  "on line number " ++ toString e.line ++ ", lexical error: " ++ e.cause.text

namespace Token

/-! ## Lexemes -/

/-- May `c` stand in a word? -/
def isWordChar (c : Char) : Bool := c.isAlphanum || c == '_'

/-- May `c` start a word? -/
def isWordStart (c : Char) : Bool := c.isAlpha || c == '_'

/-- The number that decimal digits denote. -/
def decimalValue (digits : List Char) : Nat :=
  digits.foldl (fun value d => 10 * value + (d.toNat - '0'.toNat)) 0

/-- The largest integer literal. -/
def maxLiteral : Nat := 2147483647

/-- A run of digits as a token. -/
def number (digits : List Char) : Except ScanCause TokenKind :=
  if decimalValue digits ≤ maxLiteral then .ok (.num (decimalValue digits))
  else .error (.tooLarge (String.ofList digits))

/-- The longest symbol that starts with `c`, followed by `rest`. -/
def symbol? (c : Char) (rest : List Char) : Option (TokenKind × List Char) :=
  match rest with
  | [] => (TokenKind.singles.lookup c).map (·, [])
  | c₂ :: rest₂ =>
    match TokenKind.pairs.lookup (c, c₂) with
    | some kind => some (kind, rest₂)
    | none => (TokenKind.singles.lookup c).map (·, rest)

/-- Reads one lexeme from `c :: rest`: what it is, and what follows it. -/
def lexeme (c : Char) (rest : List Char) : Except ScanCause (TokenKind × List Char) :=
  if c.isDigit then
    (number (c :: rest.takeWhile Char.isDigit)).map (·, rest.dropWhile Char.isDigit)
  else if isWordStart c then
    .ok (.ofWord (String.ofList (c :: rest.takeWhile isWordChar)), rest.dropWhile isWordChar)
  else
    match symbol? c rest with
    | some found => .ok found
    | none => .error (.unexpected c)

/-! ## Gaps -/

/-- Does a comment start with `c`, followed by `rest`? -/
def startsComment (c : Char) (rest : List Char) : Bool := c == '/' && rest.head? == some '/'

/-- What follows a comment: its line feed is not part of it. -/
def afterComment (rest : List Char) : List Char := rest.dropWhile (· != '\n')

/-! ## Progress -/

/-- Dropping characters makes no text longer. -/
theorem length_dropWhile_le (p : Char → Bool) (cs : List Char) :
    (cs.dropWhile p).length ≤ cs.length :=
  (List.dropWhile_sublist p).length_le

/-- What follows a symbol is part of what follows its first character. -/
theorem length_symbol?_le {c : Char} {rest after : List Char} {kind : TokenKind}
    (h : symbol? c rest = some (kind, after)) : after.length ≤ rest.length := by
  unfold symbol? at h
  split at h
  · obtain ⟨_, _, h⟩ := Option.map_eq_some_iff.1 h
    simp_all
  · split at h
    · simp_all only [Option.some.injEq, Prod.mk.injEq]
      simp [← h.2]
    · obtain ⟨_, _, h⟩ := Option.map_eq_some_iff.1 h
      simp_all

/-- A lexeme takes at least its first character. -/
theorem length_lexeme_le {c : Char} {rest after : List Char} {kind : TokenKind}
    (h : lexeme c rest = .ok (kind, after)) : after.length ≤ rest.length := by
  unfold lexeme at h
  split at h
  · cases hn : number (c :: rest.takeWhile Char.isDigit) with
    | error _ => simp [hn, Except.map] at h
    | ok k =>
      simp only [hn, Except.map, Except.ok.injEq, Prod.mk.injEq] at h
      rw [← h.2]
      exact length_dropWhile_le _ _
  · split at h
    · simp only [Except.ok.injEq, Prod.mk.injEq] at h
      rw [← h.2]
      exact length_dropWhile_le _ _
    · split at h
      · next found hs =>
        simp only [Except.ok.injEq] at h
        exact length_symbol?_le (h ▸ hs)
      · simp at h

/-! ## The scan -/

/-- The tokens of a text whose first character stands on `line`. -/
def scanFrom (line : Nat) : List Char → Except ScanError (List Token)
  | [] => .ok []
  | c :: rest =>
    if c = '\n' then scanFrom (line + 1) rest
    else if Text.isBlank c then scanFrom line rest
    -- a slash is a symbol only where no comment starts
    else if startsComment c rest then scanFrom line (afterComment rest)
    else
      match _h : lexeme c rest with
      | .error cause => .error ⟨line, cause⟩
      | .ok (kind, after) => (scanFrom line after).map (⟨kind, line⟩ :: ·)
termination_by cs => cs.length
decreasing_by
  · simp
  · simp
  · exact Nat.lt_succ_of_le (length_dropWhile_le _ _)
  · exact Nat.lt_succ_of_le (length_lexeme_le _h)

/-- The tokens of a source text. -/
def scan (source : String) : Except ScanError (List Token) := scanFrom 1 source.toList

end Token

end ClassLang
