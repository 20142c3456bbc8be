import ClassLang.Token

/-! # Reading tokens one after another

    The ground on which the grammar stands.

    * **`Cursor`** is a place in a token list: what is still to come, and the
      line that stands for its end.
    * **`Parse`** is a reader of tokens.  A reader that fails leaves the
      cursor where it stopped, so that a later reader can go on from there.
    * **`accept`, `expect`, `ident`** read one token; **`collect`** repeats a
      step until it declines.

    No reader here looks behind the cursor, and every error is raised at the
    cursor: its line is `Cursor.line`. -/

namespace ClassLang.Grammar

/-! ## Errors -/

/-- What would have been right at the cursor. -/
inductive Wanted where
  | token (kind : TokenKind)
  | ident
  | expression
deriving DecidableEq

/-- The token at the cursor (none at the end) is not what is wanted. -/
structure SyntaxError where
  line : Nat
  found : Option TokenKind
  wanted : Wanted
deriving DecidableEq

/-- What a message says about what is wanted. -/
def Wanted.text : Wanted → String
  | token kind => kind.describe
  | ident => "Ident"
  | expression => "expression"

/-- The message of an error. -/
def SyntaxError.message (e : SyntaxError) : String :=
  "on line number " ++ toString e.line ++ ", syntax error: " ++
    match e.found with
    | some kind => "unexpected " ++ kind.describe ++ " (was expecting " ++ e.wanted.text ++ ")"
    | none => "expected " ++ e.wanted.text ++ ", however reached EOF"

/-! ## Places -/

/-- A place in a token list. -/
structure Cursor where
  /-- The tokens still to come. -/
  rest : List Token
  /-- The line that stands for the end of the list. -/
  endLine : Nat
deriving DecidableEq

namespace Cursor

/-- The start of a token list.  Its end lies on the line of the last token,
    and on line 1 if there is none. -/
def ofTokens (tokens : List Token) : Cursor :=
  { rest := tokens, endLine := (tokens.getLast?.map Token.line).getD 1 }

/-- The kind of the token `n` places ahead. -/
def kindAt (c : Cursor) (n : Nat) : Option TokenKind := c.rest[n]?.map Token.kind

/-- The line of the next token, or of the end. -/
def line (c : Cursor) : Nat := (c.rest.head?.map Token.line).getD c.endLine

/-- The place behind the next token. -/
def next (c : Cursor) : Cursor := { c with rest := c.rest.tail }

end Cursor

/-! ## Reading one token -/

/-- A reader of tokens. -/
abbrev Parse := EStateM SyntaxError Cursor

/-- The line of the next token, or of the end. -/
def lineHere : Parse Nat := fun c => .ok c.line c

/-- The kind of the token `n` places ahead. -/
def peek (n : Nat) : Parse (Option TokenKind) := fun c => .ok (c.kindAt n) c

/-- Steps over the next token. -/
def advance : Parse Unit := fun c => .ok () c.next

/-- Fails at the cursor. -/
def fail (wanted : Wanted) : Parse α := fun c =>
  .error { line := c.line, found := c.kindAt 0, wanted } c

/-- Steps over the next token if it is of this kind, and says whether it was. -/
def accept (kind : TokenKind) : Parse Bool := fun c =>
  if c.kindAt 0 = some kind then .ok true c.next else .ok false c

/-- Steps over a token that has to be of this kind. -/
def expect (kind : TokenKind) : Parse Unit := fun c =>
  if c.kindAt 0 = some kind then .ok () c.next else fail (.token kind) c

/-- Reads a name. -/
def ident : Parse String := fun c =>
  match c.kindAt 0 with
  | some (.ident name) => .ok name c.next
  | _ => fail .ident c

/-! ## Repetition -/

/-- Repeats `step` until it declines, at most `fuel` times. -/
def collectUpTo (step : Parse (Option α)) : (fuel : Nat) → Parse (List α)
  | 0 => pure []
  | fuel + 1 => do
    match ← step with
    | none => return []
    | some a => return a :: (← collectUpTo step fuel)

/-- Repeats `step` until it declines.  A step that does not decline takes a
    token, so the tokens still to come bound the number of steps. -/
def collect (step : Parse (Option α)) : Parse (List α) := fun c =>
  collectUpTo step (c.rest.length + 1) c

/-- Reads items as long as `more` says so. -/
def manyWhile (more : Parse Bool) (item : Parse α) : Parse (List α) :=
  collect do
    if ← more then return some (← item) else return none

/-- Reads items up to a closing token, and the closing token. -/
def manyUntil (close : TokenKind) (item : Parse α) : Parse (List α) :=
  collect do
    if ← accept close then return none else return some (← item)

end ClassLang.Grammar
