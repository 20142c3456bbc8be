import ClassLang.Text.Quoted

/-! # Tokens

    The words of the language.  A token is what the scanner reads (`kind`)
    together with the line on which it starts.

    * **`TokenKind`**: literals and names carry their value, every symbol and
      keyword is a constructor of its own.
    * **`keywords`, `pairs`, `singles`**: the fixed spellings.
    * **`TokenKind.describe`**: the form in which messages name a token. -/

namespace ClassLang

/-- What a token is.  A literal is unsigned in a source text (a leading minus
    is a token of its own), so a scanned value lies in `0 … 2 ^ 31 - 1`. -/
inductive TokenKind where
  | num (value : Int)
  | ident (name : String)
  | plus | minus | star | slash
  | lessThan | lessEqual | doubleEqual | notEqual
  | equal | openParen | closeParen | openCurlyBrace | closeCurlyBrace
  | comma | semiColon | colon | dot
  | cls | int | bool | nothing | true | false | cond | print | ret | new | and | not
deriving DecidableEq

/-- A token and the line on which it starts; lines count from 1. -/
structure Token where
  kind : TokenKind
  line : Nat
deriving DecidableEq

namespace TokenKind

/-- The words that are no names. -/
def keywords : List (String × TokenKind) :=
  [("class", cls), ("int", int), ("bool", bool), ("nothing", nothing), ("true", true),
   ("false", false), ("if", cond), ("print", print), ("return", ret), ("new", new),
   ("and", and), ("not", not)]

/-- The symbols of two characters. -/
def pairs : List ((Char × Char) × TokenKind) :=
  [(('<', '='), lessEqual), (('=', '='), doubleEqual), (('!', '='), notEqual)]

/-- The symbols of one character. -/
def singles : List (Char × TokenKind) :=
  [('+', plus), ('-', minus), ('*', star), ('/', slash), ('<', lessThan), ('=', equal),
   ('(', openParen), (')', closeParen), ('{', openCurlyBrace), ('}', closeCurlyBrace),
   (',', comma), (';', semiColon), (':', colon), ('.', dot)]

/-- A word is a keyword or a name. -/
def ofWord (word : String) : TokenKind :=
  (keywords.lookup word).getD (ident word)

/-- The name of a kind without what it carries. -/
def label : TokenKind → String
  | num _ => "Num"
  | ident _ => "Ident"
  | plus => "Plus"
  | minus => "Minus"
  | star => "Star"
  | slash => "Slash"
  | lessThan => "LessThan"
  | lessEqual => "LessEqual"
  | doubleEqual => "DoubleEqual"
  | notEqual => "NotEqual"
  | equal => "Equal"
  | openParen => "OpenParen"
  | closeParen => "CloseParen"
  | openCurlyBrace => "OpenCurlyBrace"
  | closeCurlyBrace => "CloseCurlyBrace"
  | comma => "Comma"
  | semiColon => "SemiColon"
  | colon => "Colon"
  | dot => "Dot"
  | cls => "Class"
  | int => "Int"
  | bool => "Bool"
  | nothing => "Nothing"
  | true => "True"
  | false => "False"
  | cond => "If"
  | print => "Print"
  | ret => "Return"
  | new => "New"
  | and => "And"
  | not => "Not"

/-- How a message names a token: its kind, and in parentheses what it
    carries. -/
def describe : TokenKind → String
  | num value => "Num(" ++ toString value ++ ")"
  | ident name => "Ident(" ++ Text.quoted name ++ ")"
  | kind => kind.label

end TokenKind

end ClassLang
