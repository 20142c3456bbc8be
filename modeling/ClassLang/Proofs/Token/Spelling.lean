import ClassLang.Proofs.Token.Splitting

/-! # Spelling

    Texts that are written from tokens, and what the scan makes of them.

    * **`TokenKind.Spells`**: the spellings of a token; a number may have zeros
      in front.
    * **`Filler`** and **`Separator`**: what is written between tokens.
    * **`Written`**: a text with the spellings of the tokens, each on its line.
    * **`scan_written`**: the scan gives the tokens back. -/

namespace ClassLang

/-! ## Spellings -/

namespace TokenKind

/-- The one spelling of a symbol or a keyword. -/
def fixed? : TokenKind → Option String
  | num _ | ident _ => none
  | plus => "+"
  | minus => "-"
  | star => "*"
  | slash => "/"
  | lessThan => "<"
  | lessEqual => "<="
  | doubleEqual => "=="
  | notEqual => "!="
  | equal => "="
  | openParen => "("
  | closeParen => ")"
  | openCurlyBrace => "\x7b"
  | closeCurlyBrace => "\x7d"
  | comma => ","
  | semiColon => ";"
  | colon => ":"
  | dot => "."
  | cls => "class"
  | int => "int"
  | bool => "bool"
  | nothing => "nothing"
  | true => "true"
  | false => "false"
  | cond => "if"
  | print => "print"
  | ret => "return"
  | new => "new"
  | and => "and"
  | not => "not"

/-- The spellings of a token.  A number is written in decimal, with any number
    of zeros in front. -/
inductive Spells : TokenKind → List Char → Prop where
  | fixed {kind s} : kind.fixed? = some s → Spells kind s.toList
  | ident {name} : Spells (ident name) name.toList
  | num {n : Nat} (zeros : Nat) : Spells (num n) (List.replicate zeros '0' ++ Nat.toDigits 10 n)

/-- A word of ASCII letters, digits and underscores that starts with no digit. -/
def IsName (name : String) : Prop :=
  ∃ c rest, name.toList = c :: rest ∧ (c.isAlpha = Bool.true ∨ c = '_') ∧
    ∀ d ∈ rest, d.isAlphanum = Bool.true ∨ d = '_'

/-- The tokens that have a spelling: a number is not negative and fits in a word,
    and a name is no keyword. -/
def Writable : TokenKind → Prop
  | num value => 0 ≤ value ∧ value ≤ 2 ^ 31 - 1
  | ident name => IsName name ∧ ∀ kind : TokenKind, kind.fixed? ≠ some name
  | _ => True

end TokenKind

namespace Token

/-! ## Written texts -/

/-- Blanks, and comments with the line feeds at their ends, in any order. -/
inductive Filler : List Char → Prop where
  | nil : Filler []
  | blank {c rest} : Text.isBlank c = true → Filler rest → Filler (c :: rest)
  | comment {body rest} : (∀ c ∈ body, c ≠ '\n') → Filler rest →
      Filler ('/' :: '/' :: body ++ '\n' :: rest)

/-- What may stand between two tokens: a blank, and then anything that fills. -/
inductive Separator : List Char → Prop where
  | mk {c rest} : Text.isBlank c = true → Filler rest → Separator (c :: rest)

/-- The text behind a token on line `line`: the other tokens, each behind a
    separator that goes on to its line.  Behind the last one may stand what would
    separate it from another. -/
inductive WrittenBehind : Nat → List Token → List Char → Prop where
  | done {line} : WrittenBehind line [] []
  | rest {line gap} : Separator gap → WrittenBehind line [] gap
  | token {line gap spelling text kind tokens} : Separator gap → kind.Spells spelling →
      WrittenBehind (line + gap.count '\n') tokens text →
      WrittenBehind line (⟨kind, line + gap.count '\n'⟩ :: tokens) (gap ++ spelling ++ text)

/-- The text of a list of tokens: each is written on its line. -/
inductive Written : List Token → List Char → Prop where
  | none {gap} : Filler gap → Written [] gap
  | token {gap spelling text kind tokens} : Filler gap → kind.Spells spelling →
      WrittenBehind (1 + gap.count '\n') tokens text →
      Written (⟨kind, 1 + gap.count '\n'⟩ :: tokens) (gap ++ spelling ++ text)

variable {gap spelling text after : List Char} {kind : TokenKind} {tokens : List Token}
  {line : Nat}

/-! ## A spelling is a lexeme -/

/-- What follows a token is nothing or starts with a blank. -/
def Parted (after : List Char) : Prop := ∀ c ∈ after.head?, Text.isBlank c = true

/-- Where a blank stands, no word or number goes on. -/
theorem Parted.stops {p : Char → Bool} (h : Parted after)
    (hp : ∀ c, p c = true → isWordChar c = true) : ∀ c ∈ after.head?, p c = false := by
  intro c hc
  have hblank := h c hc
  by_contra hword
  rw [Bool.not_eq_false] at hword
  rw [isBlank_of_isWordChar (hp c hword)] at hblank
  cases hblank

/-- A word or a number ends where a blank stands. -/
theorem Parted.run {p : Char → Bool} (h : Parted after) (hp : ∀ c, p c = true → isWordChar c = true)
    (hne : spelling ≠ []) (hall : ∀ c ∈ spelling, p c = true) : Run p spelling after where
  nonempty := hne
  all := hall
  whole := h.stops hp

/-- No letter is a digit. -/
theorem not_isDigit_of_isAlpha {c : Char} (h : c.isAlpha = true) : c.isDigit = false := by
  rw [Bool.eq_false_iff]
  intro hd
  change (decide ('A'.val ≤ c.val ∧ c.val ≤ 'Z'.val) ||
    (decide ('a'.val ≤ c.val) && decide (c.val ≤ 'z'.val))) = true at h
  change (decide ('0'.val ≤ c.val) && decide (c.val ≤ '9'.val)) = true at hd
  simp only [Bool.or_eq_true, Bool.and_eq_true, decide_eq_true_eq] at h hd
  change (65 ≤ c.toNat ∧ c.toNat ≤ 90) ∨ (97 ≤ c.toNat ∧ c.toNat ≤ 122) at h
  change 48 ≤ c.toNat ∧ c.toNat ≤ 57 at hd
  omega

/-- The spelling of a symbol or a keyword is the one in the tables. -/
theorem mem_of_fixed? {s : String} (h : kind.fixed? = some s) :
    (s, kind) ∈ TokenKind.keywords ∨
      (∃ c d, s.toList = [c, d] ∧ ((c, d), kind) ∈ TokenKind.pairs) ∨
      ∃ c, s.toList = [c] ∧ (c, kind) ∈ TokenKind.singles := by
  cases kind with
  | num | ident => cases h
  | lessEqual | doubleEqual | notEqual =>
    cases h
    exact .inr (.inl ⟨_, _, rfl, by decide⟩)
  | plus | minus | star | slash | lessThan | equal | openParen | closeParen | openCurlyBrace
  | closeCurlyBrace | comma | semiColon | colon | dot =>
    cases h
    exact .inr (.inr ⟨_, rfl, by decide⟩)
  | cls | int | bool | nothing | true | false | cond | print | ret | new | and | not =>
    cases h
    exact .inl (by decide)

/-- The words in the table of keywords are spelled so. -/
theorem fixed?_of_mem {s : String} (h : (s, kind) ∈ TokenKind.keywords) :
    kind.fixed? = some s := by
  have hall : ∀ entry ∈ TokenKind.keywords, entry.2.fixed? = some entry.1 := by decide
  exact hall _ h

/-- Zeros in front of a number do not count. -/
theorem denoted_zeros (n zeros : Nat) :
    denoted (List.replicate zeros '0' ++ Nat.toDigits 10 n) = n := by
  have hzeros : ∀ k, decimalValue (List.replicate k '0') = 0 := by
    intro k
    induction k with
    | zero => rfl
    | succ k ih =>
      rw [List.replicate_succ]
      exact ih
  rw [← decimalValue_eq, decimalValue, List.foldl_append, ← decimalValue, hzeros]
  exact Nat.ofDigitChars_toDigits (by decide) (by decide)

/-- A name is a word. -/
theorem isWordChar_of_isName {name : String} {d : Char} (h : TokenKind.IsName name)
    (hd : d ∈ name.toList) : isWordChar d = true := by
  obtain ⟨c, rest, hname, hc, hrest⟩ := h
  rw [hname] at hd
  rcases List.mem_cons.mp hd with rfl | hd
  · rcases hc with hc | rfl
    · simp [isWordChar, Char.isAlphanum, hc]
    · rfl
  · rcases hrest d hd with hd | rfl
    · simp [isWordChar, hd]
    · rfl

/-- A symbol or a keyword is a lexeme before a blank. -/
theorem lexeme_fixed {s : String} (h : kind.fixed? = some s) (hafter : Parted after) :
    Lexeme kind s.toList after := by
  rcases mem_of_fixed? h with hword | ⟨c, d, hs, hpair⟩ | ⟨c, hs, hsingle⟩
  · have hall : ∀ entry ∈ TokenKind.keywords, entry.1.toList ≠ [] ∧
        entry.1.toList.all isWordChar = true ∧
        entry.1.toList.head?.all (fun c => !c.isDigit) = true := by decide
    obtain ⟨hne, hchars, hfirst⟩ := hall _ hword
    have hstart : ∀ c ∈ s.toList.head?, c.isDigit = false := fun c hc =>
      (Bool.not_eq_true' _).mp ((Option.all_eq_true _ _).mp hfirst c hc)
    have hrun := hafter.run (fun _ h => h) hne (List.all_eq_true.mp hchars)
    exact .keyword hrun hstart (by rwa [String.ofList_toList])
  · rw [hs]
    exact .pair hpair
  · rw [hs]
    refine .single hsingle ?_
    intro d hd
    have hblank := hafter d hd
    constructor
    · -- no symbol of two characters ends with a blank
      intro kind' hpair
      have hall : ∀ entry ∈ TokenKind.pairs, Text.isBlank entry.1.2 = false := by decide
      rw [hall _ hpair] at hblank
      cases hblank
    · rintro ⟨_, rfl⟩
      cases hblank

/-- So is a name that is no keyword. -/
theorem lexeme_ident {name : String} (h : TokenKind.IsName name)
    (hfixed : ∀ kind : TokenKind, kind.fixed? ≠ some name) (hafter : Parted after) :
    Lexeme (.ident name) name.toList after := by
  have hchars : ∀ d ∈ name.toList, isWordChar d = true := fun _ => isWordChar_of_isName h
  obtain ⟨c, rest, hname, hc, hrest⟩ := h
  have hstart : ∀ d ∈ name.toList.head?, d.isDigit = false := by
    rw [hname]
    rintro _ ⟨⟩
    rcases hc with hc | rfl
    · exact not_isDigit_of_isAlpha hc
    · rfl
  have hrun := hafter.run (fun _ h => h) (by simp [hname]) hchars
  have hlexeme := Lexeme.name hrun hstart (by
    intro kind hmem
    rw [String.ofList_toList] at hmem
    exact hfixed kind (fixed?_of_mem hmem))
  rwa [String.ofList_toList] at hlexeme

/-- So is a number that fits in a word. -/
theorem lexeme_num {n : Nat} (zeros : Nat) (h : n ≤ maxLiteral) (hafter : Parted after) :
    Lexeme (.num n) (List.replicate zeros '0' ++ Nat.toDigits 10 n) after := by
  have hdigits : ∀ c ∈ List.replicate zeros '0' ++ Nat.toDigits 10 n, c.isDigit = true := by
    intro c hc
    rcases List.mem_append.mp hc with hc | hc
    · rw [List.eq_of_mem_replicate hc]
      rfl
    · exact Nat.isDigit_of_mem_toDigits (by decide) (by decide) hc
  have hne : List.replicate zeros '0' ++ Nat.toDigits 10 n ≠ [] :=
    List.append_ne_nil_of_right_ne_nil _ Nat.toDigits_ne_nil
  have hrun := hafter.run (p := Char.isDigit) (by
    intro c hc
    simp [isWordChar, Char.isAlphanum, hc]) hne hdigits
  have hlexeme := Lexeme.literal hrun (by rwa [denoted_zeros])
  rwa [denoted_zeros] at hlexeme

/-- What spells a token is a lexeme before a blank. -/
theorem lexeme_of_spells (h : kind.Spells spelling) (hkind : kind.Writable)
    (hafter : Parted after) : Lexeme kind spelling after := by
  cases h with
  | fixed hs => exact lexeme_fixed hs hafter
  | ident => exact lexeme_ident hkind.1 hkind.2 hafter
  | @num n zeros =>
    have hfits : (n : Int) ≤ 2 ^ 31 - 1 := hkind.2
    exact lexeme_num zeros (by unfold maxLiteral; omega) hafter

/-! ## What fills is a gap -/

theorem Filler.isGap (h : Filler gap) (after : List Char) : Gap gap after := by
  induction h with
  | nil => exact .none
  | blank hblank _ ih => exact .blank hblank ih
  | comment hbody _ ih =>
    -- the line feed that ends the comment is a blank behind it
    apply Gap.comment hbody
    · rintro _ ⟨⟩
      rfl
    · exact .blank rfl ih

theorem Separator.isGap (h : Separator gap) (after : List Char) : Gap gap after := by
  cases h with
  | mk hblank hfiller => exact .blank hblank (hfiller.isGap after)

/-- What is written behind a token parts it from the next. -/
theorem WrittenBehind.parted (h : WrittenBehind line tokens text) : Parted text := by
  intro c hc
  cases h with
  | done => cases hc
  | rest hgap | token hgap _ _ =>
    cases hgap with
    | mk hblank _ =>
      cases hc
      exact hblank

/-! ## A written text is split -/

/-- The text behind a token is split into the other tokens. -/
theorem WrittenBehind.splits (h : WrittenBehind line tokens text)
    (hkinds : ∀ t ∈ tokens, t.kind.Writable) {before : List Char} (hline : lineBehind before = line) :
    Splits before text [] tokens := by
  induction h generalizing before with
  | done => exact .gap .none
  | rest hgap => exact .gap (hgap.isGap [])
  | @token line gap spelling text kind tokens hgap hspells hrest ih =>
    have hlexeme : Lexeme kind spelling (text ++ []) := by
      rw [List.append_nil]
      exact lexeme_of_spells hspells (hkinds _ List.mem_cons_self) hrest.parted
    have hhere : lineBehind (before ++ gap) = line + gap.count '\n' := by
      rw [lineBehind_append, hline]
    -- a lexeme has no line feed, so the text behind it goes on on its line
    rw [← hhere]
    refine .lexeme (hgap.isGap _) hlexeme (ih (fun t ht => hkinds t (List.mem_cons_of_mem _ ht)) ?_)
    rw [lineBehind_append, hlexeme.count_newline, Nat.add_zero, hhere]

/-- A written text is split into its tokens. -/
theorem Written.splits (h : Written tokens text) (hkinds : ∀ t ∈ tokens, t.kind.Writable) :
    Splits [] text [] tokens := by
  cases h with
  | none hgap => exact .gap (hgap.isGap [])
  | @token gap spelling text kind tokens hgap hspells hrest =>
    have hlexeme : Lexeme kind spelling (text ++ []) := by
      rw [List.append_nil]
      exact lexeme_of_spells hspells (hkinds _ List.mem_cons_self) hrest.parted
    have hsplits : Splits ([] ++ gap ++ spelling) text [] tokens := by
      apply hrest.splits fun t ht => hkinds t (List.mem_cons_of_mem _ ht)
      rw [List.nil_append, lineBehind_append, hlexeme.count_newline, Nat.add_zero]
      rfl
    exact .lexeme (hgap.isGap _) hlexeme hsplits

/-! ## Every list of tokens is written -/

/-- A token that is writable has a spelling. -/
theorem exists_spelling (h : kind.Writable) : ∃ spelling, kind.Spells spelling := by
  cases kind with
  | num value =>
    obtain ⟨n, rfl⟩ := Int.eq_ofNat_of_zero_le h.1
    exact ⟨_, .num 0⟩
  | ident name => exact ⟨_, .ident⟩
  | _ => exact ⟨_, .fixed rfl⟩

/-- Line feeds fill. -/
theorem filler_newlines (k : Nat) : Filler (List.replicate k '\n') := by
  induction k with
  | zero => exact .nil
  | succ k ih => exact .blank rfl ih

/-- The tokens behind a token can be written if their lines do not decrease. -/
theorem exists_writtenBehind (hkinds : ∀ t ∈ tokens, t.kind.Writable)
    (hlines : (line :: tokens.map Token.line).IsChain (· ≤ ·)) :
    ∃ text, WrittenBehind line tokens text := by
  induction tokens generalizing line with
  | nil => exact ⟨[], .done⟩
  | cons t tokens ih =>
    obtain ⟨kind, line'⟩ := t
    rw [List.map_cons, List.isChain_cons_cons] at hlines
    obtain ⟨spelling, hspells⟩ := exists_spelling (hkinds _ List.mem_cons_self)
    obtain ⟨text, htext⟩ := ih (fun t ht => hkinds t (List.mem_cons_of_mem _ ht)) hlines.2
    -- a space and as many line feeds as there are lines in between
    obtain ⟨k, rfl⟩ := Nat.exists_eq_add_of_le hlines.1
    have hcount : (' ' :: List.replicate k '\n').count '\n' = k := by simp
    have hrest : WrittenBehind (line + (' ' :: List.replicate k '\n').count '\n') tokens text := by
      rwa [hcount]
    have hwritten := WrittenBehind.token (.mk rfl (filler_newlines k)) hspells hrest
    rw [hcount] at hwritten
    exact ⟨_, hwritten⟩

/-- Tokens can be written if their lines do not decrease from the first line on. -/
theorem exists_written (hkinds : ∀ t ∈ tokens, t.kind.Writable)
    (hlines : (1 :: tokens.map Token.line).IsChain (· ≤ ·)) : ∃ text, Written tokens text := by
  cases tokens with
  | nil => exact ⟨[], .none .nil⟩
  | cons t tokens =>
    obtain ⟨kind, line'⟩ := t
    rw [List.map_cons, List.isChain_cons_cons] at hlines
    obtain ⟨spelling, hspells⟩ := exists_spelling (hkinds _ List.mem_cons_self)
    obtain ⟨text, htext⟩ := exists_writtenBehind
      (fun t ht => hkinds t (List.mem_cons_of_mem _ ht)) hlines.2
    obtain ⟨k, rfl⟩ := Nat.exists_eq_add_of_le hlines.1
    have hcount : (List.replicate k '\n').count '\n' = k := by simp
    have hwritten := Written.token (filler_newlines k) hspells (by rwa [hcount])
    rw [hcount] at hwritten
    exact ⟨_, hwritten⟩

/-- **Scanning undoes spelling**: tokens that have spellings, on lines that do not
    decrease, can be written, and however they are written, the scan gives them
    back with their lines. -/
theorem scan_written (tokens : List Token) (hkinds : ∀ t ∈ tokens, t.kind.Writable)
    (hlines : (1 :: tokens.map Token.line).IsChain (· ≤ ·)) :
    (∃ source : String, Written tokens source.toList) ∧
      ∀ source : String, Written tokens source.toList → scan source = .ok tokens := by
  constructor
  · obtain ⟨text, htext⟩ := exists_written hkinds hlines
    exact ⟨String.ofList text, by rwa [String.toList_ofList]⟩
  · intro source h
    exact scan_of_splits (h.splits hkinds)

/-- Numbers with and without zeros in front, a name and symbols on four lines,
    behind comments with quotes, slashes and a letter that is not ASCII. -/
theorem scan_written_sample :
    scan "// \"é\" //+\n 007\t// <= //\n\n<= x_1 / / 2147483647 " =
      .ok [⟨.num 7, 2⟩, ⟨.lessEqual, 4⟩, ⟨.ident "x_1", 4⟩, ⟨.slash, 4⟩, ⟨.slash, 4⟩,
        ⟨.num 2147483647, 4⟩] := by
  have hspace : Separator [' '] := .mk rfl .nil
  have hfirst : Filler "// \"é\" //+\n ".toList :=
    Filler.comment (show ∀ c ∈ " \"é\" //+".toList, c ≠ '\n' by simp) (.blank rfl .nil)
  have hsecond : Separator "\t// <= //\n\n".toList :=
    .mk rfl (Filler.comment (show ∀ c ∈ " <= //".toList, c ≠ '\n' by simp) (.blank rfl .nil))
  have hle : TokenKind.lessEqual.Spells "<=".toList := .fixed rfl
  have hname : (TokenKind.ident "x_1").Spells "x_1".toList := .ident
  have hslash : TokenKind.slash.Spells "/".toList := .fixed rfl
  have hwritten := Written.token hfirst (.num (n := 7) 2) (.token hsecond hle
    (.token hspace hname (.token hspace hslash (.token hspace hslash
      (.token hspace (.num (n := 2147483647) 0) (.rest hspace))))))
  have hwords : TokenKind.Writable (.ident "x_1") := by
    refine ⟨⟨'x', ['_', '1'], by decide, by decide, by simp⟩, ?_⟩
    intro kind h
    cases kind with
    | num | ident => cases h
    | _ => exact absurd h (by decide)
  refine (scan_written _ ?_ (by decide)).2 _ ?_
  · intro t ht
    simp only [List.mem_cons, List.not_mem_nil, or_false] at ht
    rcases ht with rfl | rfl | rfl | rfl | rfl | rfl
    · exact ⟨by decide, by decide⟩
    · trivial
    · exact hwords
    · trivial
    · trivial
    · exact ⟨by decide, by decide⟩
  · convert hwritten using 1
    · decide
    · decide

end Token

end ClassLang
