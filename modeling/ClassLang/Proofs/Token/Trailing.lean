import ClassLang.Compile
import ClassLang.Proofs.Token.Spelling
import Mathlib

/-! # The end of a text

    * **`Token.scanFrom_append_blanks`**, **`Program.analyzeLogged_append_blanks`**:
      blanks at the end of a text do not matter, not even behind a comment or
      an error.
    * **`FewLines`**: the lines of a text can be counted in a word of 32 bits.
    * **`CountsLines`**, **`FewLines.counts`**: then so can all lines of which
      the scan tells. -/

namespace ClassLang

namespace Token

variable {p : Char → Bool} {c : Char} {line : Nat} {cs rest blanks : List Char}

/-! ## Blanks behind a lexeme -/

/-- In front of blanks, characters of words are taken as at the end of the
    text. -/
theorem Parted.cut (h : Parted blanks) (hp : ∀ c, p c = true → isWordChar c = true)
    (rest : List Char) :
    (rest ++ blanks).takeWhile p = rest.takeWhile p ∧
      (rest ++ blanks).dropWhile p = rest.dropWhile p ++ blanks := by
  have hstop := h.stops hp
  induction rest with
  | nil =>
    cases blanks with
    | nil => exact ⟨rfl, rfl⟩
    | cons b blanks => simp [hstop b rfl]
  | cons c rest ih =>
    by_cases hc : p c = true
    · simp [hc, ih]
    · simp [hc]

/-- No symbol goes on with a blank. -/
theorem Parted.lookup_pairs {d : Char} (h : Parted blanks) (hd : d ∈ blanks.head?) :
    TokenKind.pairs.lookup (c, d) = none := by
  have hall : ∀ entry ∈ TokenKind.pairs, Text.isBlank entry.1.2 = false := by decide
  rw [Option.eq_none_iff_forall_ne_some]
  intro kind hfound
  have hpair := hall _ ((lookup_eq_some_iff_mem pairs_nodup).mp hfound)
  rw [h d hd] at hpair
  cases hpair

theorem Parted.symbol?_append (h : Parted blanks) (c : Char) (rest : List Char) :
    symbol? c (rest ++ blanks) =
      (symbol? c rest).map fun (kind, after) => (kind, after ++ blanks) := by
  cases rest with
  | nil =>
    cases blanks with
    | nil => simp
    | cons d blanks =>
      -- the first blank is looked at, and is no part of a symbol
      have hnone := h.lookup_pairs (c := c) (d := d) rfl
      simp only [List.nil_append, symbol?, hnone, Option.map_map]
      rfl
  | cons d rest =>
    simp only [List.cons_append, symbol?]
    cases TokenKind.pairs.lookup (c, d) with
    | some kind => rfl
    | none => rw [Option.map_map]; rfl

/-- A lexeme is the same in front of blanks and at the end of the text. -/
theorem Parted.lexeme_append (h : Parted blanks) (c : Char) (rest : List Char) :
    lexeme c (rest ++ blanks) =
      (lexeme c rest).map fun (kind, after) => (kind, after ++ blanks) := by
  have hdigit : ∀ c : Char, c.isDigit = true → isWordChar c = true := fun c hc => by
    simp [isWordChar, Char.isAlphanum, hc]
  obtain ⟨htake, hdrop⟩ := h.cut hdigit rest
  obtain ⟨htake', hdrop'⟩ := h.cut (fun _ hc => hc) rest
  unfold lexeme
  rw [htake, hdrop, htake', hdrop', h.symbol?_append]
  -- digits, a word, a symbol
  split
  · cases number (c :: rest.takeWhile Char.isDigit) <;> rfl
  · split
    · rfl
    · cases symbol? c rest <;> rfl

/-- No comment starts with a blank. -/
theorem Parted.startsComment_append (h : Parted blanks) (c : Char) (rest : List Char) :
    startsComment c (rest ++ blanks) = startsComment c rest := by
  unfold startsComment
  cases rest with
  | cons d rest => rfl
  | nil =>
    cases blanks with
    | nil => rfl
    | cons b blanks =>
      have hslash : b ≠ '/' := by
        rintro rfl
        cases h '/' rfl
      simp [hslash]

/-- What the scanner meets at the head of a text does not depend on blanks
    behind it. -/
theorem Parted.meets_append {outcome : Except ScanCause (TokenKind × List Char)}
    (h : Parted blanks) (hmeets : Meets cs outcome) :
    Meets (cs ++ blanks) (outcome.map fun (kind, after) => (kind, after ++ blanks)) := by
  obtain ⟨c, rest, rfl, hblank, hcomment, rfl⟩ := hmeets
  exact ⟨c, rest ++ blanks, rfl, hblank, (h.startsComment_append c rest).trans hcomment,
    h.lexeme_append c rest⟩

/-! ## Blanks behind a text -/

theorem scanFrom_blanks (h : ∀ b ∈ blanks, Text.isBlank b = true) :
    scanFrom line blanks = .ok [] := by
  induction blanks generalizing line with
  | nil => rw [scanFrom]
  | cons b blanks ih =>
    have hblank := h b List.mem_cons_self
    have hrest : ∀ line, scanFrom line blanks = .ok [] :=
      fun line => ih fun d hd => h d (List.mem_cons_of_mem _ hd)
    rw [scanFrom, if_pos hblank, hrest, hrest, ite_self]

/-- Behind a comment the text goes on as before, or there are blanks only. -/
theorem afterComment_append (rest blanks : List Char) :
    afterComment (rest ++ blanks) = afterComment rest ++ blanks ∨
      afterComment rest = [] ∧ afterComment (rest ++ blanks) <:+ blanks := by
  by_cases h : afterComment rest = []
  · have hall : ∀ c ∈ rest, (c != '\n') = true := List.dropWhile_eq_nil_iff.mp h
    refine .inr ⟨h, ?_⟩
    unfold afterComment
    rw [List.dropWhile_append_of_pos hall]
    exact List.dropWhile_suffix _
  · left
    unfold afterComment at h ⊢
    rw [List.dropWhile_append, if_neg (by simpa using h)]

/-- Blanks at the end of a text do not change what is scanned. -/
theorem scanFrom_append_blanks (h : ∀ b ∈ blanks, Text.isBlank b = true) :
    scanFrom line (cs ++ blanks) = scanFrom line cs := by
  have hparted : Parted blanks := fun b hb => h b (List.mem_of_mem_head? hb)
  induction line, cs using scanFrom.induct with
  | case1 line => rw [List.nil_append, scanFrom_blanks h, scanFrom]
  | case2 line rest ih => rw [List.cons_append, scanFrom, if_pos rfl, ih, scanFrom, if_pos rfl]
  | case3 line c rest hnewline hblank ih =>
    rw [List.cons_append, scanFrom, if_neg hnewline, if_pos hblank, ih, scanFrom, if_neg hnewline,
      if_pos hblank]
  | case4 line c rest hnewline hblank hcomment ih =>
    rw [List.cons_append, scanFrom, if_neg hnewline, if_neg hblank,
      hparted.startsComment_append, if_pos hcomment, scanFrom, if_neg hnewline, if_neg hblank,
      if_pos hcomment]
    -- the comment ends in the text, or goes on into the blanks
    rcases afterComment_append rest blanks with hafter | ⟨hend, hsuffix⟩
    · rw [hafter, ih]
    · rw [hend, scanFrom_blanks fun b hb => h b (hsuffix.mem hb), scanFrom]
  | case5 line c rest _ hblank hcomment cause hlexeme =>
    have hmeets : Meets (c :: rest) (.error cause) :=
      ⟨c, rest, rfl, Bool.eq_false_iff.2 hblank, Bool.eq_false_iff.2 hcomment, hlexeme⟩
    rw [hmeets.scanFrom_error, (hparted.meets_append hmeets).scanFrom_error]
  | case6 line c rest _ hblank hcomment kind after hlexeme ih =>
    have hmeets : Meets (c :: rest) (.ok (kind, after)) :=
      ⟨c, rest, rfl, Bool.eq_false_iff.2 hblank, Bool.eq_false_iff.2 hcomment, hlexeme⟩
    rw [hmeets.scanFrom_ok, (hparted.meets_append hmeets).scanFrom_ok, ih]

theorem scan_append_blanks {source text : String} (htext : text.toList = source.toList ++ blanks)
    (h : ∀ b ∈ blanks, Text.isBlank b = true) : scan text = scan source := by
  rw [scan, htext, scanFrom_append_blanks h, scan]

/-! ## Counting lines -/

/-- No token of a splitting stands behind the last line. -/
theorem Splits.line_le {before text after : List Char} {tokens : List Token}
    (h : Splits before text after tokens) :
    ∀ t ∈ tokens, t.line ≤ lineBehind (before ++ text) := by
  induction h with
  | gap => simp
  | @lexeme before gap spelling text _ _ _ _ _ _ ih =>
    intro t hmem
    simp only [List.append_assoc] at ih ⊢
    rcases List.mem_cons.mp hmem with rfl | hmem
    · rw [← List.append_assoc before]
      exact (Nat.le_add_right _ _).trans_eq lineBehind_append.symm
    · exact ih t hmem

/-- The number of every line of which the scan of a text tells is a word of 32
    bits. -/
structure CountsLines (source : String) : Prop where
  tokens : ∀ tokens, scan source = .ok tokens → ∀ t ∈ tokens, t.line < 2 ^ 32
  error : ∀ e, scan source = .error e → e.line < 2 ^ 32

end Token

/-- The number of the last line of the text is a word of 32 bits. -/
def FewLines (source : String) : Prop := Token.lineBehind source.toList < 2 ^ 32

/-- Where the last line has a number, all lines have. -/
theorem FewLines.counts {source : String} (h : FewLines source) : Token.CountsLines source where
  tokens tokens hscan t hmem :=
    Nat.lt_of_le_of_lt ((Token.splits_of_scan hscan).line_le t hmem) h
  error e hscan := by
    obtain ⟨before, rest, -, htext, -, -, hline⟩ := Token.obstacle_of_scan hscan
    have hle : e.line ≤ Token.lineBehind source.toList := by
      rw [htext, Token.lineBehind_append, hline]
      exact Nat.le_add_right _ _
    exact Nat.lt_of_le_of_lt hle h

/-- A text has no more lines than bytes. -/
theorem FewLines.of_size {source : String} (h : source.utf8ByteSize < 2 ^ 32 - 1) :
    FewLines source := by
  have hlength : source.toList.length ≤ source.utf8ByteSize := by
    rw [← String.utf8Len_toList]
    induction source.toList with
    | nil => simp
    | cons c cs ih =>
      have hpos := c.utf8Size_pos
      simp only [List.length_cons, String.utf8Len_cons]
      omega
  have hcount : source.toList.count '\n' ≤ source.toList.length := List.count_le_length
  unfold FewLines Token.lineBehind
  omega

/-! ## The whole analysis -/

namespace Program

variable {source text : String} {blanks : List Char}

/-- Blanks at the end of a text change nothing that comes of it. -/
theorem analyzeLogged_append_blanks (htext : text.toList = source.toList ++ blanks)
    (h : ∀ b ∈ blanks, Text.isBlank b = true) : analyzeLogged text = analyzeLogged source := by
  have hsource : ofSource text = ofSource source := by
    rw [ofSource, Token.scan_append_blanks htext h, ofSource]
  rw [analyzeLogged, hsource, analyzeLogged]

end Program

end ClassLang
