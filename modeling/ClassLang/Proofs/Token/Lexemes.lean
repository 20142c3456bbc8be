import Mathlib.Data.List.Induction
import Mathlib.Data.List.TakeWhile
import Mathlib.Data.Nat.Digits.Defs
import ClassLang.Token.Scan

/-! # What a lexeme is

    The lexical grammar without a scanner: which spellings are lexemes, given
    the text that follows them.

    * **`Run`** is a whole run of characters of one class, one that what
      follows does not continue.
    * **`Lexeme`** says of a spelling, before the text `after`, which token it
      is: a whole word, a whole run of digits that fits in a word, or the
      longest symbol that starts here.
    * **`lexeme_sound`** and **`Lexeme.meets`**: `Token.lexeme` reads exactly
      these lexemes. -/

namespace ClassLang.Token

/-! ## Runs -/

/-- A whole run: characters of one class, as many as there are. -/
structure Run (p : Char → Bool) (run after : List Char) : Prop where
  nonempty : run ≠ []
  all : ∀ c ∈ run, p c = true
  whole : ∀ c ∈ after.head?, p c = false

section Runs

variable {p : Char → Bool} {c : Char} {run after : List Char}

/-- What follows characters of a class stops there, if it does not go on in it. -/
theorem dropWhile_append_whole (hall : ∀ c ∈ run, p c = true)
    (hwhole : ∀ c ∈ after.head?, p c = false) : (run ++ after).dropWhile p = after := by
  rw [List.dropWhile_append_of_pos hall]
  cases after with
  | nil => rfl
  | cons d after => exact List.dropWhile_cons_of_neg (by simp [hwhole d rfl])

/-- A text can be cut in one way where characters of a class stop. -/
theorem append_whole_inj {run' after' : List Char} (hall : ∀ c ∈ run, p c = true)
    (hall' : ∀ c ∈ run', p c = true) (hwhole : ∀ c ∈ after.head?, p c = false)
    (hwhole' : ∀ c ∈ after'.head?, p c = false) (h : run ++ after = run' ++ after') :
    run = run' ∧ after = after' := by
  have hafter : after = after' := by
    rw [← dropWhile_append_whole hall hwhole, h, dropWhile_append_whole hall' hwhole']
  subst hafter
  exact ⟨List.append_cancel_right h, rfl⟩

/-- Taking characters of a class takes a whole run and no more. -/
theorem Run.takeWhile_eq (h : Run p run after) : (run ++ after).takeWhile p = run := by
  have hsplit := List.takeWhile_append_dropWhile (p := p) (l := run ++ after)
  rw [dropWhile_append_whole h.all h.whole] at hsplit
  exact List.append_cancel_right hsplit

/-- A run starts wherever a character of the class stands. -/
theorem run_takeWhile (hc : p c = true) (rest : List Char) :
    Run p (c :: rest.takeWhile p) (rest.dropWhile p) where
  nonempty := List.cons_ne_nil _ _
  all d hd := by
    rcases List.mem_cons.1 hd with rfl | hd
    · exact hc
    · exact List.mem_takeWhile_imp hd
  whole d hd := by
    have := List.head?_dropWhile_not p rest
    rw [Option.mem_def.1 hd] at this
    simpa using this

/-- The characters of a run that starts with `c`. -/
theorem Run.cons (h : Run p (c :: run) after) :
    p c = true ∧ (run ++ after).takeWhile p = run ∧ (run ++ after).dropWhile p = after := by
  have hc := h.all c (List.mem_cons_self ..)
  have htake := h.takeWhile_eq
  rw [List.cons_append, List.takeWhile_cons_of_pos hc] at htake
  exact ⟨hc, (List.cons.inj htake).2,
    dropWhile_append_whole (fun d hd => h.all d (List.mem_cons_of_mem _ hd)) h.whole⟩

end Runs

/-! ## Lexemes -/

/-- The number that a run of decimal digits denotes, the last digit counting
    ones. -/
def denoted (digits : List Char) : Nat :=
  Nat.ofDigits 10 (digits.reverse.map fun d => d.toNat - '0'.toNat)

/-- Summing digits from the left is summing them by their places. -/
theorem decimalValue_eq (digits : List Char) : decimalValue digits = denoted digits := by
  induction digits using List.reverseRecOn with
  | nil => rfl
  | append_singleton digits d ih =>
    rw [decimalValue, List.foldl_append, ← decimalValue, ih]
    simp [denoted, Nat.ofDigits_cons, Nat.add_comm]

/-- `Lexeme kind spelling after`: before the text `after`, the spelling is a
    lexeme, and the token `kind`. -/
inductive Lexeme : TokenKind → List Char → List Char → Prop where
  /-- A whole word that is a keyword. -/
  | keyword {word after kind} :
      Run isWordChar word after → (∀ c ∈ word.head?, c.isDigit = false) →
      (String.ofList word, kind) ∈ TokenKind.keywords →
      Lexeme kind word after
  /-- Any other whole word. -/
  | name {word after} :
      Run isWordChar word after → (∀ c ∈ word.head?, c.isDigit = false) →
      (∀ kind, (String.ofList word, kind) ∉ TokenKind.keywords) →
      Lexeme (.ident (String.ofList word)) word after
  /-- A whole run of digits that fits in a word. -/
  | literal {digits after} :
      Run Char.isDigit digits after → denoted digits ≤ maxLiteral →
      Lexeme (.num (denoted digits)) digits after
  /-- A symbol of two characters. -/
  | pair {c d after kind} :
      ((c, d), kind) ∈ TokenKind.pairs → Lexeme kind [c, d] after
  /-- A symbol of one character, where it neither starts a longer symbol nor
      a comment. -/
  | single {c after kind} :
      (c, kind) ∈ TokenKind.singles →
      (∀ d ∈ after.head?, (∀ kind', ((c, d), kind') ∉ TokenKind.pairs) ∧ ¬ (c = '/' ∧ d = '/')) →
      Lexeme kind [c] after

/-! ## Spellings are found by look-up -/

/-- Where no key is listed twice, looking one up finds what is listed. -/
theorem lookup_eq_some_iff_mem {α β : Type} [BEq α] [LawfulBEq α] {entries : List (α × β)}
    {key : α} {found : β} (h : (entries.map Prod.fst).Nodup) :
    entries.lookup key = some found ↔ (key, found) ∈ entries := by
  induction entries with
  | nil => simp
  | cons entry entries ih =>
    obtain ⟨key', found'⟩ := entry
    obtain ⟨hnew, hnodup⟩ := List.nodup_cons.1 h
    by_cases hkey : key = key'
    · subst hkey
      have hfresh : (key, found) ∉ entries := fun hmem =>
        hnew (List.mem_map.2 ⟨_, hmem, rfl⟩)
      simp [hfresh, eq_comm]
    · rw [List.lookup_cons, beq_false_of_ne hkey, ih hnodup]
      simp [hkey]

theorem keywords_nodup : (TokenKind.keywords.map Prod.fst).Nodup := by decide

theorem pairs_nodup : (TokenKind.pairs.map Prod.fst).Nodup := by decide

theorem singles_nodup : (TokenKind.singles.map Prod.fst).Nodup := by decide

/-- A word is the keyword it spells, and a name if it spells none. -/
theorem lexeme_ofWord {word after : List Char} (hrun : Run isWordChar word after)
    (hstart : ∀ c ∈ word.head?, c.isDigit = false) :
    Lexeme (.ofWord (String.ofList word)) word after := by
  unfold TokenKind.ofWord
  cases hfound : TokenKind.keywords.lookup (String.ofList word) with
  | some kind => exact .keyword hrun hstart ((lookup_eq_some_iff_mem keywords_nodup).1 hfound)
  | none =>
    refine .name hrun hstart fun kind hmem => ?_
    rw [(lookup_eq_some_iff_mem keywords_nodup).2 hmem] at hfound
    cases hfound

/-! ## The scanner's lexemes -/

section Agreement

variable {c : Char} {rest after spelling : List Char} {kind : TokenKind}

/-- Reading a symbol finds the longest one that starts here. -/
theorem symbol?_sound (hcomment : startsComment c rest = false)
    (h : symbol? c rest = some (kind, after)) :
    ∃ spelling, c :: rest = spelling ++ after ∧ Lexeme kind spelling after := by
  unfold symbol? at h
  cases rest with
  | nil =>
    obtain ⟨kind', hfound, heq⟩ := Option.map_eq_some_iff.1 h
    cases heq
    exact ⟨[c], rfl, .single ((lookup_eq_some_iff_mem singles_nodup).1 hfound) (by simp)⟩
  | cons d rest =>
    cases hpair : TokenKind.pairs.lookup (c, d) with
    | some kind' =>
      simp only [hpair, Option.some.injEq, Prod.mk.injEq] at h
      obtain ⟨rfl, rfl⟩ := h
      exact ⟨[c, d], rfl, .pair ((lookup_eq_some_iff_mem pairs_nodup).1 hpair)⟩
    | none =>
      simp only [hpair] at h
      obtain ⟨kind', hfound, heq⟩ := Option.map_eq_some_iff.1 h
      cases heq
      refine ⟨[c], rfl, .single ((lookup_eq_some_iff_mem singles_nodup).1 hfound) ?_⟩
      rintro _ ⟨⟩
      refine ⟨fun kind'' hmem => ?_, ?_⟩
      · rw [(lookup_eq_some_iff_mem pairs_nodup).2 hmem] at hpair
        cases hpair
      · rintro ⟨rfl, rfl⟩
        simp [startsComment] at hcomment

/-- What the scanner takes for a lexeme is one. -/
theorem lexeme_sound (hcomment : startsComment c rest = false)
    (h : lexeme c rest = .ok (kind, after)) :
    ∃ spelling, c :: rest = spelling ++ after ∧ Lexeme kind spelling after := by
  unfold lexeme at h
  by_cases hdigit : c.isDigit = true
  · simp only [hdigit, if_true, number, decimalValue_eq] at h
    have hrun := run_takeWhile hdigit rest
    split at h
    · next hfits =>
      simp only [Except.map, Except.ok.injEq, Prod.mk.injEq] at h
      obtain ⟨rfl, rfl⟩ := h
      exact ⟨_, by simp, .literal hrun hfits⟩
    · cases h
  · rw [Bool.not_eq_true] at hdigit
    by_cases hstart : isWordStart c = true
    · simp only [hdigit, Bool.false_eq_true, if_false, hstart, if_true, Except.ok.injEq,
        Prod.mk.injEq] at h
      obtain ⟨rfl, rfl⟩ := h
      have hc : isWordChar c = true := by
        simp_all [isWordStart, isWordChar, Char.isAlphanum]
      exact ⟨_, by simp, lexeme_ofWord (run_takeWhile hc rest) (by simpa using hdigit)⟩
    · simp only [hdigit, Bool.false_eq_true, if_false, hstart] at h
      split at h
      · next found hfound =>
        cases h
        exact symbol?_sound hcomment hfound
      · cases h

/-- A character of a word is no blank. -/
theorem isBlank_of_isWordChar (h : isWordChar c = true) : Text.isBlank c = false := by
  change (((decide ('A'.val ≤ c.val ∧ c.val ≤ 'Z'.val) ||
    (decide ('a'.val ≤ c.val) && decide (c.val ≤ 'z'.val))) ||
    (decide ('0'.val ≤ c.val) && decide (c.val ≤ '9'.val))) || c == '_') = true at h
  simp only [Bool.or_eq_true, Bool.and_eq_true, decide_eq_true_eq, beq_iff_eq] at h
  change (((65 ≤ c.toNat ∧ c.toNat ≤ 90) ∨ (97 ≤ c.toNat ∧ c.toNat ≤ 122)) ∨
    (48 ≤ c.toNat ∧ c.toNat ≤ 57)) ∨ c = '_' at h
  rcases h with h | rfl
  · rw [Bool.eq_false_iff]
    intro hblank
    simp only [Text.isBlank, Bool.or_eq_true, Bool.and_eq_true, decide_eq_true_eq,
      beq_iff_eq] at hblank
    omega
  · rfl

/-- No digit, no letter and no blank: what a symbol starts with. -/
def Symbolic (c : Char) : Prop :=
  c.isDigit = false ∧ isWordStart c = false ∧ Text.isBlank c = false

instance (c : Char) : Decidable (Symbolic c) := inferInstanceAs (Decidable (_ ∧ _))

theorem symbolic_single (h : (c, kind) ∈ TokenKind.singles) : Symbolic c := by
  have hall : ∀ entry ∈ TokenKind.singles, Symbolic entry.1 := by decide
  exact hall _ h

theorem symbolic_pair {d : Char} (h : ((c, d), kind) ∈ TokenKind.pairs) : Symbolic c := by
  have hall : ∀ entry ∈ TokenKind.pairs, Symbolic entry.1.1 := by decide
  exact hall _ h

/-- A symbol of two characters is read whole. -/
theorem symbol?_pair {d : Char} (h : ((c, d), kind) ∈ TokenKind.pairs) :
    symbol? c (d :: after) = some (kind, after) := by
  simp only [symbol?, (lookup_eq_some_iff_mem pairs_nodup).2 h]

/-- A symbol of one character is read where no longer one starts. -/
theorem symbol?_single (h : (c, kind) ∈ TokenKind.singles)
    (hpair : ∀ d ∈ after.head?, ∀ kind', ((c, d), kind') ∉ TokenKind.pairs) :
    symbol? c after = some (kind, after) := by
  have hfound := (lookup_eq_some_iff_mem singles_nodup).2 h
  unfold symbol?
  cases after with
  | nil => simp [hfound]
  | cons d after =>
    cases hlook : TokenKind.pairs.lookup (c, d) with
    | some kind' =>
      exact absurd ((lookup_eq_some_iff_mem pairs_nodup).1 hlook) (hpair d rfl kind')
    | none => simp [hlook, hfound]

/-- At the head of a text stand neither a blank nor a comment, and there the
    scanner meets `outcome`: a lexeme with what follows it, or none. -/
def Meets (text : List Char) (outcome : Except ScanCause (TokenKind × List Char)) : Prop :=
  ∃ c rest, text = c :: rest ∧ Text.isBlank c = false ∧ startsComment c rest = false ∧
    lexeme c rest = outcome

/-- A scanner meets one thing only. -/
theorem Meets.unique {text : List Char} {outcome outcome' : Except ScanCause (TokenKind × List Char)}
    (h : Meets text outcome) (h' : Meets text outcome') : outcome = outcome' := by
  obtain ⟨c, rest, rfl, -, -, rfl⟩ := h
  obtain ⟨_, _, heq, -, -, rfl⟩ := h'
  cases heq
  rfl

/-- Only a slash starts a comment. -/
theorem startsComment_of_ne (h : c ≠ '/') : startsComment c rest = false := by
  rw [startsComment, beq_false_of_ne h, Bool.false_and]

theorem meets_word (hrun : Run isWordChar spelling after)
    (hstart : ∀ c ∈ spelling.head?, c.isDigit = false) :
    Meets (spelling ++ after) (.ok (.ofWord (String.ofList spelling), after)) := by
  obtain ⟨c, word, rfl⟩ := List.exists_cons_of_ne_nil hrun.nonempty
  obtain ⟨hc, htake, hdrop⟩ := hrun.cons
  have hdigit : c.isDigit = false := hstart c rfl
  have hletter : isWordStart c = true := by
    simpa [isWordChar, isWordStart, Char.isAlphanum, hdigit] using hc
  refine ⟨c, word ++ after, rfl, isBlank_of_isWordChar hc, startsComment_of_ne ?_, ?_⟩
  · rintro rfl
    cases hc
  · simp only [lexeme, hdigit, hletter, htake, hdrop, Bool.false_eq_true, if_false, if_true]

theorem meets_digits (hrun : Run Char.isDigit spelling after) :
    Meets (spelling ++ after) ((number spelling).map (·, after)) := by
  obtain ⟨c, digits, rfl⟩ := List.exists_cons_of_ne_nil hrun.nonempty
  obtain ⟨hc, htake, hdrop⟩ := hrun.cons
  refine ⟨c, digits ++ after, rfl, isBlank_of_isWordChar ?_, startsComment_of_ne ?_, ?_⟩
  · simp [isWordChar, Char.isAlphanum, hc]
  · rintro rfl
    cases hc
  · simp only [lexeme, hc, htake, hdrop, if_true]

theorem meets_pair {d : Char} (h : ((c, d), kind) ∈ TokenKind.pairs) :
    Meets (c :: d :: after) (.ok (kind, after)) := by
  obtain ⟨hdigit, hletter, hblank⟩ := symbolic_pair h
  have hslash : ∀ entry ∈ TokenKind.pairs, entry.1.1 ≠ '/' := by decide
  refine ⟨c, d :: after, rfl, hblank, startsComment_of_ne (hslash _ h), ?_⟩
  simp only [lexeme, hdigit, hletter, Bool.false_eq_true, if_false, symbol?_pair h]

theorem meets_single (h : (c, kind) ∈ TokenKind.singles)
    (hlongest : ∀ d ∈ after.head?,
      (∀ kind', ((c, d), kind') ∉ TokenKind.pairs) ∧ ¬ (c = '/' ∧ d = '/')) :
    Meets (c :: after) (.ok (kind, after)) := by
  obtain ⟨hdigit, hletter, hblank⟩ := symbolic_single h
  refine ⟨c, after, rfl, hblank, ?_, ?_⟩
  · cases after with
    | nil => simp [startsComment]
    | cons d after => simpa [startsComment] using (hlongest d rfl).2
  · simp only [lexeme, hdigit, hletter, Bool.false_eq_true, if_false,
      symbol?_single h fun d hd => (hlongest d hd).1]

/-- Every lexeme is read as the token it is. -/
theorem Lexeme.meets (h : Lexeme kind spelling after) :
    Meets (spelling ++ after) (.ok (kind, after)) := by
  cases h with
  | keyword hrun hstart hmem =>
    have hmeets := meets_word hrun hstart
    rwa [TokenKind.ofWord, (lookup_eq_some_iff_mem keywords_nodup).2 hmem,
      Option.getD_some] at hmeets
  | name hrun hstart hnone =>
    have hmeets := meets_word hrun hstart
    rwa [TokenKind.ofWord, Option.eq_none_iff_forall_ne_some.2 fun kind hkind =>
      hnone kind ((lookup_eq_some_iff_mem keywords_nodup).1 hkind), Option.getD_none] at hmeets
  | literal hrun hfits =>
    have hmeets := meets_digits hrun
    rwa [number, decimalValue_eq, if_pos hfits] at hmeets
  | pair hmem => exact meets_pair hmem
  | single hmem hlongest => exact meets_single hmem hlongest

end Agreement

end ClassLang.Token
