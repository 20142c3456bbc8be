import ClassLang.Proofs.Token.Lexemes

/-! # The scan splits a text into gaps and lexemes

    * **`Gap`** is what may stand between lexemes: blanks, and comments up to
      the end of their line.
    * **`Splits`** reads a text as gap, lexeme, gap, …, lexeme, gap and gives
      its tokens; the line of each is one more than the line feeds before it.
    * **`Obstacle`** is a text that neither a gap nor a lexeme starts, or that
      starts with digits for too large a number.
    * **`scan_splits`**: the tokens of a text are those of its splitting; a
      text without one is split up to its only obstacle, which is reported. -/

namespace ClassLang.Token

/-! ## Gaps -/

/-- `Gap gap after`: before the text `after`, `gap` separates lexemes. -/
inductive Gap : List Char → List Char → Prop where
  | none {after} : Gap [] after
  | blank {c gap after} : Text.isBlank c = true → Gap gap after → Gap (c :: gap) after
  /-- A comment reaches up to the next line feed, or to the end. -/
  | comment {body gap after} :
      (∀ c ∈ body, c ≠ '\n') → (∀ c ∈ (gap ++ after).head?, c = '\n') →
      Gap gap after → Gap ('/' :: '/' :: body ++ gap) after

/-- The line of what stands behind `before`. -/
def lineBehind (before : List Char) : Nat := 1 + before.count '\n'

/-! ## Splittings -/

/-- `Splits before text after tokens`: between `before` and `after`, the text
    is gap, lexeme, gap, …, lexeme, gap, and the lexemes are these tokens. -/
inductive Splits : List Char → List Char → List Char → List Token → Prop where
  | gap {before gap after} : Gap gap after → Splits before gap after []
  | lexeme {before gap spelling text after kind tokens} :
      Gap gap (spelling ++ (text ++ after)) →
      Lexeme kind spelling (text ++ after) →
      Splits (before ++ gap ++ spelling) text after tokens →
      Splits before (gap ++ spelling ++ text) after
        (⟨kind, lineBehind (before ++ gap)⟩ :: tokens)

/-- A text at which a scan must stop, and why. -/
inductive Obstacle : List Char → ScanCause → Prop where
  /-- Neither a gap nor a lexeme starts here, nor does a run of digits. -/
  | unexpected {c rest} :
      (∀ gap after, c :: rest = gap ++ after → Gap gap after → gap = []) →
      (∀ kind spelling after, c :: rest = spelling ++ after → ¬ Lexeme kind spelling after) →
      c.isDigit = false →
      Obstacle (c :: rest) (.unexpected c)
  /-- The number that a whole run of digits denotes does not fit. -/
  | tooLarge {digits after} :
      Run Char.isDigit digits after → maxLiteral < denoted digits →
      Obstacle (digits ++ after) (.tooLarge (String.ofList digits))

/-! ## What the scan does at a gap, a lexeme, an obstacle -/

section Steps

variable {before gap spelling text after rest rest' : List Char} {kind : TokenKind}
  {cause : ScanCause} {tokens : List Token} {line : Nat} {c : Char}

/-- What stands behind a piece of text stands on a line as many further as the
    piece has line feeds. -/
theorem lineBehind_append : lineBehind (before ++ text) = lineBehind before + text.count '\n' := by
  rw [lineBehind, List.count_append, lineBehind, Nat.add_assoc]

/-- No lexeme has a line feed in it. -/
theorem Lexeme.count_newline (h : Lexeme kind spelling after) : spelling.count '\n' = 0 := by
  rw [List.count_eq_zero]
  intro hmem
  cases h with
  | keyword hrun => exact absurd (hrun.all _ hmem) (by decide)
  | name hrun => exact absurd (hrun.all _ hmem) (by decide)
  | literal hrun => exact absurd (hrun.all _ hmem) (by decide)
  | pair hpair =>
    have hall : ∀ entry ∈ TokenKind.pairs, '\n' ∉ [entry.1.1, entry.1.2] := by decide
    exact hall _ hpair hmem
  | single hsingle =>
    have hall : ∀ entry ∈ TokenKind.singles, '\n' ∉ [entry.1] := by decide
    exact hall _ hsingle hmem

/-- A gap is passed over, and each of its line feeds counted. -/
theorem Gap.scanFrom_eq (h : Gap gap after) (line : Nat) :
    scanFrom line (gap ++ after) = scanFrom (line + gap.count '\n') after := by
  induction h generalizing line with
  | none => rfl
  | @blank c gap after hblank _ ih =>
    rw [List.cons_append, scanFrom]
    by_cases hc : c = '\n'
    · rw [if_pos hc, ih, hc, List.count_cons_self, Nat.add_assoc, Nat.add_comm 1]
    · rw [if_neg hc, if_pos hblank, ih, List.count_cons_of_ne hc]
  | @comment body gap after hbody hend _ ih =>
    have hrest : afterComment ('/' :: (body ++ (gap ++ after))) = gap ++ after := by
      rw [afterComment, List.dropWhile_cons_of_pos (by decide)]
      exact dropWhile_append_whole (by simpa using hbody) fun c hc => by simp [hend c hc]
    have hcount : ('/' :: '/' :: body ++ gap).count '\n' = gap.count '\n' := by
      simpa [List.count_cons, List.count_eq_zero] using fun hmem => hbody _ hmem rfl
    rw [List.cons_append, List.cons_append, List.cons_append, List.cons_append,
      List.append_assoc, scanFrom, if_neg (by decide), if_neg (by decide),
      if_pos (by simp [startsComment]), hrest, ih, ← hcount]
    rfl

/-- Where the scanner meets a lexeme, the scan goes on behind it. -/
theorem Meets.scanFrom_ok (h : Meets text (.ok (kind, after))) :
    scanFrom line text = (scanFrom line after).map (⟨kind, line⟩ :: ·) := by
  obtain ⟨c, rest, rfl, hblank, hcomment, hlexeme⟩ := h
  have hnewline : c ≠ '\n' := by
    rintro rfl
    cases hblank
  rw [scanFrom, if_neg hnewline, hblank, hcomment, if_neg Bool.false_ne_true,
    if_neg Bool.false_ne_true]
  split <;> simp_all

/-- Where the scanner meets no lexeme, the scan stops. -/
theorem Meets.scanFrom_error (h : Meets text (.error cause)) :
    scanFrom line text = .error ⟨line, cause⟩ := by
  obtain ⟨c, rest, rfl, hblank, hcomment, hlexeme⟩ := h
  have hnewline : c ≠ '\n' := by
    rintro rfl
    cases hblank
  rw [scanFrom, if_neg hnewline, hblank, hcomment, if_neg Bool.false_ne_true,
    if_neg Bool.false_ne_true]
  split <;> simp_all

/-- A text that is split gives the tokens of its splitting first. -/
theorem Splits.scanFrom_eq (h : Splits before text after tokens) :
    scanFrom (lineBehind before) (text ++ after) =
      (scanFrom (lineBehind (before ++ text)) after).map (tokens ++ ·) := by
  induction h with
  | gap hgap =>
    rw [hgap.scanFrom_eq, ← lineBehind_append]
    cases scanFrom _ _ <;> rfl
  | @lexeme before gap spelling text after kind tokens hgap hlexeme _ ih =>
    have hline : lineBehind (before ++ gap ++ spelling) = lineBehind (before ++ gap) := by
      rw [lineBehind_append, hlexeme.count_newline, Nat.add_zero]
    rw [List.append_assoc, List.append_assoc, hgap.scanFrom_eq, ← lineBehind_append,
      hlexeme.meets.scanFrom_ok, ← hline, ih]
    simp only [List.append_assoc]
    cases scanFrom _ _ <;> rfl

/-! ## Every text is split, or split up to an obstacle -/

/-- Nothing at the head of `text` can belong to a gap: neither a blank nor a
    comment stands there. -/
def GapEnds (text : List Char) : Prop :=
  ∀ c rest, text = c :: rest → Text.isBlank c = false ∧ startsComment c rest = false

/-- Where a gap ends, no gap starts. -/
theorem GapEnds.eq_nil (hends : GapEnds text) (h : Gap gap after) (heq : text = gap ++ after) :
    gap = [] := by
  cases h with
  | none => rfl
  | blank hblank =>
    rw [(hends _ _ heq).1] at hblank
    cases hblank
  | comment =>
    have hcomment := (hends _ _ heq).2
    simp [startsComment] at hcomment

theorem Meets.gapEnds {outcome : Except ScanCause (TokenKind × List Char)}
    (h : Meets text outcome) : GapEnds text := by
  obtain ⟨c, rest, rfl, hblank, hcomment, -⟩ := h
  rintro _ _ ⟨⟩
  exact ⟨hblank, hcomment⟩

/-- Every text starts with a gap behind which it ends or something else
    stands. -/
theorem exists_gap (text : List Char) :
    ∃ gap after, text = gap ++ after ∧ Gap gap after ∧ GapEnds after := by
  induction hn : text.length using Nat.strong_induction_on generalizing text with
  | _ n ih =>
    cases text with
    | nil => exact ⟨[], [], rfl, .none, fun _ _ h => nomatch h⟩
    | cons c rest =>
      by_cases hblank : Text.isBlank c = true
      · obtain ⟨gap, after, rfl, hgap, hstop⟩ := ih rest.length (by simp [← hn]) rest rfl
        exact ⟨c :: gap, after, rfl, .blank hblank hgap, hstop⟩
      by_cases hcomment : startsComment c rest = true
      · obtain ⟨rfl, rest, rfl⟩ : c = '/' ∧ ∃ rest', rest = '/' :: rest' := by
          simpa [startsComment, List.head?_eq_some_iff] using hcomment
        have hlength := length_dropWhile_le (· != '\n') rest
        obtain ⟨gap, after, heq, hgap, hstop⟩ :=
          ih (rest.dropWhile (· != '\n')).length (by simp only [← hn, List.length_cons]; omega)
            (rest.dropWhile (· != '\n')) rfl
        refine ⟨'/' :: '/' :: rest.takeWhile (· != '\n') ++ gap, after, ?_,
          .comment ?_ ?_ hgap, hstop⟩
        · simp [← heq]
        · exact fun d hd => by simpa using List.mem_takeWhile_imp hd
        · intro d hd
          have := List.head?_dropWhile_not (· != '\n') rest
          rw [heq, Option.mem_def.1 hd] at this
          simpa using this
      · refine ⟨[], c :: rest, rfl, .none, ?_⟩
        rintro _ _ ⟨⟩
        exact ⟨Bool.eq_false_iff.2 hblank, Bool.eq_false_iff.2 hcomment⟩

/-- Only digits can be too large. -/
theorem cause_of_error (hdigit : c.isDigit = false) (h : lexeme c rest = .error cause) :
    cause = .unexpected c := by
  simp only [lexeme, hdigit, Bool.false_eq_true, if_false] at h
  split at h
  · cases h
  · split at h <;> cases h
    rfl

/-- Where the scanner finds no lexeme, there is an obstacle. -/
theorem obstacle_of_error (hblank : Text.isBlank c = false)
    (hcomment : startsComment c rest = false) (h : lexeme c rest = .error cause) :
    Obstacle (c :: rest) cause := by
  have hnone : ∀ kind spelling after, c :: rest = spelling ++ after →
      ¬ Lexeme kind spelling after := by
    intro kind spelling after heq hlexeme
    have hmeets := hlexeme.meets
    rw [← heq] at hmeets
    cases hmeets.unique ⟨c, rest, rfl, hblank, hcomment, h⟩
  by_cases hdigit : c.isDigit = true
  · simp only [lexeme, hdigit, if_true, number, decimalValue_eq] at h
    split at h
    · cases h
    · next hlarge =>
      cases h
      have hobstacle := Obstacle.tooLarge (run_takeWhile hdigit rest)
        (Nat.lt_of_not_le hlarge)
      simpa using hobstacle
  · rw [Bool.not_eq_true] at hdigit
    rw [cause_of_error hdigit h]
    refine .unexpected (fun gap after heq hgap => ?_) hnone hdigit
    have hends : GapEnds (c :: rest) := by
      rintro _ _ ⟨⟩
      exact ⟨hblank, hcomment⟩
    exact hends.eq_nil hgap heq

/-- At an obstacle there is neither a blank nor a comment, and the scanner
    finds no lexeme. -/
theorem Obstacle.meets (h : Obstacle rest cause) : Meets rest (.error cause) := by
  cases h with
  | @unexpected c rest hgap hnone hdigit =>
    obtain ⟨gap, after, heq, hg, hstop⟩ := exists_gap (c :: rest)
    obtain rfl := hgap gap after heq hg
    obtain ⟨hblank, hcomment⟩ := hstop c rest heq.symm
    refine ⟨c, rest, rfl, hblank, hcomment, ?_⟩
    cases hlexeme : lexeme c rest with
    | error cause => rw [cause_of_error hdigit hlexeme]
    | ok found =>
      obtain ⟨spelling, heq, hl⟩ := lexeme_sound hcomment hlexeme
      exact absurd hl (hnone _ _ _ heq)
  | @tooLarge digits after hrun hlarge =>
    have hmeets := meets_digits hrun
    rwa [number, decimalValue_eq, if_neg (Nat.not_le.2 hlarge)] at hmeets

/-- Every text is split, or split up to an obstacle. -/
theorem exists_splits (before text : List Char) :
    (∃ tokens, Splits before text [] tokens) ∨
      ∃ text' rest tokens cause, text = text' ++ rest ∧ Splits before text' rest tokens ∧
        Obstacle rest cause := by
  induction hn : text.length using Nat.strong_induction_on generalizing before text with
  | _ n ih =>
    obtain ⟨gap, after, rfl, hgap, hstop⟩ := exists_gap text
    cases after with
    | nil => exact .inl ⟨[], by simpa using .gap hgap⟩
    | cons c rest =>
      obtain ⟨hblank, hcomment⟩ := hstop c rest rfl
      cases hlexeme : lexeme c rest with
      | error cause =>
        exact .inr ⟨gap, c :: rest, [], cause, rfl, .gap hgap,
          obstacle_of_error hblank hcomment hlexeme⟩
      | ok found =>
        obtain ⟨kind, after⟩ := found
        have hlength := length_lexeme_le hlexeme
        obtain ⟨spelling, heq, hl⟩ := lexeme_sound hcomment hlexeme
        rw [heq] at hgap ⊢
        rcases ih after.length (by simp only [← hn, List.length_append, List.length_cons]; omega)
            (before ++ gap ++ spelling) after rfl with
          ⟨tokens, hsplits⟩ | ⟨text', rest', tokens, cause, rfl, hsplits, hobstacle⟩
        · refine .inl ⟨⟨kind, lineBehind (before ++ gap)⟩ :: tokens, ?_⟩
          rw [← List.append_assoc]
          exact .lexeme (by simpa using hgap) (by simpa using hl) hsplits
        · exact .inr ⟨gap ++ spelling ++ text', rest', _, cause, by simp,
            .lexeme hgap hl hsplits, hobstacle⟩

end Steps

/-! ## The scan is the splitting -/

section Scan

variable {before gap gap' text text' after after' rest rest' : List Char}
  {cause cause' : ScanCause} {tokens tokens' : List Token}

/-- A text has one gap at its head that ends where the gap does. -/
theorem Gap.unique (h : Gap gap after) (h' : Gap gap' after') (hends : GapEnds after)
    (hends' : GapEnds after') (heq : gap ++ after = gap' ++ after') : gap = gap' := by
  induction h generalizing gap' with
  | none => exact (hends.eq_nil h' heq).symm
  | @blank c gap after hblank hgap ih =>
    cases h' with
    | none => exact hends'.eq_nil (.blank hblank hgap) heq.symm
    | blank _ h' =>
      obtain ⟨rfl, htail⟩ := List.cons.inj heq
      rw [ih h' hends htail]
    | comment =>
      obtain ⟨rfl, -⟩ := List.cons.inj heq
      cases hblank
  | @comment body gap after hbody hend hgap ih =>
    cases h' with
    | none => exact hends'.eq_nil (.comment hbody hend hgap) heq.symm
    | blank hblank =>
      obtain ⟨rfl, -⟩ := List.cons.inj heq
      cases hblank
    | @comment body' gap' _ hbody' hend' h' =>
      simp only [List.cons_append, List.cons.injEq, true_and, List.append_assoc] at heq
      have hrest : gap ++ after = gap' ++ after' := by
        have hdrop := congrArg (List.dropWhile (· != '\n')) heq
        rwa [dropWhile_append_whole (by simpa using hbody) fun c hc => by simp [hend c hc],
          dropWhile_append_whole (by simpa using hbody') fun c hc => by simp [hend' c hc]]
          at hdrop
      rw [hrest] at heq
      rw [List.append_cancel_right heq, ih h' hends hrest]

/-- A text is split up to one obstacle at most. -/
theorem Splits.unique (h : Splits before text rest tokens) (hobstacle : Obstacle rest cause)
    (h' : Splits before text' rest' tokens') (hobstacle' : Obstacle rest' cause')
    (heq : text ++ rest = text' ++ rest') : text = text' := by
  induction h generalizing text' tokens' with
  | @gap before gap rest hgap =>
    cases h' with
    | gap hgap' => exact hgap.unique hgap' hobstacle.meets.gapEnds hobstacle'.meets.gapEnds heq
    | @lexeme _ gap' spelling' text' _ kind' tokens' hgap' hlexeme' =>
      rw [List.append_assoc, List.append_assoc] at heq
      have hmeets := hlexeme'.meets
      obtain rfl := hgap.unique hgap' hobstacle.meets.gapEnds hmeets.gapEnds heq
      rw [← List.append_cancel_left heq] at hmeets
      cases hmeets.unique hobstacle.meets
  | @lexeme before gap spelling text rest kind tokens hgap hlexeme _ ih =>
    rw [List.append_assoc, List.append_assoc] at heq
    have hmeets := hlexeme.meets
    cases h' with
    | @gap _ gap' _ hgap' =>
      obtain rfl := hgap.unique hgap' hmeets.gapEnds hobstacle'.meets.gapEnds heq
      rw [List.append_cancel_left heq] at hmeets
      cases hmeets.unique hobstacle'.meets
    | @lexeme _ gap' spelling' text' _ kind' tokens' hgap' hlexeme' h' =>
      rw [List.append_assoc, List.append_assoc] at heq
      obtain rfl := hgap.unique hgap' hmeets.gapEnds hlexeme'.meets.gapEnds heq
      have hspelled := List.append_cancel_left heq
      rw [hspelled] at hmeets
      have hafter : text ++ rest = text' ++ rest' :=
        (Prod.mk.inj (Except.ok.inj (hmeets.unique hlexeme'.meets))).2
      rw [hafter] at hspelled
      obtain rfl := List.append_cancel_right hspelled
      rw [ih hobstacle h' hafter]

end Scan

/-- A text that is split is scanned into the tokens of its splitting. -/
theorem scan_of_splits {source : String} {tokens : List Token}
    (h : Splits [] source.toList [] tokens) : scan source = .ok tokens := by
  have hscan := h.scanFrom_eq
  rw [List.append_nil, List.nil_append] at hscan
  exact hscan.trans (by simp [scanFrom, Except.map])

/-- A scan stops at the obstacle up to which a text is split. -/
theorem scan_of_obstacle {source : String} {before rest : List Char} {tokens : List Token}
    {cause : ScanCause} (heq : source.toList = before ++ rest) (h : Splits [] before rest tokens)
    (hobstacle : Obstacle rest cause) : scan source = .error ⟨lineBehind before, cause⟩ := by
  have hscan := h.scanFrom_eq
  rw [← heq, List.nil_append, hobstacle.meets.scanFrom_error] at hscan
  exact hscan

/-- A text that is scanned is split into its tokens. -/
theorem splits_of_scan {source : String} {tokens : List Token} (h : scan source = .ok tokens) :
    Splits [] source.toList [] tokens := by
  rcases exists_splits [] source.toList with
    ⟨tokens', hsplits⟩ | ⟨before, rest, tokens', cause, heq, hsplits, hobstacle⟩
  · rw [scan_of_splits hsplits] at h
    cases h
    exact hsplits
  · rw [scan_of_obstacle heq hsplits hobstacle] at h
    cases h

/-- The characters are those of a word, which starts with no digit. -/
structure IsWord (word : List Char) : Prop where
  nonempty : word ≠ []
  chars : ∀ c ∈ word, isWordChar c = true
  start : ∀ c ∈ word.head?, c.isDigit = false

/-- Only whole words are read as identifiers. -/
theorem Splits.isWord {before text after : List Char} {tokens : List Token}
    (h : Splits before text after tokens) {x : String} (hx : .ident x ∈ tokens.map Token.kind) :
    IsWord x.toList := by
  induction h with
  | gap => cases hx
  | lexeme _ hlexeme _ ih =>
    rcases List.mem_cons.mp hx with rfl | hx
    · cases hlexeme with
      | name hrun hstart =>
        rw [String.toList_ofList]
        exact ⟨hrun.nonempty, hrun.all, hstart⟩
      -- the other lexemes are of fixed kinds
      | keyword _ _ hmem => exact absurd hmem (by simp [TokenKind.keywords])
      | pair hmem => exact absurd hmem (by simp [TokenKind.pairs])
      | single hmem => exact absurd hmem (by simp [TokenKind.singles])
    · exact ih hx

/-- The identifiers of a text that is scanned are words. -/
theorem isWord_of_scan {source : String} {tokens : List Token} (h : scan source = .ok tokens)
    {x : String} (hx : .ident x ∈ tokens.map Token.kind) : IsWord x.toList :=
  (splits_of_scan h).isWord hx

/-- A text at which the scan stops is split up to an obstacle. -/
theorem obstacle_of_scan {source : String} {e : ScanError} (h : scan source = .error e) :
    ∃ before rest tokens, source.toList = before ++ rest ∧ Splits [] before rest tokens ∧
      Obstacle rest e.cause ∧ e.line = lineBehind before := by
  rcases exists_splits [] source.toList with
    ⟨tokens', hsplits⟩ | ⟨before, rest, tokens', cause, heq, hsplits, hobstacle⟩
  · rw [scan_of_splits hsplits] at h
    cases h
  · rw [scan_of_obstacle heq hsplits hobstacle] at h
    cases h
    exact ⟨before, rest, tokens', heq, hsplits, hobstacle, rfl⟩

/-- A text is scanned into tokens exactly if it is split into them.  If it is
    not split, the scan reports the obstacle behind the part that is, and
    there is one only. -/
theorem scan_splits (source : String) :
    (∀ tokens, scan source = .ok tokens ↔ Splits [] source.toList [] tokens) ∧
    (∀ e, scan source = .error e ↔ ∃ before rest tokens,
      source.toList = before ++ rest ∧ Splits [] before rest tokens ∧
      Obstacle rest e.cause ∧ e.line = lineBehind before) ∧
    ∀ before rest tokens cause before' rest' tokens' cause',
      source.toList = before ++ rest → Splits [] before rest tokens → Obstacle rest cause →
      source.toList = before' ++ rest' → Splits [] before' rest' tokens' →
      Obstacle rest' cause' → before = before' := by
  refine ⟨fun tokens => ⟨splits_of_scan, scan_of_splits⟩, fun e => ⟨obstacle_of_scan, ?_⟩, ?_⟩
  · rintro ⟨before, rest, tokens, heq, hsplits, hobstacle, hline⟩
    rw [scan_of_obstacle heq hsplits hobstacle, ← hline]
  · intro before rest tokens cause before' rest' tokens' cause' heq h hobstacle heq' h' hobstacle'
    exact h.unique hobstacle h' hobstacle' (heq.symm.trans heq')

end ClassLang.Token
