import ClassLang.Proofs.Grammar.Viable

/-! # Where a program stops being one

    Syntax errors are reported at the first token that fits nowhere.

    * **`StopsAt`**: what the tokens and the error of a program have to do with
      each other.
    * What was read begins a program, since the readers begin what they read.
    * With the next token it begins none: a program that begins so would be read,
      and the reader would have come past the token.
    * **`program_stops_at`** puts it together. -/

namespace ClassLang.Grammar

/-- The tokens stop being a program behind the first `i` of them, and the error
    says so. -/
structure StopsAt (tokens : List Token) (i : Nat) (e : SyntaxError) : Prop where
  /-- Some program begins with the tokens before. -/
  begun : ∃ t : Derivation (.sym .program), kindsOf (tokens.take i) <+: t.yield
  /-- No program begins with the next token as well. -/
  impossible : i < tokens.length →
    ∀ t : Derivation (.sym .program), ¬ kindsOf (tokens.take (i + 1)) <+: t.yield
  /-- At the end of the tokens, a program goes on. -/
  unfinished : i = tokens.length → ∃ t : Derivation (.sym .program),
    kindsOf tokens <+: t.yield ∧ t.yield ≠ kindsOf tokens
  /-- There they are none themselves. -/
  incomplete : i = tokens.length → ∀ t : Derivation (.sym .program), t.yield ≠ kindsOf tokens
  /-- The line is that of the next token, and of the last one at the end. -/
  line : ∃ t, tokens[i]?.or tokens.getLast? = some t ∧ e.line = t.line

section stops

variable {tokens u r : List Token} {s : Token} {e : SyntaxError} {c : Cursor}

/-- The reader goes forward through the list. -/
theorem exists_read (h : program (.ofTokens tokens) = .error e c) :
    ∃ u, tokens = u ++ c.rest ∧ c.endLine = (Cursor.ofTokens tokens).endLine := by
  have hlocal : Local 0 0 program program := Local.program
  exact hlocal.onward (run_eq_error_iff.mpr h)

/-- What was read begins a program. -/
theorem exists_begun (h : program (.ofTokens tokens) = .error e c) (hu : tokens = u ++ c.rest) :
    ∃ t : Derivation (.sym .program), kindsOf u <+: t.yield := by
  obtain ⟨t, w, z, hkinds, hyield, -⟩ := begins_program (run_eq_error_iff.mpr h)
  have hread : kindsOf u ++ c.kinds = w ++ c.kinds := by
    rw [← hkinds]
    show kindsOf u ++ kindsOf c.rest = kindsOf tokens
    rw [hu]
    exact List.map_append.symm
  rw [List.append_cancel_right hread]
  exact ⟨t, z, hyield.symm⟩

/-- Tokens that are no program have no derivation. -/
theorem yield_ne_of_error (h : program (.ofTokens tokens) = .error e c)
    (t : Derivation (.sym .program)) : t.yield ≠ kindsOf tokens := by
  intro ht
  have hspells : (Rhs.sym .program).Spells (kindsOf tokens) t.value [] :=
    ⟨t, by rw [ht, List.append_nil], rfl⟩
  obtain ⟨p, hp, -⟩ := Program.ofTokens_of_spells hspells
  obtain ⟨c', hc'⟩ := Program.ofTokens_eq_ok_iff.mp hp
  cases h.symm.trans hc'

/-- Where the reader stops in front of a token, it stops there whatever comes
    behind. -/
theorem stops_of_alike (h : program (.ofTokens (u ++ s :: r)) = .error e c)
    (hrest : c.rest = s :: r) (r' : List Token) :
    ∃ c', program (.ofTokens (u ++ s :: r')) = .error e c' := by
  obtain ⟨_, -, hend⟩ := exists_read h
  have halike : Alike (s :: r) (s :: r') := ⟨s, r, r', rfl, rfl⟩
  have hc : c = ⟨s :: r, (Cursor.ofTokens (u ++ s :: r)).endLine⟩ := by
    obtain ⟨rest, endLine⟩ := c
    rw [Cursor.mk.injEq]
    exact ⟨hrest, hend⟩
  rw [hc] at h
  have hrun := run_eq_error_iff.mpr h
  have hsame : run program (.ofTokens (u ++ s :: r')) = (.error e, ⟨s :: r', _⟩) :=
    Local.program.same halike (Nat.lt_succ_self _) (Nat.lt_succ_self _) hrun
  exact ⟨_, run_eq_error_iff.mp hsame⟩

/-- With the token at which the reader stops, no program begins. -/
theorem not_begun (h : program (.ofTokens tokens) = .error e c) (hu : tokens = u ++ s :: r)
    (hrest : c.rest = s :: r) (t : Derivation (.sym .program)) :
    ¬ kindsOf (u ++ [s]) <+: t.yield := by
  rintro ⟨w, hw⟩
  -- the tokens of that program, on any lines
  let r' : List Token := w.map fun k => ⟨k, 0⟩
  have hkinds : kindsOf (u ++ s :: r') = t.yield := by
    rw [← hw]
    simp [r', kindsOf, Function.comp_def]
  rw [hu] at h
  obtain ⟨c', h'⟩ := stops_of_alike h hrest r'
  exact yield_ne_of_error h' t hkinds.symm

/-- The line of an error is that of the place. -/
theorem error_line (h : program (.ofTokens tokens) = .error e c) (hu : tokens = u ++ c.rest) :
    ∃ t, tokens[u.length]?.or tokens.getLast? = some t ∧ e.line = t.line := by
  have hlocal : Local 0 0 program program := Local.program
  have hline : e.line = c.line := hlocal.raised (run_eq_error_iff.mpr h)
  obtain ⟨_, -, hend⟩ := exists_read h
  have hnext : tokens[u.length]? = c.rest.head? := by
    rw [hu, List.getElem?_append_right (Nat.le_refl _), Nat.sub_self, List.head?_eq_getElem?]
  rw [hline, Cursor.line, hnext, hend, Cursor.ofTokens]
  cases hrest : c.rest with
  | cons s r => exact ⟨s, rfl, rfl⟩
  | nil =>
    cases hlast : tokens.getLast? with
    | some t => exact ⟨t, rfl, rfl⟩
    | none =>
      -- no tokens are a program
      rw [List.getLast?_eq_none_iff.mp hlast] at h
      cases h

end stops

/-- A syntax error is found at the first token that fits nowhere. -/
theorem program_stops_at {tokens : List Token} {e : SyntaxError} {c : Cursor}
    (h : program (.ofTokens tokens) = .error e c) :
    ∃ i, i ≤ tokens.length ∧ c.rest = tokens.drop i ∧ StopsAt tokens i e := by
  obtain ⟨u, hu, hend⟩ := exists_read h
  have htake : tokens.take u.length = u := by rw [hu, List.take_left]
  have hdrop : c.rest = tokens.drop u.length := by rw [hu, List.drop_left]
  have hall : u.length = tokens.length → u = tokens := by
    intro hi
    rw [← htake, hi, List.take_length]
  have hle : u.length ≤ tokens.length := by
    rw [hu, List.length_append]
    exact Nat.le_add_right _ _
  refine ⟨u.length, hle, hdrop, ⟨?_, ?_, ?_, ?_, error_line h hu⟩⟩
  · rw [htake]
    exact exists_begun h hu
  · intro hi
    obtain ⟨s, r, hrest⟩ : ∃ s r, c.rest = s :: r := by
      rw [hdrop, List.drop_eq_getElem_cons hi]
      exact ⟨_, _, rfl⟩
    have htokens : tokens = u ++ s :: r := by rw [← hrest]; exact hu
    have hnext : tokens.take (u.length + 1) = u ++ [s] := by
      rw [htokens, List.take_append, Nat.add_sub_cancel_left, List.take_of_length_le (Nat.le_succ _)]
      rfl
    rw [hnext]
    exact not_begun h htokens hrest
  · intro hi
    obtain ⟨t, ht⟩ := exists_begun h hu
    rw [hall hi] at ht
    exact ⟨t, ht, yield_ne_of_error h t⟩
  · exact fun _ => yield_ne_of_error h

/-- A class that goes wrong behind its name. -/
def unopened : List Token := [⟨.cls, 1⟩, ⟨.ident "A", 1⟩, ⟨.semiColon, 2⟩]

theorem unopened_stops_at :
    program (.ofTokens unopened) =
        .error ⟨2, some .semiColon, .token .openCurlyBrace⟩ ⟨[⟨.semiColon, 2⟩], 2⟩ ∧
      ∃ i, i ≤ unopened.length ∧ [⟨.semiColon, 2⟩] = unopened.drop i ∧
        StopsAt unopened i ⟨2, some .semiColon, .token .openCurlyBrace⟩ := by
  have h : program (.ofTokens unopened) =
      .error ⟨2, some .semiColon, .token .openCurlyBrace⟩ ⟨[⟨.semiColon, 2⟩], 2⟩ := rfl
  exact ⟨h, program_stops_at h⟩

end ClassLang.Grammar
