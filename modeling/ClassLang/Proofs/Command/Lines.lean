import ClassLang.Command.Run
import ClassLang.Proofs.Token.Splitting
import ClassLang.Proofs.Typing.Contract

/-! # Messages of one line

    A message that ends a run of the compiler takes one line, whatever the
    source text is, and so does every text of which the log before it tells.

    * **`Text.Unbroken`**: a text has no line feed in it.
    * **`Program.unbroken_identifiers`**: no identifier of a source text has.
    * **`Event.unbroken`** and **`Program.unbroken_of_analyze`**: so the log of a
      rejected program tells of texts without line feeds only, and its error is
      one line.  -/

namespace ClassLang

/-! ## Texts without line feeds -/

namespace Text

/-- The text has no line feed. -/
def Unbroken (s : String) : Prop := '\n' ∉ s.toList

instance (s : String) : Decidable (Unbroken s) := inferInstanceAs (Decidable ('\n' ∉ s.toList))

@[simp] theorem unbroken_append {s t : String} : Unbroken (s ++ t) ↔ Unbroken s ∧ Unbroken t := by
  simp [Unbroken]

theorem unbroken_join {texts : List String} (h : ∀ s ∈ texts, Unbroken s) :
    Unbroken (String.join texts) := by
  simpa [Unbroken, String.toList_join] using h

/-- The digits of a number are no line feeds, to any base. -/
theorem newline_notMem_toDigits {b n : Nat} (hb : 1 < b) : '\n' ∉ Nat.toDigits b n := by
  have hdigit : ∀ n, Nat.digitChar n ≠ '\n' := fun n => Nat.digitChar_ne '\n' (by decide)
  induction n using Nat.strong_induction_on with
  | _ n ih =>
    rw [Nat.toDigits_eq_if hb]
    split
    · exact mt List.mem_singleton.mp (hdigit n).symm
    · have hlt : n / b < n := Nat.div_lt_self (by omega) hb
      rw [List.mem_append, not_or]
      exact ⟨ih _ hlt, mt List.mem_singleton.mp (hdigit _).symm⟩

theorem unbroken_nat (n : Nat) : Unbroken (toString n) := by
  show '\n' ∉ n.repr.toList
  rw [Nat.toList_repr]
  exact newline_notMem_toDigits (by decide)

theorem unbroken_int (i : Int) : Unbroken (toString i) := by
  cases i with
  | ofNat n => exact unbroken_nat n
  | negSucc n =>
    show Unbroken ("-" ++ toString (n + 1))
    exact unbroken_append.mpr ⟨by decide, unbroken_nat _⟩

/-- Escaping leaves no line feed: it has a form of its own. -/
theorem unbroken_escape {quote : Char} (hquote : quote ≠ '\n') (c : Char) :
    Unbroken (escape quote c) := by
  unfold escape
  split
  · next h =>
    have hc : c ≠ '\n' := by
      rintro rfl
      rcases h with h | h
      · exact hquote h.symm
      · cases h
    simpa [Unbroken] using hc.symm
  · split
    · decide
    · split
      · decide
      · split
        · decide
        · next hc =>
          split
          · decide
          · split
            · simpa [Unbroken, Char.toString] using Ne.symm hc
            · simp only [unbroken_append]
              refine ⟨⟨by decide, ?_⟩, by decide⟩
              simpa [Unbroken, hex] using newline_notMem_toDigits (by decide)

theorem unbroken_quotedChar (c : Char) : Unbroken (quotedChar c) := by
  simp only [quotedChar, unbroken_append]
  exact ⟨⟨by decide, unbroken_escape (by decide) c⟩, by decide⟩

theorem unbroken_quoted (s : String) : Unbroken (quoted s) := by
  simp only [quoted, unbroken_append]
  refine ⟨⟨by decide, unbroken_join ?_⟩, by decide⟩
  intro t ht
  obtain ⟨c, _, rfl⟩ := List.mem_map.mp ht
  exact unbroken_escape (by decide) c

end Text

open Text

/-! ## Messages -/

theorem TokenKind.unbroken_describe (kind : TokenKind) : Unbroken kind.describe := by
  cases kind with
  | num value =>
    show Unbroken ("Num(" ++ toString value ++ ")")
    simp only [unbroken_append]
    exact ⟨⟨by decide, unbroken_int value⟩, by decide⟩
  | ident name =>
    show Unbroken ("Ident(" ++ quoted name ++ ")")
    simp only [unbroken_append]
    exact ⟨⟨by decide, unbroken_quoted name⟩, by decide⟩
  | _ => decide

namespace Grammar

theorem Wanted.unbroken_text (wanted : Wanted) : Unbroken wanted.text := by
  cases wanted with
  | token kind => exact kind.unbroken_describe
  | ident | expression => decide

theorem SyntaxError.unbroken_message (e : SyntaxError) : Unbroken e.message := by
  unfold message
  simp only [unbroken_append]
  refine ⟨⟨⟨by decide, unbroken_nat _⟩, by decide⟩, ?_⟩
  cases e.found with
  | none =>
    simp only [unbroken_append]
    exact ⟨⟨by decide, e.wanted.unbroken_text⟩, by decide⟩
  | some kind =>
    simp only [unbroken_append]
    exact ⟨⟨⟨⟨by decide, kind.unbroken_describe⟩, by decide⟩, e.wanted.unbroken_text⟩, by decide⟩

end Grammar

theorem Violation.unbroken_message (v : Violation) : Unbroken v.message := by
  unfold message
  simp only [unbroken_append]
  refine ⟨⟨⟨by decide, unbroken_nat _⟩, by decide⟩, ?_⟩
  cases v.rule <;> decide

/-! ## Errors of a scan -/

namespace Token

/-- The message of an error is one line: a character is quoted in it, and digits
    are no line feeds. -/
theorem unbroken_message_of_scan {source : String} {e : ScanError} (h : scan source = .error e) :
    Unbroken e.message := by
  obtain ⟨before, rest, tokens, -, -, hobstacle, -⟩ := obstacle_of_scan h
  have htext : Unbroken e.cause.text := by
    generalize e.cause = cause at hobstacle
    cases hobstacle with
    | unexpected => exact unbroken_append.mpr ⟨by decide, unbroken_quotedChar _⟩
    | tooLarge hrun =>
      -- the digits are quoted as they stand in the text
      refine unbroken_append.mpr ⟨unbroken_append.mpr ⟨by decide, ?_⟩, by decide⟩
      intro hmem
      rw [String.toList_ofList] at hmem
      exact absurd (hrun.all _ hmem) (by decide)
  unfold ScanError.message
  simp only [unbroken_append]
  exact ⟨⟨⟨by decide, unbroken_nat _⟩, by decide⟩, htext⟩

end Token

/-! ## The log -/

namespace Ty

mutual

theorem unbroken_render : ∀ {ty : Ty}, (∀ x ∈ ty.identifiers, Unbroken x) → Unbroken ty.render
  | int, _ | bool, _ | nothing, _ => by decide
  | object cls, h => h cls (List.mem_singleton_self _)
  | func result params, h => by
    show Unbroken ("(" ++ renderList params ++ ") -> " ++ result.render)
    simp only [unbroken_append]
    refine ⟨⟨⟨by decide, unbroken_renderList fun x hx => ?_⟩, by decide⟩,
      unbroken_render fun x hx => ?_⟩
    · exact h x (List.mem_append_right _ hx)
    · exact h x (List.mem_append_left _ hx)

theorem unbroken_renderList : ∀ {tys : List Ty}, (∀ x ∈ identifiersAll tys, Unbroken x) →
    Unbroken (renderList tys)
  | [], _ => by decide
  | [ty], h => unbroken_render fun x hx => h x (List.mem_append_left _ hx)
  | ty :: next :: rest, h => by
    show Unbroken (ty.render ++ ", " ++ renderList (next :: rest))
    simp only [unbroken_append]
    refine ⟨⟨unbroken_render fun x hx => ?_, by decide⟩, unbroken_renderList fun x hx => ?_⟩
    · exact h x (List.mem_append_left _ hx)
    · exact h x (List.mem_append_right _ hx)

end

end Ty

/-- The texts in a value have no line feed. -/
def Detail.Unbroken : Detail → Prop
  | text shown => Text.Unbroken shown
  | name s => Text.Unbroken s
  | number _ => True

/-- No value of the event has a line feed in it. -/
def Event.Unbroken (e : Event) : Prop := ∀ f ∈ e.fields, f.2.Unbroken

/-- The values of an event have no line feed if the names of which it tells have
    none. -/
theorem Event.unbroken {e : Event} (h : ∀ x ∈ e.identifiers, Text.Unbroken x) : e.Unbroken := by
  unfold Unbroken
  cases e with
  | registeredClass cls parent =>
    have hparent : Text.Unbroken (describeOption quoted parent) := by
      cases parent with
      | none => decide
      | some parent =>
        have hquoted := unbroken_quoted parent
        exact unbroken_append.mpr ⟨unbroken_append.mpr ⟨by decide, hquoted⟩, by decide⟩
    simpa [fields, Detail.Unbroken] using ⟨h cls (by simp [identifiers]), hparent⟩
  | checkedMethod cls method signature =>
    have hsignature : Text.Unbroken signature.render :=
      Ty.unbroken_render fun x hx => h x (by simp [identifiers, hx])
    simpa [fields, Detail.Unbroken] using
      ⟨h cls (by simp [identifiers]), h method (by simp [identifiers]), hsignature⟩
  | typedExpression line ty => simpa [fields, Detail.Unbroken] using Ty.unbroken_render h
  | wellTyped | generatedAssembly => simp [fields, Detail.Unbroken]
  | parameterSlot | localSlot | fieldSlot | classLayout | generatingMethod =>
    simpa [fields, Detail.Unbroken, identifiers] using h

/-! ## Rejected programs -/

namespace Program

/-- A text that cannot be read has an error of one line. -/
theorem unbroken_of_ofSource {source : String} {e : Failure} (h : ofSource source = .error e) :
    Command.exitStatus e = 1 ∧ Unbroken e.message := by
  unfold ofSource at h
  split at h
  · next hscan =>
    cases h
    exact ⟨rfl, Token.unbroken_message_of_scan hscan⟩
  · split at h
    · next e _ =>
      cases h
      exact ⟨rfl, e.unbroken_message⟩
    · cases h

/-- The identifiers of a program that is read are words. -/
theorem unbroken_identifiers {source : String} {p : Program} (h : ofSource source = .ok p) :
    ∀ x ∈ p.identifiers, Unbroken x :=
  fun x hx hmem => absurd ((isWord_of_ofSource h x hx).chars _ hmem) (by decide)

/-- A text is rejected with an error of one line, which is no fault, and what is
    told before it has no line feed either. -/
theorem unbroken_of_analyze {source : String} {journal : List Event} {e : Failure}
    (h : analyzeLogged source = (journal, .error e)) :
    Command.exitStatus e = 1 ∧ Unbroken e.message ∧ ∀ event ∈ journal, event.Unbroken := by
  unfold analyzeLogged at h
  split at h
  · next hsource =>
    cases h
    obtain ⟨hstatus, hmessage⟩ := unbroken_of_ofSource hsource
    exact ⟨hstatus, hmessage, by simp⟩
  · next p hsource =>
    have hkeeps := check_keeps (erase_of_ofSource hsource)
    dsimp only at h
    split at h
    · next halt hhalt =>
      cases h
      -- the log tells of names in the program, which are words of the text
      have hlines : ∀ event ∈ p.check.journal, event.Unbroken := fun event hmem =>
        Event.unbroken fun x hx =>
          unbroken_identifiers hsource x (hkeeps.journal event hmem hx)
      cases halt with
      | violation v => exact ⟨rfl, v.unbroken_message, hlines⟩
      | fault f => exact absurd hhalt (hkeeps.faultless f)
    · cases h

end Program

end ClassLang
