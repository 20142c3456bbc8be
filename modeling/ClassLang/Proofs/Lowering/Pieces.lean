import ClassLang.Proofs.Lowering.Symbols
import ClassLang.Proofs.Token.Lexemes
import Mathlib.Data.List.Dedup

/-! # Numbered labels in texts

    The numbered labels of an assembly text can be found without knowing the
    lines that it was made of.

    * **`pieces`** cuts a text at its numbered labels: a label is a point, an
      `L` and all the digits behind them.
    * **`relabel`** writes a text again with later labels, **`labelsIn`** are the
      numbers of its labels and **`labelCount`** says how many there are.
    * **`pieces_plain`**: a text without a point is left alone.
    * **`pieces_numbered`** and **`pieces_newline`**: a label is found with its
      number, and lines are cut one by one. -/

namespace ClassLang

/-! ## Texts in pieces -/

/-- A piece of a text: a numbered label, or another character. -/
inductive Piece where
  | label (number : Nat)
  | other (c : Char)
deriving DecidableEq

/-- The digits of the numbered label that starts a text; none if no label does. -/
def labelDigits : List Char → List Char
  | '.' :: 'L' :: behind => behind.takeWhile Char.isDigit
  | _ => []

/-- The pieces of a text. -/
def pieces (text : List Char) : List Piece :=
  match text with
  | [] => []
  | c :: rest =>
    match labelDigits (c :: rest) with
    | [] => .other c :: pieces rest
    | digits => .label (Nat.ofDigitChars 10 digits 0) :: pieces (rest.drop (digits.length + 1))
termination_by text.length
decreasing_by
  · exact Nat.lt_succ_self _
  · rw [List.length_drop, List.length_cons]
    omega

namespace Piece

/-- The piece as text, a label with a number that is `d` larger. -/
def renderLater (d : Nat) : Piece → List Char
  | label number => (Label.numbered (number + d)).render.toList
  | other c => [c]

/-- The number of a label. -/
def number? : Piece → Option Nat
  | label number => some number
  | other _ => none

theorem flatMap_other (d : Nat) (cs : List Char) : (cs.map other).flatMap (renderLater d) = cs := by
  rw [List.flatMap_map]
  exact List.flatMap_singleton' cs

theorem filterMap_other (cs : List Char) : (cs.map other).filterMap number? = [] := by
  rw [List.filterMap_map]
  exact List.filterMap_none cs

end Piece

/-- The text with every numbered label moved on by `d`. -/
def relabel (d : Nat) (text : String) : String :=
  String.ofList ((pieces text.toList).flatMap (Piece.renderLater d))

/-- The numbers of the numbered labels of a text, as often as they occur. -/
def labelsIn (text : String) : List Nat := (pieces text.toList).filterMap Piece.number?

/-- How many numbered labels there are in a text. -/
def labelCount (text : String) : Nat := (labelsIn text).dedup.length

/-! ## Pieces of texts -/

section pieces

variable {c : Char} {before rest : List Char}

theorem labelDigits_of_ne (h : c ≠ '.') : labelDigits (c :: rest) = [] := by
  unfold labelDigits
  split
  · next heq => exact absurd (List.cons.inj heq).1 h
  · rfl

theorem labelDigits_of_ne_second {b : Char} (h : c ≠ 'L') : labelDigits (b :: c :: rest) = [] := by
  unfold labelDigits
  split
  · next heq => exact absurd (List.cons.inj (List.cons.inj heq).2).1 h
  · rfl

/-- The digits of a label stand behind two other characters. -/
theorem length_labelDigits_lt (h : labelDigits (c :: rest) ≠ []) :
    (labelDigits (c :: rest)).length + 1 ≤ rest.length := by
  unfold labelDigits at h ⊢
  split at h
  · next behind heq =>
    obtain ⟨rfl, rfl⟩ := List.cons.inj heq
    exact Nat.succ_le_succ (List.takeWhile_prefix _).length_le
  · exact absurd rfl h

theorem pieces_nil : pieces [] = [] := by
  rw [pieces]

theorem pieces_other (h : labelDigits (c :: rest) = []) :
    pieces (c :: rest) = .other c :: pieces rest := by
  rw [pieces, h]

theorem pieces_label (h : labelDigits (c :: rest) ≠ []) :
    pieces (c :: rest) = .label (Nat.ofDigitChars 10 (labelDigits (c :: rest)) 0) ::
      pieces (rest.drop ((labelDigits (c :: rest)).length + 1)) := by
  rw [pieces]
  split
  · next hnil => exact absurd hnil h
  · rfl

/-- Where no label starts, nothing is cut. -/
theorem pieces_eq_of_tails (h : ∀ t ∈ before.tails, labelDigits t = []) :
    pieces before = before.map .other := by
  induction before with
  | nil => exact pieces_nil
  | cons c before ih =>
    rw [List.tails] at h
    rw [pieces_other (h _ List.mem_cons_self), ih fun t ht => h t (List.mem_cons_of_mem _ ht),
      List.map_cons]

/-- A text without a point is left alone. -/
theorem pieces_plain_append (h : '.' ∉ before) (rest : List Char) :
    pieces (before ++ rest) = before.map .other ++ pieces rest := by
  induction before with
  | nil => rfl
  | cons c before ih =>
    obtain ⟨hc, hbefore⟩ := List.ne_and_not_mem_of_not_mem_cons h
    rw [List.cons_append, pieces_other (labelDigits_of_ne (Ne.symm hc)), ih hbefore]
    rfl

theorem pieces_plain (h : '.' ∉ before) : pieces before = before.map .other := by
  have hempty := pieces_plain_append h []
  rwa [pieces_nil, List.append_nil, List.append_nil] at hempty

/-- A numbered label is found if its digits end there. -/
theorem pieces_numbered (n : Nat) (h : ∀ c ∈ rest.head?, c.isDigit = false) :
    pieces ((Label.numbered n).render.toList ++ rest) = .label n :: pieces rest := by
  have htext : (Label.numbered n).render.toList ++ rest =
      '.' :: 'L' :: ((padded n).toList ++ rest) := by
    simp [Label.render]
  -- its digits are a whole run, and as a number they are `n` in spite of the padding
  have hrun : Token.Run Char.isDigit (padded n).toList rest := {
    nonempty := by simp [padded_toList]
    all := fun _ => isDigit_of_mem_padded
    whole := h }
  have hdigits : labelDigits ('.' :: 'L' :: ((padded n).toList ++ rest)) = (padded n).toList :=
    hrun.takeWhile_eq
  have hlabel : labelDigits ('.' :: 'L' :: ((padded n).toList ++ rest)) ≠ [] := by
    rw [hdigits]
    exact hrun.nonempty
  rw [htext, pieces_label hlabel, hdigits, ofDigitChars_padded, List.drop_succ_cons,
    List.drop_left]

/-- A line feed is in no label. -/
theorem labelDigits_newline :
    labelDigits (c :: (before ++ '\n' :: rest)) = labelDigits (c :: before) := by
  have hdigits : ∀ behind : List Char,
      (behind ++ '\n' :: rest).takeWhile Char.isDigit = behind.takeWhile Char.isDigit := by
    intro behind
    have hstop : ('\n' :: rest).takeWhile Char.isDigit = [] := rfl
    rw [List.takeWhile_append, hstop, List.append_nil]
    split
    · next hall =>
      exact ((List.takeWhile_prefix _).eq_of_length hall).symm
    · rfl
  -- the line feed is no `L` either
  by_cases hc : c = '.'
  · subst hc
    cases before with
    | nil => rfl
    | cons d behind =>
      by_cases hd : d = 'L'
      · subst hd
        exact hdigits behind
      · rw [List.cons_append, labelDigits_of_ne_second hd, labelDigits_of_ne_second hd]
  · rw [labelDigits_of_ne hc, labelDigits_of_ne hc]

/-- What stands before a line feed is cut for itself. -/
theorem pieces_newline :
    pieces (before ++ '\n' :: rest) = pieces before ++ .other '\n' :: pieces rest := by
  fun_induction pieces before with
  | case1 => exact pieces_other (labelDigits_of_ne (by decide))
  | case2 c behind hnone ih =>
    rw [List.cons_append, pieces_other (labelDigits_newline.trans hnone), ih]
    rfl
  | case3 c behind hsome ih =>
    -- the digits end before the line feed, so the cut does not reach it
    have hle := length_labelDigits_lt hsome
    have hlabel : labelDigits (c :: (behind ++ '\n' :: rest)) ≠ [] := by
      rwa [labelDigits_newline]
    rw [List.cons_append, pieces_label hlabel, labelDigits_newline,
      List.drop_append_of_le_length hle, ih]
    rfl

end pieces

end ClassLang
