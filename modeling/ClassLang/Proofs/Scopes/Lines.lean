import ClassLang.Proofs.Typing.Rendered
import ClassLang.Scope

/-! # The lines of a listing of scopes

    What can be read back from the text of a listing.

    * **`Entry`** is what a listing says of one scope, and **`Entry.lines`** how it
      says it.
    * **`Line.text_inj`** and **`textOf_inj`**: legible lines can be told from their
      text, and a list of them from theirs.
    * **`Entry.lines_inj`**: and the entries can be told from the lines. -/

namespace ClassLang.ScopeTree

open Token Text

/-! ## Indentation -/

theorem toList_indent (depth : Nat) : (indent depth).toList = List.replicate (2 * depth) ' ' := by
  induction depth with
  | zero => rfl
  | succ depth ih =>
    have hstep : (indent (depth + 1)).toList = ' ' :: ' ' :: (indent depth).toList := by
      simp [indent, List.replicate_succ]
    rw [hstep, ih]
    rfl

/-- The blanks in front of a text can be told from it. -/
theorem indent_append_inj {d d' : Nat} {text text' : List Char}
    (htext : ∀ c ∈ text.head?, (c == ' ') = false) (htext' : ∀ c ∈ text'.head?, (c == ' ') = false)
    (h : (indent d).toList ++ text = (indent d').toList ++ text') : d = d' ∧ text = text' := by
  have hblank : ∀ d, ∀ c ∈ (indent d).toList, (c == ' ') = true := by
    intro d c hc
    rw [toList_indent] at hc
    rw [List.eq_of_mem_replicate hc]
    rfl
  obtain ⟨hindent, hrest⟩ := append_whole_inj (hblank d) (hblank d') htext htext' h
  have hlength := congrArg List.length hindent
  rw [toList_indent, toList_indent, List.length_replicate, List.length_replicate] at hlength
  exact ⟨by omega, hrest⟩

/-! ## Lines -/

namespace Line

/-- The names in a line are names, and the classes are no keywords. -/
def Legible : Line → Prop
  | scope _ _ => True
  | binding _ name ty => TokenKind.IsName name ∧ ty.Legible

/-- The steps by which a line is indented. -/
def depth : Line → Nat
  | scope depth _ | binding depth _ _ => depth

/-- The first word of a line. -/
def word : Line → String
  | scope _ _ => "scope"
  | binding _ name _ => name

/-- What follows the first word of a line. -/
def behind : Line → List Char
  | scope _ number => ' ' :: (Nat.toDigits 10 number ++ [':'])
  | binding _ _ ty => ':' :: ' ' :: ty.render.toList

theorem toList_text (l : Line) :
    l.text.toList = (indent l.depth).toList ++ (l.word.toList ++ l.behind) := by
  cases l with
  | scope depth number =>
    simp [text, Line.depth, word, behind]
  | binding depth name ty => simp [text, Line.depth, word, behind]

variable {l l' : Line}

theorem run_word (h : l.Legible) : Run isWordChar l.word.toList l.behind := by
  cases l with
  | scope depth number =>
    refine ⟨by simp [word], ?_, ?_⟩
    · simp [word, isWordChar, Char.isAlphanum, Char.isAlpha, Char.isLower]
    · rintro c ⟨⟩
      decide
  | binding depth name ty =>
    refine ⟨?_, fun c => isWordChar_of_isName h.1, ?_⟩
    · obtain ⟨c, rest, hname, -⟩ := h.1
      simp [word, hname]
    · rintro c ⟨⟩
      decide

/-- The blanks of a line end where its first word starts. -/
theorem head_word (h : l.Legible) :
    ∀ c ∈ (l.word.toList ++ l.behind).head?, (c == ' ') = false := by
  obtain ⟨c, rest, hword⟩ := List.exists_cons_of_ne_nil (run_word h).nonempty
  rw [hword]
  rintro _ ⟨⟩
  rw [beq_eq_false_iff_ne]
  rintro rfl
  exact absurd ((run_word h).all ' ' (by simp [hword])) (by decide)

/-- A legible line can be told from its text. -/
theorem text_inj (h : l.Legible) (h' : l'.Legible) (heq : l.text = l'.text) : l = l' := by
  have hlist := congrArg String.toList heq
  rw [toList_text, toList_text] at hlist
  obtain ⟨hdepth, hlist⟩ := indent_append_inj (head_word h) (head_word h') hlist
  obtain ⟨hword, hbehind⟩ := append_whole_inj (run_word h).all (run_word h').all
    (run_word h).whole (run_word h').whole hlist
  cases l with
  | scope depth number =>
    cases l' with
    | scope depth' number' =>
      have hdigits := List.append_cancel_right (List.cons.inj hbehind).2
      have hnumber : number = number' := by
        rw [← Nat.ofDigitChars_ten_toDigits (n := number), hdigits, Nat.ofDigitChars_ten_toDigits]
      cases hdepth
      rw [hnumber]
    | binding => cases hbehind
  | binding depth name ty =>
    cases l' with
    | scope => cases hbehind
    | binding depth' name' ty' =>
      have hrender : ty.render.toList ++ [] = ty'.render.toList ++ [] := by
        rw [(List.cons.inj (List.cons.inj hbehind).2).2]
      have hends : Ty.WordEnds [] := by simp [Ty.WordEnds]
      obtain ⟨rfl, -⟩ := Ty.render_append_inj h.2 h'.2 hends hends hrender
      cases hdepth
      cases String.toList_inj.mp hword
      rfl

/-- A legible line is one line. -/
theorem unbroken_text (h : l.Legible) : Unbroken l.text := by
  have hname : ∀ {name}, TokenKind.IsName name → Unbroken name := fun hname hmem =>
    absurd (isWordChar_of_isName hname hmem) (by decide)
  have hindent : Unbroken (indent l.depth) := by
    intro hmem
    rw [toList_indent] at hmem
    exact absurd (List.eq_of_mem_replicate hmem) (by decide)
  cases l with
  | scope depth number =>
    simp only [text, unbroken_append]
    exact ⟨⟨⟨hindent, by decide⟩, unbroken_nat number⟩, by decide⟩
  | binding depth name ty =>
    simp only [text, unbroken_append]
    have hty : Unbroken ty.render := Ty.unbroken_render fun cls hcls => hname (h.2 cls hcls).1
    exact ⟨⟨⟨hindent, hname h.1⟩, by decide⟩, hty⟩

end Line

/-! ## Texts -/

/-- The text of lines. -/
def textOf (lines : List Line) : String := String.join (lines.map (·.text ++ "\n"))

theorem toList_textOf_cons (l : Line) (ls : List Line) :
    (textOf (l :: ls)).toList = l.text.toList ++ '\n' :: (textOf ls).toList := by
  simp [textOf, String.toList_join]

theorem textOf_cons_ne_nil (l : Line) (ls : List Line) : textOf [] ≠ textOf (l :: ls) := by
  intro h
  have hlist := congrArg String.toList h
  rw [toList_textOf_cons] at hlist
  exact absurd hlist (by simp [textOf])

/-- Legible lines can be told from their text: each ends at a line feed, and none
    has one before. -/
theorem textOf_inj {ls ls' : List Line} (h : ∀ l ∈ ls, l.Legible) (h' : ∀ l ∈ ls', l.Legible)
    (heq : textOf ls = textOf ls') : ls = ls' := by
  have hwhole : ∀ rest : List Char, ∀ c ∈ ('\n' :: rest).head?, (c != '\n') = false := by
    rintro rest c ⟨⟩
    rfl
  have hall : ∀ l : Line, l.Legible → ∀ c ∈ l.text.toList, (c != '\n') = true := by
    intro l hl c hc
    rw [bne_iff_ne]
    rintro rfl
    exact Line.unbroken_text hl hc
  induction ls generalizing ls' with
  | nil =>
    cases ls' with
    | nil => rfl
    | cons l' ls' => exact absurd heq (textOf_cons_ne_nil l' ls')
  | cons l ls ih =>
    cases ls' with
    | nil => exact absurd heq.symm (textOf_cons_ne_nil l ls)
    | cons l' ls' =>
      obtain ⟨hl, hls⟩ := List.forall_mem_cons.mp h
      obtain ⟨hl', hls'⟩ := List.forall_mem_cons.mp h'
      have hlist := congrArg String.toList heq
      rw [toList_textOf_cons, toList_textOf_cons] at hlist
      obtain ⟨htext, hrest⟩ :=
        append_whole_inj (hall l hl) (hall l' hl') (hwhole _) (hwhole _) hlist
      rw [Line.text_inj hl hl' (String.toList_inj.mp htext),
        ih hls hls' (String.toList_inj.mp (List.cons.inj hrest).2)]

/-! ## Entries -/

/-- What a listing says of one scope. -/
structure Entry where
  number : Nat
  depth : Nat
  bindings : List (String × Ty)

namespace Entry

/-- The lines of a binding list, `depth` steps inside. -/
def bindingLines (depth : Nat) (bindings : List (String × Ty)) : List Line :=
  bindings.map fun (name, ty) => .binding depth name ty

/-- The lines of an entry: the heading, and one step further inside the bindings. -/
def lines (e : Entry) : List Line :=
  .scope e.depth e.number :: bindingLines (e.depth + 1) e.bindings

/-- No binding is the next line. -/
def Heading (ls : List Line) : Prop := ∀ depth name ty, ls.head? ≠ some (.binding depth name ty)

theorem heading_flatMap (es : List Entry) : Heading (es.flatMap lines) := by
  cases es with
  | nil => simp [Heading]
  | cons e es => simp [Heading, lines]

/-- The bindings of a scope end at the next heading. -/
theorem bindingLines_append_inj {depth : Nat} {bs bs' : List (String × Ty)} {ls ls' : List Line}
    (hls : Heading ls) (hls' : Heading ls')
    (h : bindingLines depth bs ++ ls = bindingLines depth bs' ++ ls') : bs = bs' ∧ ls = ls' := by
  induction bs generalizing bs' with
  | nil =>
    cases bs' with
    | nil => exact ⟨rfl, h⟩
    | cons b' bs' =>
      have hhead := congrArg List.head? h
      exact absurd hhead (hls _ _ _)
  | cons b bs ih =>
    cases bs' with
    | nil =>
      have hhead := congrArg List.head? h
      exact absurd hhead.symm (hls' _ _ _)
    | cons b' bs' =>
      obtain ⟨hline, hrest⟩ := List.cons.inj h
      obtain ⟨rfl, rfl⟩ := ih hrest
      obtain ⟨name, ty⟩ := b
      obtain ⟨name', ty'⟩ := b'
      cases hline
      exact ⟨rfl, rfl⟩

/-- The entries of a listing can be told from its lines. -/
theorem lines_inj {es es' : List Entry} (h : es.flatMap lines = es'.flatMap lines) : es = es' := by
  induction es generalizing es' with
  | nil =>
    cases es' with
    | nil => rfl
    | cons e' es' => cases h
  | cons e es ih =>
    cases es' with
    | nil => cases h
    | cons e' es' =>
      obtain ⟨number, depth, bs⟩ := e
      obtain ⟨number', depth', bs'⟩ := e'
      rw [List.flatMap_cons, List.flatMap_cons] at h
      obtain ⟨hheading, hbehind⟩ := List.cons.inj h
      cases hheading
      obtain ⟨hbindings, hrest⟩ :=
        bindingLines_append_inj (heading_flatMap es) (heading_flatMap es') hbehind
      cases hbindings
      rw [ih hrest]

end Entry

end ClassLang.ScopeTree
