import ClassLang.Assembly.Read
import ClassLang.Proofs.Lowering.Symbols

/-! # Listings are read back

    The text of a listing tells its lines.

    * **`Line.readable`** is what reading asks of a line: names of symbols are
      names, and what is free text has no line feed.
    * **`Operand.read_render`**, **`Instr.read_render`** and
      **`Line.read_render`**: what is written of each part is read back.
    * **`Line.readAll_renderAll`** is about whole texts, and
      **`Line.renderAll_inj`**: listings with one text are the same. -/

namespace ClassLang

/-! ## Readable lines -/

/-- The symbol that an operand names is a symbol. -/
def Operand.readable : Operand → Bool
  | reg _ | imm _ | mem .. => true
  | address symbol | cell symbol => isSymbol symbol.toList

/-- The name is one, and it does not look like a numbered label. -/
def Label.readable : Label → Bool
  | numbered _ => true
  | named name => isSymbol name.toList && !isNumbered name

def Instr.readable : Instr → Bool
  | mov source target | arith _ source target | cmp source target =>
    source.readable && target.readable
  | lea source _ | push source => source.readable
  | jump target | jumpIf _ target => target.readable
  | call target => isSymbol target.toList
  | pop _ | neg _ | cdq | idiv _ | ret => true

def Directive.readable : Directive → Bool
  | text | readOnlyData => true
  | common symbol .. | globalSymbol symbol | functionType symbol => isSymbol symbol.toList
  | string escaped => !escaped.toList.contains '\n'

/-- The line can be told from its text. -/
def Line.readable : Line → Bool
  | instr i => i.readable
  | label l => l.readable
  | directive d => d.readable
  | comment text => !text.toList.contains '\n'

/-! ## Words and numbers -/

section words

variable {c : Char} {before rest : List Char}

theorem cutAt_append (h : c ∉ before) : cutAt c (before ++ c :: rest) = (before, rest) := by
  induction before with
  | nil => rw [List.nil_append, cutAt, if_pos rfl]
  | cons x before ih =>
    obtain ⟨hx, hbefore⟩ := List.ne_and_not_mem_of_not_mem_cons h
    rw [List.cons_append, cutAt, if_neg (Ne.symm hx), ih hbefore]

end words

theorem isSymbolChar_of_mem {text : List Char} (h : isSymbol text = true) {c : Char}
    (hc : c ∈ text) : isSymbolChar c = true := by
  rw [isSymbol, Bool.and_eq_true] at h
  exact List.all_eq_true.mp h.1 c hc

theorem readSymbol_eq {symbol : String} (h : isSymbol symbol.toList = true) :
    readSymbol symbol.toList = some symbol := by
  rw [readSymbol, if_pos h, String.ofList_toList]

theorem readSymbol_of_not {text : List Char} (h : isSymbol text = false) :
    readSymbol text = none := by
  rw [readSymbol, h]
  rfl

theorem readNat_toString (n : Nat) : readNat (toString n).toList = some n := by
  have htext : (toString n).toList = Nat.toDigits 10 n := Nat.toList_repr
  have hdigits : (Nat.toDigits 10 n).all Char.isDigit = true :=
    List.all_eq_true.mpr fun _ => Nat.isDigit_of_mem_toDigits (by decide) (by decide)
  rw [readNat, htext, if_pos ⟨Nat.toDigits_ne_nil, hdigits⟩, Nat.ofDigitChars_ten_toDigits]

/-- A number is written with digits, behind a minus sign if it is negative. -/
theorem toString_int_cases (n : Int) :
    (∃ k : Nat, n = k ∧ (toString n).toList = (toString k).toList) ∨
      ∃ k : Nat, n = -(k : Int) ∧ (toString n).toList = '-' :: (toString k).toList := by
  cases n with
  | ofNat k => exact Or.inl ⟨k, rfl, rfl⟩
  | negSucc k =>
    refine Or.inr ⟨k + 1, Int.negSucc_eq k, ?_⟩
    show ("-" ++ toString (k + 1)).toList = _
    rw [String.toList_append]
    rfl

theorem isDigit_of_mem_toString {n : Nat} {c : Char} (h : c ∈ (toString n).toList) :
    c.isDigit = true := by
  have htext : (toString n).toList = Nat.toDigits 10 n := Nat.toList_repr
  rw [htext] at h
  exact Nat.isDigit_of_mem_toDigits (by decide) (by decide) h

theorem readInt_toString (n : Int) : readInt (toString n).toList = some n := by
  rcases toString_int_cases n with ⟨k, rfl, htext⟩ | ⟨k, rfl, htext⟩
  · have hhead : (toString k).toList.head? ≠ some '-' := by
      intro heq
      cases isDigit_of_mem_toString (List.mem_of_mem_head? heq)
    rw [htext, readInt, if_neg hhead, readNat_toString]
    rfl
  · rw [htext, readInt, List.head?_cons, if_pos rfl, List.tail_cons, readNat_toString]
    rfl

/-- The characters of a number. -/
theorem mem_toString_int {n : Int} {c : Char} (h : c ∈ (toString n).toList) :
    c = '-' ∨ c.isDigit = true := by
  rcases toString_int_cases n with ⟨k, _, htext⟩ | ⟨k, _, htext⟩
  · exact Or.inr (isDigit_of_mem_toString (htext ▸ h))
  · rw [htext] at h
    rcases List.mem_cons.mp h with rfl | h
    · exact Or.inl rfl
    · exact Or.inr (isDigit_of_mem_toString h)

/-! ## Operands and labels -/

theorem Reg.read_render (r : Reg) : Reg.read r.render.toList = some r := by
  cases r <;> decide

theorem ArithOp.read_render (op : ArithOp) : ArithOp.read op.render.toList = some op := by
  cases op <;> decide

theorem JumpCond.read_render (cond : JumpCond) :
    JumpCond.read cond.render.toList = some cond := by
  cases cond <;> decide

/-- A symbol starts with none of the marks of other operands. -/
theorem head?_ne_of_symbol {text : List Char} (h : isSymbol text = true) {c : Char}
    (hc : isSymbolChar c = false) : text.head? ≠ some c := by
  intro heq
  have hchar := isSymbolChar_of_mem h (List.mem_of_mem_head? heq)
  rw [hc] at hchar
  cases hchar

/-- A symbol is no number. -/
theorem readInt_of_symbol {text : List Char} (h : isSymbol text = true) : readInt text = none := by
  have hstart : text.head?.any (!·.isDigit) = true := (Bool.and_eq_true_iff.mp h).2
  cases text with
  | nil => rfl
  | cons c rest =>
    have hdigits : ¬ (c :: rest ≠ [] ∧ (c :: rest).all Char.isDigit = true) := by
      rintro ⟨_, hall⟩
      have hdigit := List.all_eq_true.mp hall c List.mem_cons_self
      simp [hdigit] at hstart
    rw [readInt, if_neg (head?_ne_of_symbol h (by decide)), readNat, if_neg hdigits]
    rfl

/-- A number starts with a digit or with a minus sign. -/
theorem toString_int_cons (n : Int) :
    ∃ c rest, (toString n).toList = c :: rest ∧ (c = '-' ∨ c.isDigit = true) := by
  cases htext : (toString n).toList with
  | nil =>
    rcases toString_int_cases n with ⟨k, _, hk⟩ | ⟨k, _, hk⟩
    · have hempty : Nat.toDigits 10 k = [] := Nat.toList_repr ▸ hk.symm.trans htext
      exact absurd hempty Nat.toDigits_ne_nil
    · cases htext.symm.trans hk
  | cons c rest => exact ⟨c, rest, rfl, mem_toString_int (htext ▸ List.mem_cons_self)⟩

/-- A number is no symbol, whatever stands behind it. -/
theorem isSymbol_int_append (n : Int) (rest : List Char) :
    isSymbol ((toString n).toList ++ rest) = false := by
  obtain ⟨c, digits, htext, rfl | hdigit⟩ := toString_int_cons n
  · rw [htext]
    rfl
  · rw [htext, isSymbol, List.cons_append, List.head?_cons, Option.any_some, hdigit]
    exact Bool.and_false _

/-- May `c` stand in an operand? -/
def isOperandChar (c : Char) : Bool :=
  isSymbolChar c || ['%', '$', '-', '(', ')'].contains c

theorem isOperandChar_of_digit {c : Char} (h : c.isDigit = true) : isOperandChar c = true := by
  simp [isOperandChar, isSymbolChar, Char.isAlphanum, h]

theorem isOperandChar_of_int {n : Int} {c : Char} (h : c ∈ (toString n).toList) :
    isOperandChar c = true := by
  rcases mem_toString_int h with rfl | h
  · rfl
  · exact isOperandChar_of_digit h

theorem isOperandChar_of_reg {r : Reg} {c : Char} (h : c ∈ r.render.toList) :
    isOperandChar c = true := by
  have hall : r.render.toList.all isOperandChar = true := by cases r <;> decide
  exact List.all_eq_true.mp hall c h

theorem isOperandChar_of_symbol {x : String} (hx : isSymbol x.toList = true) {c : Char}
    (h : c ∈ x.toList) : isOperandChar c = true := by
  rw [isOperandChar, isSymbolChar_of_mem hx h]
  rfl

theorem Operand.isOperandChar_of_mem {o : Operand} (h : o.readable = true) {c : Char}
    (hc : c ∈ o.render.toList) : isOperandChar c = true := by
  cases o with
  | reg r => exact isOperandChar_of_reg hc
  | imm value =>
    rcases List.mem_append.mp (String.toList_append ▸ hc) with hc | hc
    · rcases List.mem_singleton.mp hc with rfl
      rfl
    · exact isOperandChar_of_int hc
  | address symbol =>
    rcases List.mem_append.mp (String.toList_append ▸ hc) with hc | hc
    · rcases List.mem_singleton.mp hc with rfl
      rfl
    · exact isOperandChar_of_symbol h hc
  | cell symbol => exact isOperandChar_of_symbol h hc
  | mem offset base =>
    simp only [render, String.toList_append, List.mem_append] at hc
    rcases hc with ((hc | hc) | hc) | hc
    · exact isOperandChar_of_int hc
    · rcases List.mem_singleton.mp hc with rfl
      rfl
    · exact isOperandChar_of_reg hc
    · rcases List.mem_singleton.mp hc with rfl
      rfl

/-- What is written of an operand is read back. -/
theorem Operand.read_render {o : Operand} (h : o.readable = true) :
    read o.render.toList = some o := by
  cases o with
  | reg r =>
    have hhead : r.render.toList.head? = some '%' := by cases r <;> decide
    rw [render, read, if_pos hhead, r.read_render]
    rfl
  | imm value =>
    have htext : (imm value).render.toList = '$' :: (toString value).toList := by
      simp [render]
    rw [htext, read, List.head?_cons, if_neg (by decide), if_pos rfl, List.tail_cons,
      readInt_toString]
  | address symbol =>
    have htext : (address symbol).render.toList = '$' :: symbol.toList := by
      simp [render]
    rw [htext, read, List.head?_cons, if_neg (by decide), if_pos rfl, List.tail_cons,
      readInt_of_symbol h, readSymbol_eq h]
    rfl
  | cell symbol =>
    rw [render, read, if_neg (head?_ne_of_symbol h (by decide)),
      if_neg (head?_ne_of_symbol h (by decide)), readSymbol_eq h]
  | mem offset base =>
    have htext : (mem offset base).render.toList =
        (toString offset).toList ++ '(' :: (base.render.toList ++ [')']) := by
      simp [render]
    -- the offset ends at the first bracket, the register at the second one
    have hoffset : '(' ∉ (toString offset).toList := by
      intro hc
      rcases mem_toString_int hc with heq | hdigit
      · cases heq
      · cases hdigit
    have hbase : ')' ∉ base.render.toList := by cases base <;> decide
    have hsymbol := readSymbol_of_not (isSymbol_int_append offset ('(' :: (base.render.toList ++ [')'])))
    -- a text that starts with a minus or a digit is no other operand
    have hhead : ∀ c, c ≠ '-' → c.isDigit = false →
        ((toString offset).toList ++ '(' :: (base.render.toList ++ [')'])).head? ≠ some c := by
      rintro c hminus hdigit heq
      obtain ⟨first, digits, hfirst, hkind⟩ := toString_int_cons offset
      rw [hfirst] at heq
      cases heq
      rcases hkind with rfl | hkind
      · exact hminus rfl
      · cases hdigit.symm.trans hkind
    rw [htext, read, if_neg (hhead '%' (by decide) rfl), if_neg (hhead '$' (by decide) rfl), hsymbol,
      cutAt_append hoffset]
    simp only [readInt_toString, cutAt_append hbase, base.read_render]
    rfl

/-- Two operands are read back. -/
theorem Operand.readPair_render {source target : Operand} (hs : source.readable = true)
    (ht : target.readable = true) :
    readPair (source.render ++ ", " ++ target.render).toList = some (source, target) := by
  have htext : (source.render ++ ", " ++ target.render).toList =
      source.render.toList ++ ',' :: ' ' :: target.render.toList := by
    simp
  have hcomma : ',' ∉ source.render.toList := fun hc => by
    cases source.isOperandChar_of_mem hs hc
  rw [htext, readPair, cutAt_append hcomma]
  simp only [List.tail_cons, read_render hs, read_render ht]
  rfl

/-- What is written of a label is read back. -/
theorem Label.read_render {l : Label} (h : l.readable = true) : read l.render.toList = some l := by
  cases l with
  | numbered n =>
    have hdigits : (numbered n).render.toList.drop 2 = (padded n).toList := by
      simp [render]
    rw [read, hdigits, ofDigitChars_padded]
    exact if_pos rfl
  | named name =>
    obtain ⟨hsymbol, hplain⟩ := Bool.and_eq_true_iff.mp h
    -- a name of this form would be taken for the numbered label
    have hne : (numbered (Nat.ofDigitChars 10 (name.toList.drop 2) 0)).render.toList ≠
        name.toList := by
      intro heq
      rw [← String.toList_inj.mp heq, isNumbered_numbered] at hplain
      cases hplain
    rw [render, read, if_neg hne, readSymbol_eq hsymbol]
    rfl

/-- A label is written in the characters of symbols. -/
theorem Label.isSymbolChar_of_mem {l : Label} (h : l.readable = true) {c : Char}
    (hc : c ∈ l.render.toList) : isSymbolChar c = true := by
  cases l with
  | numbered n =>
    rcases List.mem_append.mp (String.toList_append ▸ hc) with hc | hc
    · have hall : ".L".toList.all ClassLang.isSymbolChar = true := by decide
      exact List.all_eq_true.mp hall c hc
    · simp [ClassLang.isSymbolChar, Char.isAlphanum, isDigit_of_mem_padded hc]
  | named name => exact ClassLang.isSymbolChar_of_mem (Bool.and_eq_true_iff.mp h).1 hc

/-! ## Lines -/

namespace Instr

/-- The name of an instruction ends where the blank stands. -/
theorem read_eq (name : String) {text rest : List Char}
    (hname : ' ' ∉ name.toList ∧ ArithOp.read name.toList = none ∧
      JumpCond.read name.toList = none)
    (htext : text = name.toList ++ ' ' :: rest) : read text = readOperands name rest := by
  rw [htext, read, cutAt_append hname.1]
  simp only [hname.2.1, hname.2.2, String.ofList_toList]

/-- What is written of an instruction is read back. -/
theorem read_render {i : Instr} (h : i.readable = true) : read i.render.toList = some i := by
  cases i with
  | mov source target =>
    obtain ⟨hs, ht⟩ := Bool.and_eq_true_iff.mp h
    have htext : (mov source target).render.toList =
        "movl".toList ++ ' ' :: (source.render ++ ", " ++ target.render).toList := by
      simp [render]
    rw [read_eq "movl" (by decide) htext, readOperands, Operand.readPair_render hs ht]
    rfl
  | lea source target =>
    have htext : (lea source target).render.toList =
        "leal".toList ++ ' ' :: (source.render ++ ", " ++ (Operand.reg target).render).toList := by
      simp [render, Operand.render]
    rw [read_eq "leal" (by decide) htext, readOperands, Operand.readPair_render h rfl]
  | push source =>
    have htext : (push source).render.toList = "pushl".toList ++ ' ' :: source.render.toList := by
      simp [render]
    rw [read_eq "pushl" (by decide) htext, readOperands, Operand.read_render h]
    rfl
  | pop target =>
    have htext : (pop target).render.toList = "popl".toList ++ ' ' :: target.render.toList := by
      simp [render]
    rw [read_eq "popl" (by decide) htext, readOperands, target.read_render]
    rfl
  | arith op source target =>
    obtain ⟨hs, ht⟩ := Bool.and_eq_true_iff.mp h
    have htext : (arith op source target).render.toList =
        op.render.toList ++ ' ' :: (source.render ++ ", " ++ target.render).toList := by
      simp [render]
    have hname : ' ' ∉ op.render.toList := by cases op <;> decide
    rw [htext, read, cutAt_append hname]
    simp only [op.read_render, Operand.readPair_render hs ht]
    rfl
  | cmp source target =>
    obtain ⟨hs, ht⟩ := Bool.and_eq_true_iff.mp h
    have htext : (cmp source target).render.toList =
        "cmpl".toList ++ ' ' :: (source.render ++ ", " ++ target.render).toList := by
      simp [render]
    rw [read_eq "cmpl" (by decide) htext, readOperands, Operand.readPair_render hs ht]
    rfl
  | neg target =>
    have htext : (neg target).render.toList = "negl".toList ++ ' ' :: target.render.toList := by
      simp [render]
    rw [read_eq "negl" (by decide) htext, readOperands, target.read_render]
    rfl
  | idiv divisor =>
    have htext : (idiv divisor).render.toList = "idivl".toList ++ ' ' :: divisor.render.toList := by
      simp [render]
    rw [read_eq "idivl" (by decide) htext, readOperands, divisor.read_render]
    rfl
  | jump target =>
    have htext : (jump target).render.toList = "jmp".toList ++ ' ' :: target.render.toList := by
      simp [render]
    rw [read_eq "jmp" (by decide) htext, readOperands, Label.read_render h]
    rfl
  | jumpIf cond target =>
    have htext : (jumpIf cond target).render.toList =
        cond.render.toList ++ ' ' :: target.render.toList := by
      simp [render]
    have hname : ' ' ∉ cond.render.toList ∧ ArithOp.read cond.render.toList = none := by
      cases cond <;> decide
    rw [htext, read, cutAt_append hname.1]
    simp only [hname.2, cond.read_render, Label.read_render h]
    rfl
  | call target =>
    have htext : (call target).render.toList = "call".toList ++ ' ' :: target.toList := by
      simp [render]
    rw [read_eq "call" (by decide) htext, readOperands, readSymbol_eq h]
    rfl
  | cdq => decide
  | ret => decide

/-- A readable instruction has no line feed. -/
theorem newline_notMem {i : Instr} (h : i.readable = true) : '\n' ∉ i.render.toList := by
  have hreg : ∀ r : Reg, '\n' ∉ r.render.toList := fun r hc => by cases isOperandChar_of_reg hc
  have hoperand : ∀ o : Operand, o.readable = true → '\n' ∉ o.render.toList :=
    fun o ho hc => by cases o.isOperandChar_of_mem ho hc
  have hlabel : ∀ l : Label, l.readable = true → '\n' ∉ l.render.toList :=
    fun l hl hc => by cases l.isSymbolChar_of_mem hl hc
  cases i with
  | mov source target | cmp source target =>
    obtain ⟨hs, ht⟩ := Bool.and_eq_true_iff.mp h
    simp [render, hoperand source hs, hoperand target ht]
  | arith op source target =>
    obtain ⟨hs, ht⟩ := Bool.and_eq_true_iff.mp h
    cases op <;> simp [render, ArithOp.render, hoperand source hs, hoperand target ht]
  | lea source target => simp [render, hoperand source h, hreg target]
  | push source => simp [render, hoperand source h]
  | pop target | neg target | idiv target => simp [render, hreg target]
  | jump target => simp [render, hlabel target h]
  | jumpIf cond target => cases cond <;> simp [render, JumpCond.render, hlabel target h]
  | call target =>
    have htarget : '\n' ∉ target.toList := fun hc => by cases isSymbolChar_of_mem h hc
    simp [render, htarget]
  | cdq => decide
  | ret => decide

/-- An instruction starts with a letter. -/
theorem head?_render_ne (i : Instr) : i.render.toList.head? ≠ some '.' := by
  cases i with
  | arith op source target => cases op <;> simp [render, ArithOp.render]
  | jumpIf cond target => cases cond <;> simp [render, JumpCond.render]
  | _ => simp [render]

end Instr

/-- What is written of a directive is read back. -/
theorem Directive.read_render {d : Directive} (h : d.readable = true) :
    read d.render.toList = some d := by
  cases d with
  | text => decide
  | readOnlyData => decide
  | common symbol size alignment =>
    have htext : (common symbol size alignment).render.toList = ".comm".toList ++ ' ' ::
        (symbol.toList ++ ',' :: ((toString size).toList ++ ',' :: (toString alignment).toList)) := by
      simp [render]
    have hsymbol : ',' ∉ symbol.toList := fun hc => by
      cases isSymbolChar_of_mem h hc
    have hsize : ',' ∉ (toString size).toList := fun hc => by
      rcases mem_toString_int hc with heq | heq <;> cases heq
    rw [htext, read, cutAt_append (by decide)]
    simp only [String.ofList_toList, cutAt_append hsymbol, cutAt_append hsize, readSymbol_eq h,
      readInt_toString]
    rfl
  | string escaped =>
    have htext : (string escaped).render.toList =
        ".string".toList ++ ' ' :: '"' :: (escaped.toList ++ ['"']) := by
      simp [render]
    rw [htext, read, cutAt_append (by decide)]
    simp [String.ofList_toList]
  | globalSymbol symbol =>
    have htext : (globalSymbol symbol).render.toList = ".globl".toList ++ ' ' :: symbol.toList := by
      simp [render]
    rw [htext, read, cutAt_append (by decide)]
    simp only [String.ofList_toList, readSymbol_eq h]
    rfl
  | functionType symbol =>
    have htext : (functionType symbol).render.toList =
        ".type".toList ++ ' ' :: (symbol.toList ++ ',' :: " @function".toList) := by
      simp [render]
    have hsymbol : ',' ∉ symbol.toList := fun hc => by
      cases isSymbolChar_of_mem h hc
    rw [htext, read, cutAt_append (by decide)]
    simp only [String.ofList_toList, cutAt_append hsymbol, readSymbol_eq h]
    rfl

/-- A readable directive has no line feed. -/
theorem Directive.newline_notMem {d : Directive} (h : d.readable = true) :
    '\n' ∉ d.render.toList := by
  have hint : ∀ n : Int, '\n' ∉ (toString n).toList := fun n hc => by
    rcases mem_toString_int hc with heq | heq <;> cases heq
  have hsymbol : ∀ x : String, isSymbol x.toList = true → '\n' ∉ x.toList :=
    fun x hx hc => by cases isSymbolChar_of_mem hx hc
  cases d with
  | text => decide
  | readOnlyData => decide
  | common symbol size alignment =>
    have hsize := hint size
    have halignment := hint alignment
    simp only [render, String.toList_append, List.mem_append, not_or]
    exact ⟨⟨⟨⟨⟨by decide, hsymbol symbol h⟩, by decide⟩, hsize⟩, by decide⟩, halignment⟩
  | string escaped =>
    have hescaped : '\n' ∉ escaped.toList := by simpa [readable] using h
    simp [render, hescaped]
  | globalSymbol symbol | functionType symbol => simp [render, hsymbol symbol h]

namespace Line

/-- What is written of a line is read back. -/
theorem read_render {l : Line} (h : l.readable = true) : read l.render.toList = some l := by
  cases l with
  | comment remark =>
    have htext : (comment remark).render.toList = '#' :: ' ' :: remark.toList := by
      simp [render]
    rw [htext, read, String.ofList_toList]
  | directive d =>
    have htext : (directive d).render.toList = ' ' :: ' ' :: d.render.toList := by
      simp [render]
    have hhead : d.render.toList.head? = some '.' := by cases d <;> simp [Directive.render]
    rw [htext, read, if_pos hhead, d.read_render h]
    rfl
  | instr i =>
    have htext : (instr i).render.toList = ' ' :: ' ' :: i.render.toList := by
      simp [render]
    rw [htext, read, if_neg i.head?_render_ne, i.read_render h]
    rfl
  | label l =>
    have htext : (label l).render.toList = l.render.toList ++ [':'] := by
      simp [render]
    -- neither a remark nor an indented line starts like this
    have hstart : ∀ c rest, l.render.toList ++ [':'] = c :: rest → c = ':' ∨ isSymbolChar c = true := by
      intro c rest heq
      have hc : c ∈ l.render.toList ++ [':'] := heq ▸ List.mem_cons_self
      rcases List.mem_append.mp hc with hc | hc
      · exact Or.inr (l.isSymbolChar_of_mem h hc)
      · exact Or.inl (List.mem_singleton.mp hc)
    rw [htext, read]
    · rw [List.getLast?_concat, if_pos rfl, List.dropLast_concat, l.read_render h]
      rfl
    · intro remark heq
      rcases hstart _ _ heq with hc | hc <;> cases hc
    · intro rest heq
      rcases hstart _ _ heq with hc | hc <;> cases hc

/-- A readable line has no line feed. -/
theorem newline_notMem {l : Line} (h : l.readable = true) : '\n' ∉ l.render.toList := by
  cases l with
  | comment remark =>
    have hremark : '\n' ∉ remark.toList := by simpa [readable] using h
    simp [render, hremark]
  | directive d => simp [render, d.newline_notMem h]
  | instr i => simp [render, i.newline_notMem h]
  | label l =>
    have hl : '\n' ∉ l.render.toList := fun hc => by cases l.isSymbolChar_of_mem h hc
    simp [render, hl]

end Line

/-! ## Texts -/

/-- The first line of a text ends at its line feed. -/
theorem textLines_append {line rest : List Char} (h : '\n' ∉ line) :
    textLines (line ++ '\n' :: rest) = line :: textLines rest := by
  induction line with
  | nil => rw [List.nil_append, textLines, if_pos rfl]
  | cons c line ih =>
    obtain ⟨hc, hline⟩ := List.ne_and_not_mem_of_not_mem_cons h
    rw [List.cons_append, textLines, if_neg (Ne.symm hc), ih hline]

namespace Line

/-- The text of readable lines is read back. -/
theorem readAll_renderAll {lines : List Line} (h : ∀ l ∈ lines, l.readable = true) :
    readAll (renderAll lines) = some lines := by
  rw [readAll, toList_renderAll]
  induction lines with
  | nil => rfl
  | cons l lines ih =>
    -- the first line feed of the text is the one behind the first line
    have hl := h l List.mem_cons_self
    rw [List.flatMap_cons, List.append_assoc, List.singleton_append,
      textLines_append (newline_notMem hl), List.mapM_cons, read_render hl,
      ih fun l' hl' => h l' (List.mem_cons_of_mem _ hl')]
    rfl

/-- Readable lines can be told from their text. -/
theorem renderAll_inj {lines lines' : List Line} (h : ∀ l ∈ lines, l.readable = true)
    (h' : ∀ l ∈ lines', l.readable = true) (heq : renderAll lines = renderAll lines') :
    lines = lines' := by
  have hread := readAll_renderAll h
  rw [heq, readAll_renderAll h'] at hread
  exact (Option.some.inj hread).symm

end Line

end ClassLang
