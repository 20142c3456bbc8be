import ClassLang.Proofs.Grammar.Identifiers
import ClassLang.Proofs.Lowering.Reading
import ClassLang.Proofs.Lowering.Relabel

/-! # Texts of programs are read back

    The text of an accepted program tells its listing.

    * **`Listing.Of.readable`**: if the names of a program are words, all lines
      of its listings are readable.
    * **`Program.readAll_of_analyze`**: so the text that the generator makes of
      an accepted program is read back. -/

namespace ClassLang

/-! ## Symbols -/

/-- A word is a symbol. -/
theorem isSymbol_of_isWord {word : List Char} (h : Token.IsWord word) : isSymbol word = true := by
  have hchars : word.all isSymbolChar = true := by
    refine List.all_eq_true.mpr fun c hc => ?_
    have hword : (c.isAlphanum || c == '_') = true := h.chars c hc
    rw [isSymbolChar, hword]
    rfl
  cases word with
  | nil => exact absurd rfl h.nonempty
  | cons c rest =>
    have hstart := h.start c rfl
    rw [isSymbol, hchars, List.head?_cons, Option.any_some, hstart]
    rfl

/-- The label of a method is a word if its names are. -/
theorem isWord_methodLabel {cls method : String} (hc : Token.IsWord cls.toList)
    (hm : Token.IsWord method.toList) : Token.IsWord (methodLabel cls method).toList := by
  have htext : (methodLabel cls method).toList = cls.toList ++ '_' :: method.toList := by
    simp [methodLabel]
  rw [htext]
  refine ⟨by simp, ?_, ?_⟩
  · intro c hmem
    rcases List.mem_append.mp hmem with hmem | hmem
    · exact hc.chars c hmem
    · rcases List.mem_cons.mp hmem with rfl | hmem
      · rfl
      · exact hm.chars c hmem
  · rw [List.head?_append_of_ne_nil _ hc.nonempty]
    exact hc.start

/-- A word can be read as the name at the head of a block. -/
theorem Label.readable_of_isWord {name : String} (h : Token.IsWord name.toList) :
    (Label.named name).readable = true := by
  have hplain : isNumbered name = false := by
    cases hnumbered : isNumbered name with
    | false => rfl
    | true =>
      -- a numbered label starts with a point, and no word does
      have hpoint : name.toList.take 2 = ['.', 'L'] :=
        beq_iff_eq.mp (Bool.and_eq_true_iff.mp hnumbered).1
      have hmem : '.' ∈ name.toList := List.mem_of_mem_take (hpoint ▸ List.mem_cons_self)
      cases h.chars _ hmem
  rw [readable, isSymbol_of_isWord h, hplain]
  rfl

/-! ## Lines of methods -/

theorem Operand.readable_of_ordinary {o : Operand} (h : o.ordinary = true) :
    o.readable = true := by
  cases o with
  | address => cases h
  | cell symbol =>
    rcases Bool.or_eq_true_iff.mp h with h | h
    all_goals
      cases beq_iff_eq.mp h
      decide
  | reg | imm | mem => rfl

/-- An ordinary line is readable if it jumps to a numbered label and if what it
    calls is a symbol. -/
theorem Line.readable_of_ordinary {l : Line} (h : l.ordinary = true)
    (htarget : ∀ t, l.target? = some t → ∃ n, t = .numbered n)
    (hcall : ∀ x, l.routine? = some x → isSymbol x.toList = true) : l.readable = true := by
  cases l with
  | label t =>
    cases t with
    | numbered n => rfl
    | named => cases h
  | instr i =>
    cases i with
    | mov source target | arith _ source target | cmp source target =>
      obtain ⟨hs, ht⟩ := Bool.and_eq_true_iff.mp h
      exact Bool.and_eq_true_iff.mpr
        ⟨source.readable_of_ordinary hs, target.readable_of_ordinary ht⟩
    | lea source _ | push source => exact source.readable_of_ordinary h
    | jump target | jumpIf _ target =>
      obtain ⟨n, rfl⟩ := htarget target rfl
      rfl
    | call target => exact hcall target rfl
    | pop | neg | cdq | idiv | ret => rfl
  | directive | comment => cases h

/-! ## Listings -/

namespace Listing

theorem readable_preamble : ∀ l ∈ preamble, l.readable = true := by decide

theorem readable_startup (size : Int) : ∀ l ∈ startup size, l.readable = true := by
  have hall : (startup size).all Line.readable = true := rfl
  exact List.all_eq_true.mp hall

namespace Of

variable {p : Program} {t : Listing} {n n' : Nat}

/-- If the names of a program are words, all lines of its listings are readable. -/
theorem readable (h : t.Of p n n') (hp : p.Elaborated)
    (hnames : ∀ c ∈ p.classes, Token.IsWord c.name.toList ∧
      ∀ m ∈ c.methods, Token.IsWord m.name.toList) :
    ∀ l ∈ t.lines, l.readable = true := by
  have hlabels : ∀ x ∈ p.labels, Token.IsWord x.toList := by
    intro x hx
    obtain ⟨c, hc, hx⟩ := List.mem_flatMap.mp hx
    obtain ⟨m, hm, rfl⟩ := List.mem_map.mp hx
    exact isWord_methodLabel (hnames c hc).1 ((hnames c hc).2 m hm)
  intro l hl
  rcases cases_of_mem_lines hl with hl | hl | ⟨name, hname, rfl⟩ | ⟨b, code, hb, hl⟩
  · exact readable_preamble l hl
  · exact readable_startup _ l hl
  · rw [h.names] at hname
    obtain ⟨c, hc, rfl⟩ := List.mem_map.mp hname
    have hname : '\n' ∉ c.name.toList := fun hmem => by cases (hnames c hc).1.chars _ hmem
    simp [Line.readable, hname]
  · obtain ⟨r, k, k', -, site, -, hlower⟩ := h.exists_routine hb
    obtain ⟨rest, rfl, hrest⟩ := Method.lower_ordinary hlower
    rcases List.mem_cons.mp hl with rfl | hmem
    · exact Label.readable_of_isWord (hlabels _ (h.head_mem_labels hb rfl))
    · obtain ⟨i, hi⟩ := List.mem_iff_getElem?.mp hl
      refine Line.readable_of_ordinary (List.all_eq_true.mp hrest l hmem) ?_ ?_
      · intro target htarget
        obtain ⟨k, _, heq, _⟩ := h.jump_forward hb hi htarget
        exact ⟨k, heq⟩
      · intro x hx
        rcases h.call_earlier hp hb hl hx with rfl | ⟨c, _, earlier, hc, hhead⟩
        · decide
        · exact isSymbol_of_isWord (hlabels x (h.head_mem_labels hc hhead))

end Of

end Listing

/-! ## Accepted programs -/

namespace Program

/-- The names of an accepted program are words. -/
theorem isWord_of_analyze {source : String} {a : Analysis} (h : analyze source = .ok a) :
    ∀ c ∈ a.program.classes, Token.IsWord c.name.toList ∧
      ∀ m ∈ c.methods, Token.IsWord m.name.toList := by
  obtain ⟨p, hp, hy⟩ := exists_of_analyze h
  obtain ⟨herase, -⟩ := check_sound (erase_of_ofSource hp) hy
  have hwords := isWord_of_ofSource hp
  intro c hc
  -- the tree that was read has the same names
  have hc' : c.erase ∈ p.classes := herase ▸ List.mem_map_of_mem hc
  have hidents : ∀ x ∈ c.erase.identifiers, x ∈ p.identifiers := fun x hx =>
    List.mem_flatMap.mpr ⟨_, hc', hx⟩
  refine ⟨hwords c.name (hidents _ List.mem_cons_self), ?_⟩
  intro m hm
  have hm' : m.erase ∈ c.erase.methods := List.mem_map_of_mem hm
  refine hwords m.name (hidents _ (List.mem_append_right _ ?_))
  exact List.mem_flatMap.mpr ⟨_, hm', List.mem_cons_self⟩

/-- The text that is made of an accepted program is read back. -/
theorem readAll_of_analyze {source : String} {a : Analysis} (h : analyze source = .ok a)
    {t : Listing} {n n' : Nat} (ht : t.Of a.program n n') :
    Line.readAll (Line.renderAll t.lines) = some t.lines :=
  Line.readAll_renderAll (ht.readable (elaborated_of_analyze h).1 (isWord_of_analyze h))

end Program

end ClassLang
