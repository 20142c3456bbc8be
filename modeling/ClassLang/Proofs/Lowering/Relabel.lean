import ClassLang.Proofs.Lowering.Flow
import ClassLang.Proofs.Lowering.Pieces
import ClassLang.Proofs.Lowering.Shift

/-! # Labels in the text of a listing

    The numbered labels that are found in the text of a listing are those of its
    lines.

    * **`Line.ordinary`**: what lines there are in methods, behind their names.
    * **`Line.Legible`**: the label of a line, and no other, is found in its text.
    * **`Listing.Of.legible`**: if there is no point in the names of a program, all
      lines of its listings are legible.
    * **`relabel_renderAll`** and **`Listing.Of.labelCount_eq`**: the text with later
      labels is that of the lines with later labels, and its labels are as many
      as were taken. -/

namespace ClassLang

/-! ## Lines of methods -/

/-- The operand has no symbol but those of the heap. -/
def Operand.ordinary : Operand → Bool
  | cell symbol => symbol == heapBase || symbol == heapTop
  | address _ => false
  | reg _ | imm _ | mem .. => true

/-- The operands of the instruction are ordinary. -/
def Instr.ordinary : Instr → Bool
  | mov source target | arith _ source target | cmp source target =>
    source.ordinary && target.ordinary
  | lea source _ | push source => source.ordinary
  | pop _ | neg _ | cdq | idiv _ | jump _ | jumpIf .. | call _ | ret => true

/-- A line that is an ordinary instruction or has a numbered label. -/
def Line.ordinary : Line → Bool
  | instr i => i.ordinary
  | label (.numbered _) => true
  | label (.named _) | directive _ | comment _ => false

/-- All lines are ordinary. -/
def Ordinary (code : List Line) : Prop := code.all Line.ordinary = true

theorem Ordinary.append {c d : List Line} (hc : Ordinary c) (hd : Ordinary d) :
    Ordinary (c ++ d) := by
  unfold Ordinary at *
  rw [List.all_append, hc, hd]
  rfl

section ordinary

variable {site : Site} {code : List Line} {n n' : Nat}

theorem BinaryOp.lower_ordinary {op : BinaryOp} (h : op.lower n = .ok (code, n')) :
    Ordinary code := by
  cases op <;> cases h <;> rfl

theorem UnaryOp.lower_ordinary (op : UnaryOp) : Ordinary op.lower := by
  cases op <;> rfl

namespace Site

theorem load_ordinary {x : String} (h : site.load x = .ok code) : Ordinary code := by
  obtain ⟨place, _, h⟩ := except_bind_ok_iff.mp h
  cases place with
  | frame slot =>
    cases h
    rfl
  | field slot =>
    cases h
    cases slot.ty <;> rfl

theorem allocate_ordinary {cls : String} (h : site.allocate cls = .ok code) : Ordinary code := by
  unfold allocate at h
  split at h
  · cases h
  · cases h
    simp [Ordinary, instrs, Line.ordinary, Instr.ordinary, Operand.ordinary]

theorem copy_ordinary {slot : Slot} (h : copy slot = .ok code) : Ordinary code := by
  unfold copy at h
  generalize wordOffsets slot.size = offsets at h
  have hstart : Ordinary [] := rfl
  generalize ([] : List Line) = first at h hstart
  induction offsets generalizing first with
  | nil =>
    cases h
    exact hstart
  | cons o rest ih =>
    rw [List.foldlM_cons] at h
    obtain ⟨next, hnext, h⟩ := except_bind_ok_iff.mp h
    obtain ⟨_, _, hnext⟩ := except_bind_ok_iff.mp hnext
    cases hnext
    exact ih _ h (hstart.append rfl)

theorem store_ordinary {x : String} (h : site.store x = .ok code) : Ordinary code := by
  obtain ⟨place, _, h⟩ := except_bind_ok_iff.mp h
  cases place with
  | frame slot =>
    cases h
    rfl
  | field slot =>
    have hstart : Ordinary (instrs [.pop .eax, .mov site.receiver (.reg .ecx)]) := rfl
    dsimp only at h
    split at h
    · obtain ⟨access, haccess, hpure⟩ := except_bind_ok_iff.mp h
      cases hpure
      exact hstart.append (copy_ordinary haccess)
    · cases h
      exact hstart.append rfl

theorem call_ordinary {callee : Option String} {cls method : String} {args : Nat}
    (h : site.call callee cls method args = .ok code) : Ordinary code := by
  obtain ⟨owner, pushed, _, rfl⟩ := call_ok h
  rfl

end Site

namespace Expr

mutual

theorem lower_ordinary : ∀ (e : Expr) {n n' : Nat} {code : List Line},
    e.lower site n = .ok (code, n') → Ordinary code
  | .binary _ op left right, _, _, _, h => by
    obtain ⟨cl, _, hl, h⟩ := state_bind_ok_iff.mp h
    obtain ⟨cr, _, hr, h⟩ := state_bind_ok_iff.mp h
    obtain ⟨co, _, ho, h⟩ := state_bind_ok_iff.mp h
    cases h
    exact ((lower_ordinary left hl).append (lower_ordinary right hr)).append
      (BinaryOp.lower_ordinary ho)
  | .unary _ op operand, _, _, _, h => by
    obtain ⟨c, _, hc, h⟩ := state_bind_ok_iff.mp h
    cases h
    exact (lower_ordinary operand hc).append op.lower_ordinary
  | .methodCall note receiver method args, _, _, _, h => by
    obtain ⟨_, cr, _, ca, cc, hr, ha, hc, rfl⟩ := lower_methodCall_ok h
    exact ((lower_ordinary receiver hr).append (lowerArgs_ordinary args ha)).append
      (Site.call_ordinary hc)
  | .selfCall note method args, _, _, _, h => by
    obtain ⟨ca, cc, ha, hc, rfl⟩ := lower_selfCall_ok h
    have hself : Ordinary (instrs [.push site.receiver]) := rfl
    exact (hself.append (lowerArgs_ordinary args ha)).append (Site.call_ordinary hc)
  | .var _ name, _, _, _, h => Site.load_ordinary (state_lift_ok_iff.mp h).1
  | .num .., _, _, _, h | .bool .., _, _, _, h | .nothing .., _, _, _, h => by
    cases h
    rfl
  | .new _ cls, _, _, _, h => Site.allocate_ordinary (state_lift_ok_iff.mp h).1

theorem lowerArgs_ordinary : ∀ (args : List Expr) {n n' : Nat} {code : List Line},
    lowerArgs site args n = .ok (code, n') → Ordinary code
  | [], _, _, _, h => by
    cases h
    rfl
  | e :: rest, _, _, _, h => by
    obtain ⟨cr, _, hr, h⟩ := state_bind_ok_iff.mp h
    obtain ⟨ce, _, he, h⟩ := state_bind_ok_iff.mp h
    cases h
    exact (lowerArgs_ordinary rest hr).append (lower_ordinary e he)

end

end Expr

namespace Stmt

mutual

theorem lower_ordinary : ∀ (s : Stmt) {n n' : Nat} {code : List Line},
    s.lower site n = .ok (code, n') → Ordinary code
  | .assign _ name value, _, _, _, h => by
    obtain ⟨cv, _, hv, h⟩ := state_bind_ok_iff.mp h
    obtain ⟨cs, _, hlift, hpure⟩ := state_bind_ok_iff.mp h
    cases hpure
    exact (value.lower_ordinary hv).append (Site.store_ordinary (state_lift_ok_iff.mp hlift).1)
  | .cond _ test body, n, _, _, h => by
    obtain ⟨finish, _, hf, h⟩ := state_bind_ok_iff.mp h
    cases hf
    obtain ⟨ct, _, ht, h⟩ := state_bind_ok_iff.mp h
    obtain ⟨cb, _, hb, h⟩ := state_bind_ok_iff.mp h
    cases h
    have hjump : Ordinary (instrs [.pop .eax, .cmp (.imm 1) (.reg .eax),
        .jumpIf .notEqual (.numbered n)]) := rfl
    have hlast : Ordinary [.label (.numbered n)] := rfl
    exact (((test.lower_ordinary ht).append hjump).append (lowerAll_ordinary body hb)).append hlast
  | .print _ value, _, _, _, h => by
    obtain ⟨cv, _, hv, h⟩ := state_bind_ok_iff.mp h
    cases h
    exact (value.lower_ordinary hv).append rfl

theorem lowerAll_ordinary : ∀ (body : List Stmt) {n n' : Nat} {code : List Line},
    lowerAll site body n = .ok (code, n') → Ordinary code
  | [], _, _, _, h => by
    cases h
    rfl
  | s :: rest, _, _, _, h => by
    obtain ⟨cs, _, hs, h⟩ := state_bind_ok_iff.mp h
    obtain ⟨cr, _, hr, h⟩ := state_bind_ok_iff.mp h
    cases h
    exact (lower_ordinary s hs).append (lowerAll_ordinary rest hr)

end

end Stmt

/-- Behind its name a method has ordinary lines. -/
theorem Method.lower_ordinary {m : Method} (h : m.lower site n = .ok (code, n')) :
    ∃ rest, code = .label (.named (methodLabel site.cls m.name)) :: rest ∧ Ordinary rest := by
  obtain ⟨room, cb, k, cv, hb, hv, rfl⟩ := lower_parts h
  have hframe : Ordinary (prologue ++ instrs [.arith .sub (.imm room) (.reg .esp)]) := rfl
  have hend : Ordinary (instrs [.pop .eax] ++ epilogue) := rfl
  have hall := ((hframe.append (Stmt.lowerAll_ordinary m.body hb)).append
    (m.value.lower_ordinary hv)).append hend
  exact ⟨_, by simp, hall⟩

end ordinary

/-! ## Legible lines -/

/-- The number of the label that a line has or jumps to. -/
def Line.mention? : Line → Option Nat
  | label (.numbered n) | instr (.jump (.numbered n)) | instr (.jumpIf _ (.numbered n)) => some n
  | instr _ | label _ | directive _ | comment _ => none

/-! ### Texts without a point -/

theorem point_notMem_nat (n : Nat) : '.' ∉ (toString n).toList := by
  intro h
  have hdigits : '.' ∈ Nat.toDigits 10 n := by
    rw [← Nat.toList_repr]
    exact h
  exact absurd (Nat.isDigit_of_mem_toDigits (by decide) (by decide) hdigits) (by decide)

theorem point_notMem_int (i : Int) : '.' ∉ (toString i).toList := by
  cases i with
  | ofNat n => exact point_notMem_nat n
  | negSucc n =>
    show '.' ∉ ("-" ++ toString (n + 1)).toList
    rw [String.toList_append, List.mem_append, not_or]
    exact ⟨by decide, point_notMem_nat _⟩

theorem Reg.point_notMem (r : Reg) : '.' ∉ r.render.toList := by
  cases r <;> decide

theorem Operand.point_notMem {o : Operand} (h : o.ordinary = true) : '.' ∉ o.render.toList := by
  cases o with
  | reg r => exact r.point_notMem
  | imm value =>
    rw [render, String.toList_append, List.mem_append, not_or]
    exact ⟨by decide, point_notMem_int value⟩
  | address => cases h
  | cell symbol =>
    rcases Bool.or_eq_true_iff.mp h with h | h
    all_goals
      cases beq_iff_eq.mp h
      decide
  | mem offset base =>
    simp only [render, String.toList_append, List.mem_append, not_or]
    exact ⟨⟨⟨point_notMem_int offset, by decide⟩, base.point_notMem⟩, by decide⟩

/-- There is no point in an ordinary instruction that does not jump, if there is
    none in the name of the routine that it calls. -/
theorem Instr.point_notMem {i : Instr} (h : i.ordinary = true)
    (htarget : (Line.instr i).target? = none)
    (hcall : ∀ x, (Line.instr i).routine? = some x → '.' ∉ x.toList) :
    '.' ∉ i.render.toList := by
  cases i with
  | mov source target | cmp source target =>
    obtain ⟨hs, ht⟩ := Bool.and_eq_true_iff.mp h
    simp only [render, String.toList_append, List.mem_append, not_or]
    exact ⟨⟨⟨by decide, Operand.point_notMem hs⟩, by decide⟩, Operand.point_notMem ht⟩
  | arith op source target =>
    obtain ⟨hs, ht⟩ := Bool.and_eq_true_iff.mp h
    have hop : '.' ∉ op.render.toList := by cases op <;> decide
    simp only [render, String.toList_append, List.mem_append, not_or]
    exact ⟨⟨⟨⟨hop, by decide⟩, Operand.point_notMem hs⟩, by decide⟩, Operand.point_notMem ht⟩
  | lea source target =>
    simp only [render, String.toList_append, List.mem_append, not_or]
    exact ⟨⟨⟨by decide, Operand.point_notMem h⟩, by decide⟩, target.point_notMem⟩
  | push source =>
    rw [render, String.toList_append, List.mem_append, not_or]
    exact ⟨by decide, Operand.point_notMem h⟩
  | pop r | neg r | idiv r =>
    rw [render, String.toList_append, List.mem_append, not_or]
    exact ⟨by decide, r.point_notMem⟩
  | cdq | ret => decide
  | jump | jumpIf => cases htarget
  | call x =>
    rw [render, String.toList_append, List.mem_append, not_or]
    exact ⟨by decide, hcall x rfl⟩

/-! ### Labels of lines -/

/-- A line has a label or jumps to it. -/
theorem Line.mention?_eq_some_iff {l : Line} {n : Nat} :
    l.mention? = some n ↔ l.number? = some n ∨ l.target? = some (.numbered n) := by
  cases l with
  | instr i =>
    cases i with
    | jump t | jumpIf _ t => cases t <;> simp [mention?, number?, target?]
    | _ => simp [mention?, number?, target?]
  | label t => cases t <;> simp [mention?, number?, target?]
  | directive | comment => simp [mention?, number?, target?]

/-- A line without numbered labels stays as it is. -/
theorem Line.shift_of_mention {l : Line} {d : Nat} (h : l.mention? = none) : l.shift d = l := by
  cases l with
  | instr i =>
    cases i with
    | jump t | jumpIf _ t =>
      cases t with
      | numbered => cases h
      | named => rfl
    | _ => rfl
  | label t =>
    cases t with
    | numbered => cases h
    | named => rfl
  | directive | comment => rfl

/-- The numbered label of the line, and no other, is found in its text. -/
structure Line.Legible (l : Line) : Prop where
  later : ∀ d, (pieces l.render.toList).flatMap (Piece.renderLater d) = (l.shift d).render.toList
  mentions : (pieces l.render.toList).filterMap Piece.number? = l.mention?.toList

namespace Line.Legible

variable {l : Line}

/-- A line without labels is legible if no label is found in its text. -/
theorem of_plain (hpieces : pieces l.render.toList = l.render.toList.map .other)
    (hmention : l.mention? = none) : l.Legible where
  later d := by
    rw [hpieces, shift_of_mention hmention, Piece.flatMap_other]
  mentions := by
    rw [hpieces, hmention, Piece.filterMap_other]
    rfl

/-- A line with one label is legible if there is no point around it. -/
theorem of_label {n : Nat} (before after : List Char) (hbefore : '.' ∉ before)
    (hafter : '.' ∉ after) (hend : ∀ c ∈ after.head?, c.isDigit = false)
    (hrender : ∀ d, (l.shift d).render.toList =
      before ++ ((Label.numbered (n + d)).render.toList ++ after))
    (hmention : l.mention? = some n) : l.Legible := by
  have hpieces : pieces l.render.toList =
      before.map .other ++ .label n :: after.map .other := by
    have htext := hrender 0
    rw [l.shift_zero, Nat.add_zero] at htext
    rw [htext, pieces_plain_append hbefore, pieces_numbered n hend, pieces_plain hafter]
  refine ⟨fun d => ?_, ?_⟩
  · rw [hpieces, List.flatMap_append, List.flatMap_cons, Piece.flatMap_other, Piece.flatMap_other,
      hrender]
    rfl
  · rw [hpieces, hmention, List.filterMap_append, List.filterMap_cons, Piece.filterMap_other,
      Piece.filterMap_other]
    rfl

/-- A line without a point has no label. -/
theorem of_point_notMem (h : '.' ∉ l.render.toList) (hmention : l.mention? = none) :
    l.Legible :=
  of_plain (pieces_plain h) hmention

/-- An ordinary line that jumps to a numbered label at most is legible. -/
theorem of_ordinary (h : l.ordinary = true)
    (htarget : ∀ t, l.target? = some t → ∃ n, t = .numbered n)
    (hcall : ∀ x, l.routine? = some x → '.' ∉ x.toList) : l.Legible := by
  cases l with
  | label t =>
    cases t with
    | numbered n =>
      -- its text is the label and a colon
      refine of_label [] [':'] ?_ ?_ ?_ ?_ rfl
      · decide
      · decide
      · rintro c ⟨⟩
        rfl
      · intro d
        simp [Line.render, Line.shift, Label.shift]
    | named => cases h
  | instr i =>
    -- a label stands in an instruction as the target of a jump, and nowhere else
    cases hi : (Line.instr i).target? with
    | none =>
      refine of_point_notMem ?_ ?_
      · show '.' ∉ ("  " ++ i.render).toList
        rw [String.toList_append, List.mem_append, not_or]
        exact ⟨by decide, i.point_notMem h hi hcall⟩
      · cases i with
        | jump | jumpIf => cases hi
        | _ => rfl
    | some t =>
      obtain ⟨n, rfl⟩ := htarget t hi
      cases i with
      | jump target =>
        cases hi
        refine of_label "  jmp ".toList [] ?_ ?_ ?_ ?_ rfl
        · decide
        · decide
        · rintro c ⟨⟩
        · intro d
          simp [Line.render, Line.shift, Label.shift, Instr.render, Instr.shift]
      | jumpIf cond target =>
        cases hi
        refine of_label ("  " ++ cond.render ++ " ").toList [] ?_ ?_ ?_ ?_ rfl
        · cases cond <;> decide
        · decide
        · rintro c ⟨⟩
        · intro d
          simp [Line.render, Line.shift, Label.shift, Instr.render, Instr.shift]
      | _ => cases hi
  | directive | comment => cases h

end Line.Legible

/-! ## Texts -/

section texts

variable {code : List Line}

/-- A text is cut line by line, since no label goes on over a line feed. -/
theorem pieces_renderAll (code : List Line) :
    pieces (Line.renderAll code).toList =
      code.flatMap fun l => pieces l.render.toList ++ [.other '\n'] := by
  rw [Line.toList_renderAll]
  induction code with
  | nil => exact pieces_nil
  | cons l code ih =>
    rw [List.flatMap_cons, List.flatMap_cons, List.append_assoc, List.singleton_append,
      pieces_newline, ih, List.append_assoc]
    rfl

/-- A text with later labels is that of the lines with later labels. -/
theorem relabel_renderAll (h : ∀ l ∈ code, l.Legible) (d : Nat) :
    relabel d (Line.renderAll code) = Line.renderAll (shiftAll d code) := by
  apply String.toList_inj.mp
  rw [relabel, String.toList_ofList, pieces_renderAll, Line.toList_renderAll, List.flatMap_assoc,
    shiftAll, List.flatMap_map]
  refine List.flatMap_congr fun l hl => ?_
  rw [List.flatMap_append, (h l hl).later]
  rfl

example : relabel 2 "  jmp .L009\n.LC0:\n.L1000:\n" = "  jmp .L011\n.LC0:\n.L1002:\n" := by
  cbv

/-- The labels of a text are those that its lines have or jump to. -/
theorem labelsIn_renderAll (h : ∀ l ∈ code, l.Legible) :
    labelsIn (Line.renderAll code) = code.filterMap Line.mention? := by
  rw [labelsIn, pieces_renderAll, List.filterMap_flatMap, List.filterMap_eq_flatMap_toList]
  refine List.flatMap_congr fun l hl => ?_
  rw [List.filterMap_append, (h l hl).mentions]
  exact List.append_nil _

end texts

/-! ## Listings -/

namespace Listing

/-- Where a line of a listing stands: in the fixed parts, at the head of a class
    or in a block. -/
theorem cases_of_mem_lines {t : Listing} {l : Line} (hl : l ∈ t.lines) :
    l ∈ preamble ∨ l ∈ startup t.size ∨
      (∃ name ∈ t.sections.map (·.1), l = .comment ("class " ++ name)) ∨
      ∃ (b : Nat) (code : List Line), t.blocks[b]? = some code ∧ l ∈ code := by
  rcases List.mem_append.mp hl with hl | hl
  · rcases List.mem_append.mp hl with hl | hl
    · exact Or.inl hl
    · obtain ⟨s, hs, hl⟩ := List.mem_flatMap.mp hl
      rcases List.mem_cons.mp hl with rfl | hl
      · exact Or.inr (Or.inr (Or.inl ⟨s.1, List.mem_map_of_mem hs, rfl⟩))
      · obtain ⟨code, hcode, hl⟩ := List.mem_flatten.mp hl
        have hblock : code ∈ t.blocks := List.mem_flatMap.mpr ⟨s, hs, hcode⟩
        obtain ⟨b, hb⟩ := List.mem_iff_getElem?.mp hblock
        exact Or.inr (Or.inr (Or.inr ⟨b, code, hb, hl⟩))
  · exact Or.inr (Or.inl hl)

/-- No label is found in the fixed routines before the classes. -/
theorem legible_preamble : ∀ l ∈ preamble, l.Legible := by
  have hall : ∀ l ∈ preamble, (∀ t ∈ l.render.toList.tails, labelDigits t = []) ∧
      l.mention? = none := by
    decide
  intro l hl
  obtain ⟨htails, hmention⟩ := hall l hl
  exact .of_plain (pieces_eq_of_tails htails) hmention

/-- No label is found in the routine that starts a program. -/
theorem legible_startup (size : Int) : ∀ l ∈ startup size, l.Legible := by
  have hhead : ∀ l ∈ exported startRoutine, (∀ t ∈ l.render.toList.tails, labelDigits t = []) ∧
      l.mention? = none := by
    decide
  -- behind its name there are ordinary instructions and one call
  have hbehind : ((startup size).drop 3).all (fun l => l.ordinary && l.target?.isNone &&
      l.routine?.all fun x => !x.toList.contains '.') = true := rfl
  intro l hl
  rcases List.mem_append.mp (List.take_append_drop 3 (startup size) ▸ hl) with hl | hl
  · obtain ⟨htails, hmention⟩ := hhead l hl
    exact .of_plain (pieces_eq_of_tails htails) hmention
  · have hline := List.all_eq_true.mp hbehind l hl
    simp only [Bool.and_eq_true, Option.isNone_iff_eq_none, Option.all_eq_true,
      Bool.not_eq_true', List.contains_eq_mem, decide_eq_false_iff_not] at hline
    obtain ⟨⟨hordinary, htarget⟩, hcall⟩ := hline
    refine .of_ordinary hordinary ?_ fun x hx => hcall x hx
    intro t ht
    rw [htarget] at ht
    cases ht

namespace Of

variable {p : Program} {t : Listing} {n n' : Nat}

/-- The name at the head of a block is the label of a method. -/
theorem head_mem_labels (h : t.Of p n n') {b : Nat} {code : List Line} {x : String}
    (hb : t.blocks[b]? = some code) (hhead : code.head? = some (.label (.named x))) :
    x ∈ p.labels := by
  have hmem : code.head? ∈ t.blocks.map List.head? :=
    List.mem_map_of_mem (List.mem_iff_getElem?.mpr ⟨b, hb⟩)
  rw [h.heads, hhead] at hmem
  obtain ⟨y, hy, heq⟩ := List.mem_map.mp hmem
  cases heq
  exact hy

/-- If there is no point in the names of a program, all lines of its listings are
    legible. -/
theorem legible (h : t.Of p n n') (hp : p.Elaborated)
    (hnames : ∀ c ∈ p.classes, '.' ∉ c.name.toList) (hlabels : ∀ x ∈ p.labels, '.' ∉ x.toList) :
    ∀ l ∈ t.lines, l.Legible := by
  intro l hl
  rcases cases_of_mem_lines hl with hl | hl | ⟨name, hname, rfl⟩ | ⟨b, code, hb, hl⟩
  · exact legible_preamble l hl
  · exact legible_startup _ l hl
  · rw [h.names] at hname
    obtain ⟨c, hc, rfl⟩ := List.mem_map.mp hname
    refine .of_point_notMem ?_ rfl
    simp only [Line.render, String.toList_append, List.mem_append, not_or]
    exact ⟨by decide, by decide, hnames c hc⟩
  · obtain ⟨r, k, k', -, site, -, hlower⟩ := h.exists_routine hb
    obtain ⟨rest, rfl, hrest⟩ := Method.lower_ordinary hlower
    rcases List.mem_cons.mp hl with rfl | hmem
    · refine .of_point_notMem ?_ rfl
      simp only [Line.render, Label.render, String.toList_append, List.mem_append, not_or]
      exact ⟨hlabels _ (h.head_mem_labels hb rfl), by decide⟩
    · obtain ⟨i, hi⟩ := List.mem_iff_getElem?.mp hl
      refine .of_ordinary (List.all_eq_true.mp hrest l hmem) ?_ ?_
      · intro target htarget
        obtain ⟨k, _, heq, _⟩ := h.jump_forward hb hi htarget
        exact ⟨k, heq⟩
      · intro x hx
        rcases h.call_earlier hp hb hl hx with rfl | ⟨c, _, earlier, hc, hhead⟩
        · decide
        · exact hlabels x (h.head_mem_labels hc hhead)

/-- The labels to which a listing jumps are its own. -/
theorem mem_mentions_iff (h : t.Of p n n') {k : Nat} :
    k ∈ t.lines.filterMap Line.mention? ↔ k ∈ numbers t.lines := by
  have hown : ∀ l ∈ t.lines, l.target? = some (.numbered k) → k ∈ numbers t.lines := by
    intro l hl htarget
    have hfixed : ∀ l ∈ preamble ++ startup t.size, l.target? = none := by
      simp [preamble, startup, exported, directives, prologue, epilogue, instrs, Line.target?]
    rcases cases_of_mem_lines hl with hl | hl | ⟨_, _, rfl⟩ | ⟨b, code, hb, hl⟩
    · rw [hfixed l (List.mem_append_left _ hl)] at htarget
      cases htarget
    · rw [hfixed l (List.mem_append_right _ hl)] at htarget
      cases htarget
    · cases htarget
    · obtain ⟨i, hi⟩ := List.mem_iff_getElem?.mp hl
      obtain ⟨k', j, heq, _, hj⟩ := h.jump_forward hb hi htarget
      cases heq
      have hblock : code ∈ t.blocks := List.mem_iff_getElem?.mpr ⟨b, hb⟩
      have hlabel : Line.label (.numbered k) ∈ t.blocks.flatten :=
        List.mem_flatten.mpr ⟨code, hblock, List.mem_iff_getElem?.mpr ⟨j, hj⟩⟩
      rw [t.numbers_lines]
      exact List.mem_filterMap.mpr ⟨_, hlabel, rfl⟩
  rw [numbers, List.mem_filterMap, List.mem_filterMap]
  constructor
  · rintro ⟨l, hl, hmention⟩
    rcases Line.mention?_eq_some_iff.mp hmention with hnumber | htarget
    · exact ⟨l, hl, hnumber⟩
    · exact List.mem_filterMap.mp (hown l hl htarget)
  · rintro ⟨l, hl, hnumber⟩
    exact ⟨l, hl, Line.mention?_eq_some_iff.mpr (Or.inl hnumber)⟩

/-- There are as many labels in the text of a listing as were taken for it. -/
theorem labelCount_eq (h : t.Of p n n') (hlegible : ∀ l ∈ t.lines, l.Legible) :
    labelCount (Line.renderAll t.lines) = n' - n := by
  have hperm : ((t.lines.filterMap Line.mention?).dedup).Perm (numbers t.lines) := by
    refine (List.perm_ext_iff_of_nodup (List.nodup_dedup _) ?_).mpr fun k => ?_
    · exact h.numbered.once.nodup_iff.mpr List.nodup_range'
    · rw [List.mem_dedup]
      exact h.mem_mentions_iff
  rw [labelCount, labelsIn_renderAll hlegible, hperm.length_eq, h.numbered.once.length_eq,
    List.length_range']

end Of

end Listing

end ClassLang
