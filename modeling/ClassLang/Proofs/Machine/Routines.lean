import ClassLang.Proofs.Machine.Stores

/-! # Calls and routines

    How routines are entered and left.

    * **`step_call`** and **`step_ret`** are the two jumps between routines.
    * **`enter`** makes a frame and **`leave`** takes it away.
    * **`branch`** goes into a conditional block or around it.
    * **`print_call`** is a call of the routine that prints a number. -/

namespace ClassLang

namespace Machine

variable {M : Machine} {s s' t : State} {d n : Nat} {w : BitVec 32}

/-! ## Jumps between routines -/

/-- A call puts the address of the next instruction on the stack. -/
theorem step_call (hM : M.WellPlaced) {target : String} {i : Nat}
    (h : M.lines[s.line]? = some (.instr (.call target))) (hne : target ≠ "printf")
    (hi : M.find target = some i) (hesp : s.regs .esp = M.slot d) (hd : M.HasSlot (d + 1)) :
    M.step s = some (((s.setReg .esp (M.slot (d + 1))).setWord (M.slot (d + 1))
      (M.place (s.line + 1))).goOn i) := by
  simp only [step, h]
  rw [if_neg hne, push, hesp, slot_sub_four, store_of_usable (usable_slot hM hd),
    Option.bind_some, goTo, hi]
  rfl

/-- A return goes on at the instruction whose address lies on the stack. -/
theorem step_ret (hM : M.WellPlaced) (h : M.lines[s.line]? = some (.instr .ret))
    (hesp : s.regs .esp = M.slot (d + 1)) (hd : M.HasSlot (d + 1))
    (hw : s.memory (M.slot (d + 1)) = M.place n) (hn : M.isCode n = true) :
    M.step s = some ((s.setReg .esp (M.slot d)).goOn n) := by
  simp only [step, h]
  rw [hesp, load_of_usable (usable_slot hM hd), Option.bind_some, hw, lineAt_place hM hn,
    slot_add_four]
  rfl

/-! ## Frames -/

/-- A frame is made, and the frame pointer of the caller is saved. -/
theorem enter (hM : M.WellPlaced) {name : String}
    (hcode : M.CodeAt s.line ([.label (.named name)] ++ prologue))
    (hesp : s.regs .esp = M.slot d) (hd : M.HasSlot (d + 1)) :
    ∃ t, M.Runs s t ∧ t.line = s.line + 3 ∧ t.regs .ebp = M.slot (d + 1) ∧
      t.regs .esp = M.slot (d + 1) ∧ t.output = s.output ∧
      t.memory = (s.setWord (M.slot (d + 1)) (s.regs .ebp)).memory := by
  have hlabel : M.step s = some s.next := step_label hcode.head
  have hrest : M.CodeAt s.next.line prologue := CodeAt.tail hcode
  have hpush := effect_push (s := s.next) (p := .reg .ebp) (w := s.regs .ebp) hM rfl hesp hd
  let u := ((s.next.setReg .esp (M.slot (d + 1))).setWord (M.slot (d + 1)) (s.regs .ebp)).next
  have hmov : M.effect u (.mov (.reg .esp) (.reg .ebp)) = some (u.setReg .ebp (M.slot (d + 1))) :=
    effect_mov rfl (by simp [value, u]) rfl
  obtain ⟨hruns, hline⟩ := runs_of_effects hrest (effects_cons hpush (effects_cons hmov rfl))
  refine ⟨_, (Runs.single hlabel).trans hruns, ?_, ?_, ?_, ?_, ?_⟩
  · rw [hline]
    simp
  · simp
  · simp [u]
  · simp [u]
  · rfl

/-- There is room for `l` locals. -/
theorem effect_reserve (l : Nat) (hesp : s.regs .esp = M.slot d) :
    M.effect s (.arith .sub (.imm (4 * l)) (.reg .esp)) =
      some (s.setReg .esp (M.slot (d + l))).forget := by
  have hneg : BitVec.ofInt 32 (4 * -(l : Int)) = -BitVec.ofInt 32 (4 * l) := by
    rw [← BitVec.ofInt_neg]
    congr 1
    omega
  have hroom : M.slot d - BitVec.ofInt 32 (4 * l) = M.slot (d + l) := by
    rw [BitVec.sub_eq_add_neg, ← hneg]
    exact slot_add (by omega)
  simp [effect, Operand.inMemory, value, put, ArithOp.apply, hesp, hroom]

/-- Words are taken from the stack. -/
theorem effect_drop (l : Nat) {o : Int} (ho : o = 4 * l) (hesp : s.regs .esp = M.slot (d + l)) :
    M.effect s (.arith .add (.imm o) (.reg .esp)) = some (s.setReg .esp (M.slot d)).forget := by
  have hroom : M.slot (d + l) + BitVec.ofInt 32 (4 * l) = M.slot d := slot_add (by omega)
  simp [effect, Operand.inMemory, value, put, ArithOp.apply, hesp, ho, hroom]

/-- A frame is taken away, and the run goes on behind the call. -/
theorem leave (hM : M.WellPlaced) {p : BitVec 32} (hcode : M.CodeAt s.line epilogue)
    (hebp : s.regs .ebp = M.slot (d + 2)) (hsaved : s.memory (M.slot (d + 2)) = p)
    (hw : s.memory (M.slot (d + 1)) = M.place n) (hn : M.isCode n = true)
    (hd : M.HasSlot (d + 2)) :
    ∃ t, M.Runs s t ∧ t.line = n ∧ t.regs .esp = M.slot d ∧ t.regs .ebp = p ∧
      t.regs .eax = s.regs .eax ∧ t.memory = s.memory ∧ t.output = s.output := by
  have hmov : M.effect s (.mov (.reg .ebp) (.reg .esp)) = some (s.setReg .esp (M.slot (d + 2))) :=
    effect_mov rfl (by rw [value, hebp]) rfl
  have hpop := effect_pop (s := (s.setReg .esp (M.slot (d + 2))).next) hM .ebp (by simp) hd
  obtain ⟨hruns, hline⟩ := runs_of_effects
    (CodeAt.left (c := instrs [.mov (.reg .ebp) (.reg .esp), .pop .ebp])
      (r := [.instr .ret]) hcode)
    (effects_cons hmov (effects_cons hpop rfl))
  have hret := step_ret (d := d) hM (by rw [hline]; exact hcode 2 _ rfl) (by simp)
    (hd.of_le (by omega) (by omega)) (by simpa using hw) hn
  refine ⟨_, hruns.trans (Runs.single hret), ?_, ?_, ?_, ?_, ?_, ?_⟩
  · simp
  · simp
  · simpa using hsaved
  · simp
  · simp
  · simp

/-! ## Conditions -/

/-- A conditional block is entered if the topmost word is 1, and else the run
    goes on at its end. -/
theorem branch (hM : M.WellPlaced) (hdist : M.Distinct) {finish : Label} {i : Nat}
    (hcode : M.CodeAt s.line (instrs [.pop .eax, .cmp (.imm 1) (.reg .eax),
      .jumpIf .notEqual finish]))
    (hfinish : M.lines[i]? = some (.label finish)) (hesp : s.regs .esp = M.slot (d + 1))
    (hd : M.HasSlot (d + 1)) (hw : s.memory (M.slot (d + 1)) = w) :
    ∃ t, M.Runs s t ∧ t.line = (if w = 1 then s.line + 3 else i + 1) ∧ t.regs .esp = M.slot d ∧
      t.regs .ebp = s.regs .ebp ∧ t.memory = s.memory ∧ t.output = s.output := by
  have hpop := effect_pop hM .eax hesp hd
  rw [hw] at hpop
  let u := ((s.setReg .esp (M.slot d)).setReg .eax w).next
  have hcmp : M.effect u (.cmp (.imm 1) (.reg .eax)) = some { u with compared := some (w, 1) } := by
    simp [effect, value, Operand.inMemory, u]
  obtain ⟨hruns, hline⟩ := runs_of_effects
    (CodeAt.left (c := instrs [.pop .eax, .cmp (.imm 1) (.reg .eax)])
      (r := [.instr (.jumpIf .notEqual finish)]) hcode)
    (effects_cons hpop (effects_cons hcmp rfl))
  have hjump := step_jumpIf hdist (by rw [hline]; exact hcode 2 _ rfl) hfinish
    (show (State.next _).compared = some (w, 1) from rfl)
  by_cases hone : w = 1
  · have hholds : JumpCond.holds .notEqual w 1 = false := by simp [JumpCond.holds, hone]
    rw [hholds] at hjump
    refine ⟨_, hruns.trans (Runs.single hjump), ?_, ?_, ?_, ?_, ?_⟩
    · simp [hone, u]
    all_goals simp [u]
  · have hholds : JumpCond.holds .notEqual w 1 = true := by simpa [JumpCond.holds] using hone
    rw [hholds, if_pos rfl] at hjump
    refine ⟨_, hruns.trans ((Runs.single hjump).trans (Runs.single (step_label hfinish))),
      ?_, ?_, ?_, ?_, ?_⟩
    · rw [if_neg hone]
      rfl
    all_goals simp [u]

/-! ## Printing -/

/-- The routine that prints a number, from its label on. -/
def printCode : List Line :=
  [.label (.named printRoutine)] ++ prologue
  ++ instrs [.mov (.mem 8 .ebp) (.reg .eax), .push (.reg .eax), .push (.address printFormat),
    .call "printf", .arith .add (.imm 8) (.reg .esp)]
  ++ epilogue

/-- The function of the system prints the second word of the stack. -/
theorem printf_eq (hM : M.WellPlaced) (hesp : s.regs .esp = M.slot (d + 2)) (hd : M.HasSlot (d + 2))
    (hformat : s.memory (M.slot (d + 2)) = M.symbol printFormat)
    (htext : M.text? printFormat = some "%d\\n") (hw : s.memory (M.slot (d + 1)) = w) :
    ∃ t, M.printf s = some t ∧ t.line = s.line + 1 ∧ t.regs .esp = s.regs .esp ∧
      t.regs .ebp = s.regs .ebp ∧ t.output = s.output ++ [w.toInt] ∧
      (∀ k, 1 ≤ k → k ≤ d + 2 → t.memory (M.slot k) = s.memory (M.slot k)) ∧
      (∀ k, M.HasWord k → t.memory (M.word k) = s.memory (M.word k)) ∧
      t.memory (M.symbol heapTop) = s.memory (M.symbol heapTop) := by
  have hd1 : M.HasSlot (d + 1) := hd.of_le (by omega) (by omega)
  have hfree := toNat_slot hM hd
  have heq : M.printf s = some (M.printed s w) := by
    rw [printf, hesp, slot_add_four, load_of_usable (usable_slot hM hd), Option.bind_some,
      load_of_usable (usable_slot hM hd1), Option.bind_some, if_pos ⟨hformat, htext⟩, hw]
  refine ⟨_, heq, rfl, rfl, rfl, rfl, ?_, ?_, ?_⟩
  · intro k h1 hk
    have hnat := toNat_slot hM (hd.of_le h1 hk)
    refine if_neg ?_
    rw [hesp]
    omega
  · intro k hk
    have hword := holds_word hM hk
    have happart := hM.apart
    have hhigh := hd.2
    unfold Area.Holds at hword
    refine if_neg ?_
    rw [hesp]
    omega
  · have hout := (hM.symbolsOutside heapTop (by simp)).1
    have hwhole := hM.symbolsWhole heapTop (by simp)
    have hstack := hM.stackWhole
    have hhigh := hd.2
    unfold Area.Holds at hout
    refine if_neg ?_
    rw [hesp]
    omega

/-- A call of the routine that prints a number prints the topmost word and takes
    it from the stack. -/
theorem print_call (hM : M.WellPlaced) {i : Nat} (hprint : M.CodeAt i printCode)
    (hfind : M.find printRoutine = some i) (htext : M.text? printFormat = some "%d\\n")
    (hcode : M.CodeAt s.line (instrs [.call printRoutine, .arith .add (.imm Word.size) (.reg .esp)]))
    (hesp : s.regs .esp = M.slot (d + 1)) (hd : M.HasSlot (d + 5))
    (hw : s.memory (M.slot (d + 1)) = w) :
    ∃ t, M.Runs s t ∧ t.line = s.line + 2 ∧ t.regs .esp = M.slot d ∧
      t.regs .ebp = s.regs .ebp ∧ t.output = s.output ++ [w.toInt] ∧
      (∀ k, 1 ≤ k → k ≤ d + 1 → t.memory (M.slot k) = s.memory (M.slot k)) ∧
      (∀ k, M.HasWord k → t.memory (M.word k) = s.memory (M.word k)) ∧
      t.memory (M.symbol heapTop) = s.memory (M.symbol heapTop) := by
  have hslot : ∀ {k}, 1 ≤ k → k ≤ d + 5 → M.HasSlot k := fun h1 hk => hd.of_le h1 hk
  have hinj : ∀ {k j}, 1 ≤ k → k ≤ d + 5 → 1 ≤ j → j ≤ d + 5 → k ≠ j → M.slot k ≠ M.slot j :=
    fun h1 hk h1' hk' hne heq => hne ((slot_inj hM (hslot h1 hk) (hslot h1' hk')).mp heq)
  -- into the routine
  have hcall := step_call hM hcode.head (by decide) hfind hesp (hslot (by omega) (by omega))
  let s₁ := ((s.setReg .esp (M.slot (d + 2))).setWord (M.slot (d + 2)) (M.place (s.line + 1))).goOn i
  have hcode₁ : M.CodeAt s₁.line printCode := hprint
  obtain ⟨s₂, hruns₂, hline₂, hebp₂, hesp₂, hout₂, hmem₂⟩ := enter (s := s₁) (d := d + 2) hM
    (CodeAt.left (CodeAt.left hcode₁)) (by simp [s₁]) (hslot (by omega) (by omega))
  have hline₂ : s₂.line = i + 3 := hline₂
  have hw₂ : s₂.memory (M.slot (d + 1)) = w := by
    rw [hmem₂]
    simp [s₁, hinj (k := d + 1) (j := d + 3), hinj (k := d + 1) (j := d + 2), hw]
  have hret₂ : s₂.memory (M.slot (d + 2)) = M.place (s.line + 1) := by
    rw [hmem₂]
    simp [s₁, hinj (k := d + 2) (j := d + 3)]
  have hsaved₂ : s₂.memory (M.slot (d + 3)) = s.regs .ebp := by
    rw [hmem₂]
    simp [s₁]
  -- number and format go on the stack
  have hmov := effect_mov (q := .reg .eax) rfl
    (value_frame (o := 8) (j := d + 1) hM hebp₂ (by omega) (hslot (by omega) (by omega))) rfl
  rw [hw₂] at hmov
  have hstep₃ := step_of_effect (hline₂ ▸ hprint 3 _ rfl) hmov
  obtain ⟨s₄, h₄⟩ := push_pushed (p := .reg .eax) (w := w) (s := (s₂.setReg .eax w).next) hM
    (by
      rw [State.next_line, State.setReg_line, hline₂]
      exact hprint.slice 4 1)
    (by simp [value]) (by simpa using hesp₂) (hslot (by omega) (by omega))
  have hline₄ : s₄.line = i + 5 := h₄.line.trans (by simp [hline₂])
  obtain ⟨s₅, h₅⟩ := push_pushed (p := .address printFormat) hM
    (by
      rw [hline₄]
      exact hprint.slice 5 1)
    rfl h₄.esp (hslot (by omega) (by omega))
  have hline₅ : s₅.line = i + 6 := h₅.line.trans (by rw [hline₄])
  -- the number is printed
  obtain ⟨s₆, hprintf, hline₆, hesp₆, hebp₆, hout₆, hslots₆, hwords₆, htop₆⟩ :=
    printf_eq (d := d + 3) hM h₅.esp hd h₅.word htext
      ((h₅.kept _ (by omega) (Nat.le_refl _)).trans h₄.word)
  have hstep₆ : M.step s₅ = some s₆ := by
    have hcall₅ : M.lines[s₅.line]? = some (.instr (.call "printf")) := by
      rw [hline₅]
      exact hprint 6 _ rfl
    simp only [step, hcall₅, if_true]
    exact hprintf
  have hline₆ : s₆.line = i + 7 := hline₆.trans (by rw [hline₅])
  have hesp₆ : s₆.regs .esp = M.slot (d + 3 + 2) := hesp₆.trans h₅.esp
  have hstep₇ := step_of_effect (by rw [hline₆]; exact hprint 7 _ rfl)
    (effect_drop (o := 8) 2 rfl hesp₆)
  -- out of the routine
  have hsame : ∀ k, 1 ≤ k → k ≤ d + 3 → s₆.memory (M.slot k) = s₂.memory (M.slot k) := by
    intro k h1 hk
    rw [hslots₆ k h1 (by omega), h₅.kept k h1 (by omega), h₄.kept k h1 (by omega)]
    rfl
  have hcode₈ : M.lines[s.line + 1]? = some (.instr (.arith .add (.imm Word.size) (.reg .esp))) :=
    hcode 1 _ rfl
  obtain ⟨s₈, hruns₈, hline₈, hesp₈, hebp₈, _, hmem₈, hout₈⟩ := leave (d := d + 1)
    (s := (s₆.setReg .esp (M.slot (d + 3))).forget.next) (n := s.line + 1) (p := s.regs .ebp) hM
    (by
      rw [State.next_line, State.forget_line, State.setReg_line, hline₆]
      exact hprint.slice 8 3)
    (by simpa using hebp₆.trans (h₅.ebp.trans (h₄.ebp.trans hebp₂)))
    ((hsame _ (by omega) (Nat.le_refl _)).trans hsaved₂)
    ((hsame _ (by omega) (by omega)).trans hret₂) (by simp [isCode, hcode₈])
    (hslot (by omega) (by omega))
  have hstep₉ := step_of_effect (by rw [hline₈]; exact hcode₈)
    (effect_drop (o := Word.size) 1 rfl hesp₈)
  have hruns := (Runs.single hcall).trans (hruns₂.trans ((Runs.single hstep₃).trans
    (h₄.runs.trans (h₅.runs.trans ((Runs.single hstep₆).trans ((Runs.single hstep₇).trans
      (hruns₈.trans (Runs.single hstep₉))))))))
  have hmem : ∀ x, x ≠ M.slot (d + 2) → x ≠ M.slot (d + 3) → s₂.memory x = s.memory x := by
    intro x hx hx'
    rw [hmem₂, State.setWord_memory, if_neg hx']
    simp [s₁, hx]
  have hheap := h₄.heap.trans h₅.heap
  have hend : ((s₈.setReg .esp (M.slot d)).forget.next).memory = s₆.memory := hmem₈
  have hword_ne : ∀ {k j}, M.HasWord k → 1 ≤ j → j ≤ d + 5 → M.word k ≠ M.slot j :=
    fun hk h1 hj => word_ne_slot hM hk (hslot h1 hj)
  have htop_ne : ∀ {j}, 1 ≤ j → j ≤ d + 5 → M.symbol heapTop ≠ M.slot j :=
    fun h1 hj => symbol_ne_slot hM (by simp) (hslot h1 hj)
  refine ⟨_, hruns, ?_, ?_, ?_, ?_, ?_, ?_, ?_⟩
  · simp [hline₈]
  · simp
  · simpa using hebp₈
  · show s₈.output = _
    rw [hout₈]
    show s₆.output = _
    rw [hout₆, hheap.output]
    show s₂.output ++ _ = _
    rw [hout₂]
    rfl
  · intro k h1 hk
    rw [hend, hsame k h1 (by omega)]
    exact hmem _ (hinj h1 (by omega) (by omega) (by omega) (by omega))
      (hinj h1 (by omega) (by omega) (by omega) (by omega))
  · intro k hk
    rw [hend, hwords₆ k hk, hheap.words k hk]
    exact hmem _ (hword_ne hk (by omega) (by omega)) (hword_ne hk (by omega) (by omega))
  · rw [hend, htop₆, hheap.top]
    exact hmem _ (htop_ne (by omega) (by omega)) (htop_ne (by omega) (by omega))

end Machine

end ClassLang
