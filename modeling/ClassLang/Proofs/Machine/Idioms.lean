import ClassLang.Proofs.Machine.Memory

/-! # Idioms

    What the pieces of code do on the machine from which all code is made.

    * **`Machine.Pushed`**: code puts one word on the stack and changes
      nothing else that counts.
    * **`onPair_pushed`**, **`comparison_pushed`**, **`onTop_pushed`**,
      **`push_pushed`**, **`push_field_pushed`** and **`push_address_pushed`**
      are the idioms of expressions. -/

namespace ClassLang

namespace Machine

variable {M : Machine} {s s' t : State} {d n : Nat} {w : BitVec 32}

/-! ## Instructions -/

theorem load_of_usable {a : BitVec 32} (h : M.Usable a) : M.load s a = some (s.memory a) :=
  if_pos h

theorem store_of_usable {a : BitVec 32} (h : M.Usable a) : M.store s a w = some (s.setWord a w) :=
  if_pos h

theorem effects_cons {i : Instr} {rest : List Instr} (h : M.effect s i = some t)
    (h' : M.effects rest t.next = some s') : M.effects (i :: rest) s = some s' := by
  rw [effects, h]
  exact h'

theorem effects_append {is rest : List Instr} (h : M.effects is s = some t)
    (h' : M.effects rest t = some s') : M.effects (is ++ rest) s = some s' := by
  induction is generalizing s with
  | nil =>
    cases h
    exact h'
  | cons i is ih =>
    obtain ⟨u, hu, hrest⟩ := Option.bind_eq_some_iff.mp h
    exact effects_cons hu (ih hrest)

theorem effect_mov {p q : Operand}
    (hmem : (p.inMemory && q.inMemory) = false) (hv : M.value s p = some w)
    (hp : M.put s q w = some t) :
    M.effect s (.mov p q) = some t := by
  rw [effect, hmem, hv, Option.bind_some]
  exact hp

/-- A word goes on the stack. -/
theorem effect_push (hM : M.WellPlaced) {p : Operand} (hv : M.value s p = some w)
    (hesp : s.regs .esp = M.slot d) (hd : M.HasSlot (d + 1)) :
    M.effect s (.push p) =
      some ((s.setReg .esp (M.slot (d + 1))).setWord (M.slot (d + 1)) w) := by
  rw [effect, hv, Option.bind_some, push, hesp, slot_sub_four]
  exact store_of_usable (usable_slot hM hd)

/-- The topmost word leaves the stack. -/
theorem effect_pop (hM : M.WellPlaced) (r : Reg) (hesp : s.regs .esp = M.slot (d + 1))
    (hd : M.HasSlot (d + 1)) :
    M.effect s (.pop r) =
      some ((s.setReg .esp (M.slot d)).setReg r (s.memory (M.slot (d + 1)))) := by
  rw [effect, hesp, load_of_usable (usable_slot hM hd), slot_add_four]
  rfl

/-! ## Code that puts one word on the stack -/

/-- Code of `n` lines puts the word on a stack of `d` words.  What lies on the
    stack, the heap, the output and the frame pointer stay as they are. -/
structure Pushed (M : Machine) (d n : Nat) (w : BitVec 32) (s s' : State) : Prop where
  runs : M.Runs s s'
  line : s'.line = s.line + n
  esp : s'.regs .esp = M.slot (d + 1)
  ebp : s'.regs .ebp = s.regs .ebp
  word : s'.memory (M.slot (d + 1)) = w
  kept : ∀ k, 1 ≤ k → k ≤ d → s'.memory (M.slot k) = s.memory (M.slot k)
  heap : M.SameHeap s s'

/-- A run that changes only the word that it puts on the stack. -/
theorem Pushed.of_runs (hM : M.WellPlaced) (hd : M.HasSlot (d + 1)) (hruns : M.Runs s s')
    (hline : s'.line = s.line + n) (hesp : s'.regs .esp = M.slot (d + 1))
    (hebp : s'.regs .ebp = s.regs .ebp) (hword : s'.memory (M.slot (d + 1)) = w)
    (hmem : ∀ a, a ≠ M.slot (d + 1) → s'.memory a = s.memory a) (hout : s'.output = s.output) :
    M.Pushed d n w s s' where
  runs := hruns
  line := hline
  esp := hesp
  ebp := hebp
  word := hword
  kept := by
    intro k h1 hk
    refine hmem _ fun heq => ?_
    have := (slot_inj hM (hd.of_le h1 (by omega)) hd).mp heq
    omega
  heap := .of_slot hM hd hmem hout

/-- An instruction that pushes an operand. -/
theorem push_pushed (hM : M.WellPlaced) {p : Operand}
    (hcode : M.CodeAt s.line (instrs [.push p])) (hv : M.value s p = some w)
    (hesp : s.regs .esp = M.slot d) (hd : M.HasSlot (d + 1)) : ∃ s', M.Pushed d 1 w s s' := by
  obtain ⟨hruns, hline⟩ := runs_of_effects hcode (effects_cons (effect_push hM hv hesp hd) rfl)
  refine ⟨_, .of_runs hM hd hruns hline ?_ ?_ ?_ ?_ ?_⟩
  · simp
  · simp
  · simp
  · intro a ha
    simp [ha]
  · simp

/-- Instructions that compute a word in `eax` and change no more than
    registers. -/
def Computes (M : Machine) (is : List Instr) (before : State → Prop) (w : BitVec 32) : Prop :=
  ∀ s, before s → ∃ s', M.effects is s = some s' ∧ s'.regs .eax = w ∧
    s'.regs .esp = s.regs .esp ∧ s'.regs .ebp = s.regs .ebp ∧ s'.memory = s.memory ∧
    s'.output = s.output

/-- The two topmost words leave the stack. -/
theorem effects_operands (hM : M.WellPlaced) {a b : BitVec 32}
    (hesp : s.regs .esp = M.slot (d + 2)) (hd : M.HasSlot (d + 2))
    (ha : s.memory (M.slot (d + 1)) = a) (hb : s.memory (M.slot (d + 2)) = b) :
    ∃ t, M.effects [.pop .ebx, .pop .eax] s = some t ∧ t.regs .eax = a ∧ t.regs .ebx = b ∧
      t.regs .esp = M.slot d ∧ t.regs .ebp = s.regs .ebp ∧ t.memory = s.memory ∧
      t.output = s.output := by
  have hpop := effect_pop hM .ebx hesp hd
  rw [hb] at hpop
  have hpop' := effect_pop (s := ((s.setReg .esp (M.slot (d + 1))).setReg .ebx b).next) (d := d)
    hM .eax (by simp) (hd.of_le (by omega) (by omega))
  rw [State.next_memory, State.setReg_memory, State.setReg_memory, ha] at hpop'
  refine ⟨_, effects_cons hpop (effects_cons hpop' rfl), ?_, ?_, ?_, ?_, ?_, ?_⟩
  all_goals simp

/-- The two topmost words are combined to one. -/
theorem onPair_pushed (hM : M.WellPlaced) {combine : List Instr} {a b : BitVec 32}
    (hcode : M.CodeAt s.line (onPair combine)) (hesp : s.regs .esp = M.slot (d + 2))
    (hd : M.HasSlot (d + 2)) (ha : s.memory (M.slot (d + 1)) = a)
    (hb : s.memory (M.slot (d + 2)) = b)
    (hc : M.Computes combine (fun t => t.regs .eax = a ∧ t.regs .ebx = b) w) :
    ∃ s', M.Pushed d (combine.length + 3) w s s' := by
  have hd1 : M.HasSlot (d + 1) := hd.of_le (by omega) (by omega)
  obtain ⟨u, hpops, hueax, huebx, huesp, huebp, humem, huout⟩ := effects_operands hM hesp hd ha hb
  obtain ⟨t, ht, heax, htesp, htebp, hmem, hout⟩ := hc u ⟨hueax, huebx⟩
  have hpush := effect_push (s := t) (d := d) (w := w) (p := .reg .eax) hM
    (by rw [value, heax]) (by rw [htesp, huesp]) hd1
  have heffects : M.effects ([.pop .ebx, .pop .eax] ++ combine ++ [.push (.reg .eax)]) s = some _ :=
    effects_append (effects_append hpops ht) (effects_cons hpush rfl)
  obtain ⟨hruns, hline⟩ := runs_of_effects hcode heffects
  refine ⟨_, .of_runs hM hd1 hruns ?_ ?_ ?_ ?_ ?_ ?_⟩
  · rw [hline]
    simp
  · simp
  · simp [htebp, huebp]
  · simp
  · intro x hx
    simp [hx, hmem, humem]
  · simp [hout, huout]

/-- The topmost word is changed. -/
theorem onTop_pushed (hM : M.WellPlaced) {i : Instr} {a : BitVec 32}
    (hcode : M.CodeAt s.line (onTop i)) (hesp : s.regs .esp = M.slot (d + 1))
    (hd : M.HasSlot (d + 1)) (ha : s.memory (M.slot (d + 1)) = a)
    (hc : M.Computes [i] (fun t => t.regs .eax = a) w) : ∃ s', M.Pushed d 3 w s s' := by
  have hpop := effect_pop hM .eax hesp hd
  rw [ha] at hpop
  obtain ⟨t, ht, heax, htesp, htebp, hmem, hout⟩ := hc
    (((s.setReg .esp (M.slot d)).setReg .eax a).next) (by simp)
  have hpush := effect_push (s := t) (d := d) (w := w) (p := .reg .eax) hM
    (by rw [value, heax]) (by rw [htesp]; simp) hd
  have heffects : M.effects ([.pop .eax] ++ [i] ++ [.push (.reg .eax)]) s = some _ :=
    effects_append (effects_append (effects_cons hpop rfl) ht) (effects_cons hpush rfl)
  obtain ⟨hruns, hline⟩ := runs_of_effects hcode heffects
  refine ⟨_, .of_runs hM hd hruns hline ?_ ?_ ?_ ?_ ?_⟩
  · simp
  · simp [htebp]
  · simp
  · intro x hx
    simp [hx, hmem]
  · simp [hout]

/-! ## Operators -/

theorem computes_withRight (op : ArithOp) (a b : BitVec 32) :
    M.Computes [withRight op] (fun t => t.regs .eax = a ∧ t.regs .ebx = b) (op.apply a b) := by
  rintro t ⟨ha, hb⟩
  refine ⟨_, effects_cons (t := (t.setReg .eax (op.apply a b)).forget) ?_ rfl, ?_, ?_, ?_, ?_, ?_⟩
  · simp [withRight, effect, value, put, Operand.inMemory, ha, hb]
  all_goals simp

theorem computes_neg (a : BitVec 32) :
    M.Computes [.neg .eax] (fun t => t.regs .eax = a) (-a) := by
  intro t ha
  refine ⟨_, effects_cons (t := (t.setReg .eax (-a)).forget) ?_ rfl, ?_, ?_, ?_, ?_, ?_⟩
  · rw [effect, ha]
  all_goals simp

theorem computes_xor (n : Int) (a : BitVec 32) :
    M.Computes [.arith .xor (.imm n) (.reg .eax)] (fun t => t.regs .eax = a)
      (a ^^^ BitVec.ofInt 32 n) := by
  intro t ha
  refine ⟨_, effects_cons (t := (t.setReg .eax (a ^^^ BitVec.ofInt 32 n)).forget) ?_ rfl,
    ?_, ?_, ?_, ?_, ?_⟩
  · simp [effect, value, put, Operand.inMemory, ArithOp.apply, ha]
  all_goals simp

/-- A word behind the word of its sign is the same number. -/
theorem toInt_sign_append (a : BitVec 32) :
    ((if a.toInt < 0 then -1 else 0 : BitVec 32) ++ a).toInt = a.toInt := by
  have hcond := a.toInt_eq_toNat_cond
  have hlt := a.isLt
  rw [BitVec.toInt_append]
  by_cases hneg : a.toInt < 0
  · have hone : (-1 : BitVec 32).toInt = -1 := by decide
    rw [if_pos hneg, hone]
    simp only [Nat.reduceBEq, Bool.false_eq_true, if_false]
    omega
  · have hzero : (0 : BitVec 32).toInt = 0 := by decide
    rw [if_neg hneg, hzero]
    simp only [Nat.reduceBEq, Bool.false_eq_true, if_false]
    omega

/-- The quotient of two words is a word, but for the least one by -1. -/
theorem fits_tdiv {a b : BitVec 32} (hb : b ≠ 0) (hab : ¬ (a = BitVec.intMin 32 ∧ b = -1)) :
    Word.Fits (a.toInt.tdiv b.toInt) := by
  have hlow := a.le_toInt
  have hhigh := a.toInt_lt
  have hb0 : b.toInt ≠ 0 := by
    intro h
    exact hb (BitVec.eq_of_toInt_eq (by simpa using h))
  by_cases hone : b.toInt = -1
  · have hmin : a.toInt ≠ -2147483648 := by
      intro h
      exact hab ⟨BitVec.eq_of_toInt_eq (by rw [h]; rfl), BitVec.eq_of_toInt_eq (by rw [hone]; rfl)⟩
    rw [hone, Int.tdiv_neg, Int.tdiv_one]
    unfold Word.Fits
    omega
  · by_cases hone' : b.toInt = 1
    · rw [hone', Int.tdiv_one]
      unfold Word.Fits
      omega
    · -- any other divisor halves the number at least
      have hnat := Int.natAbs_tdiv a.toInt b.toInt
      have hhalf : a.toInt.natAbs / b.toInt.natAbs ≤ a.toInt.natAbs / 2 :=
        Nat.div_le_div_left (by omega) (by omega)
      have hq : (a.toInt.tdiv b.toInt).natAbs ≤ a.toInt.natAbs / 2 := hnat ▸ hhalf
      unfold Word.Fits
      omega

/-- The division of two words, if its quotient is a word. -/
theorem computes_divide {a b : BitVec 32} (hb : b ≠ 0)
    (hab : ¬ (a = BitVec.intMin 32 ∧ b = -1)) :
    M.Computes [.cdq, .idiv .ebx] (fun t => t.regs .eax = a ∧ t.regs .ebx = b)
      (BitVec.ofInt 32 (a.toInt.tdiv b.toInt)) := by
  rintro t ⟨ha, hb'⟩
  have hfits := fits_tdiv hb hab
  refine ⟨_, effects_cons (t := t.setReg .edx (if a.toInt < 0 then -1 else 0)) ?_
    (effects_cons (t := ((t.setReg .edx (if a.toInt < 0 then -1 else 0)).next.setReg .eax
      (BitVec.ofInt 32 (a.toInt.tdiv b.toInt))).setReg .edx
      (BitVec.ofInt 32 (a.toInt.tmod b.toInt)) |>.forget) ?_ rfl), ?_, ?_, ?_, ?_, ?_⟩
  · rw [effect, ha]
  · have hsign := toInt_sign_append a
    simp only [effect, State.divide, State.next_regs, State.setReg_regs, ha, hb', reduceCtorEq,
      if_true, if_false, hsign]
    rw [if_neg]
    simp only [hb, hfits, not_true, or_false, not_false_eq_true]
  all_goals simp

/-! ## Comparisons -/

theorem step_jump (hd : M.Distinct) {l : Label} {i : Nat}
    (h : M.lines[s.line]? = some (.instr (.jump l))) (hl : M.lines[i]? = some (.label l)) :
    M.step s = some (s.goOn i) := by
  simp only [step, h]
  exact goTo_eq hd hl

theorem step_jumpIf (hd : M.Distinct) {cond : JumpCond} {l : Label} {i : Nat} {a b : BitVec 32}
    (h : M.lines[s.line]? = some (.instr (.jumpIf cond l))) (hl : M.lines[i]? = some (.label l))
    (hc : s.compared = some (a, b)) :
    M.step s = some (if cond.holds a b then s.goOn i else s.next) := by
  simp only [step, h]
  rw [hc, Option.bind_some, goTo_eq hd hl]
  split <;> rfl

/-- The operands of a comparison leave the stack. -/
theorem effects_compare (hM : M.WellPlaced) {a b : BitVec 32}
    (hesp : s.regs .esp = M.slot (d + 2)) (hd : M.HasSlot (d + 2))
    (ha : s.memory (M.slot (d + 1)) = a) (hb : s.memory (M.slot (d + 2)) = b) :
    ∃ t, M.effects [.pop .ebx, .pop .eax, .cmp (.reg .ebx) (.reg .eax)] s = some t ∧
      t.compared = some (a, b) ∧ t.regs .esp = M.slot d ∧ t.regs .ebp = s.regs .ebp ∧
      t.memory = s.memory ∧ t.output = s.output := by
  obtain ⟨u, hpops, heax, hebx, hesp', hebp, hmem, hout⟩ := effects_operands hM hesp hd ha hb
  have hcmp : M.effect u (.cmp (.reg .ebx) (.reg .eax)) = some { u with compared := some (a, b) } := by
    simp [effect, value, Operand.inMemory, heax, hebx]
  exact ⟨_, effects_append hpops (effects_cons hcmp rfl), rfl, hesp', hebp, hmem, hout⟩

/-- 1 goes on the stack if the two topmost words are so related, and else 0. -/
theorem comparison_pushed (hM : M.WellPlaced) (hdist : M.Distinct) {cond : JumpCond}
    {holds finish : Label} {a b : BitVec 32}
    (hcode : M.CodeAt s.line (instrs [.pop .ebx, .pop .eax, .cmp (.reg .ebx) (.reg .eax),
        .jumpIf cond holds, .push (.imm 0), .jump finish]
      ++ [.label holds, .instr (.push (.imm 1)), .label finish]))
    (hesp : s.regs .esp = M.slot (d + 2)) (hd : M.HasSlot (d + 2))
    (ha : s.memory (M.slot (d + 1)) = a) (hb : s.memory (M.slot (d + 2)) = b) :
    ∃ s', M.Pushed d 9 (if cond.holds a b then 1 else 0) s s' := by
  obtain ⟨t, ht, hcompared, htesp, htebp, htmem, htout⟩ := effects_compare hM hesp hd ha hb
  have hd1 : M.HasSlot (d + 1) := hd.of_le (by omega) (by omega)
  have hfirst : M.CodeAt s.line (instrs [.pop .ebx, .pop .eax, .cmp (.reg .ebx) (.reg .eax)]) :=
    CodeAt.left (r := [.instr (.jumpIf cond holds), .instr (.push (.imm 0)),
      .instr (.jump finish), .label holds, .instr (.push (.imm 1)), .label finish]) hcode
  obtain ⟨hruns, htline⟩ := runs_of_effects hfirst ht
  have htline : t.line = s.line + 3 := htline
  have hjump := step_jumpIf hdist (htline ▸ hcode 3 _ rfl) (hcode 6 _ rfl) hcompared
  have hfinish : M.lines[s.line + 8]? = some (.label finish) := hcode 8 _ rfl
  by_cases hcond : cond.holds a b = true
  · rw [if_pos hcond] at hjump ⊢
    -- the label is passed, 1 is pushed, and the other label is passed
    let t₁ := t.goOn (s.line + 6)
    have hpush : M.effect t₁.next (.push (.imm 1)) = some _ :=
      effect_push (d := d) hM rfl htesp hd1
    have hlabel : M.step t₁ = some t₁.next := step_label (hcode 6 _ rfl)
    have hstep := step_of_effect (s := t₁.next) (hcode 7 _ rfl) hpush
    have hlast := step_label (s := (((t₁.next.setReg .esp (M.slot (d + 1))).setWord
      (M.slot (d + 1)) 1)).next) hfinish
    refine ⟨_, .of_runs hM hd1 (hruns.trans ((Runs.single hjump).trans ((Runs.single hlabel).trans
      ((Runs.single hstep).trans (Runs.single hlast))))) ?_ ?_ ?_ ?_ ?_ ?_⟩
    · simp [t₁]
    · simp
    · simp [t₁, htebp]
    · simp
    · intro x hx
      simp [hx, t₁, htmem]
    · simp [t₁, htout]
  · rw [if_neg hcond] at hjump ⊢
    -- 0 is pushed, and a jump goes to the last label
    have hpush : M.effect t.next (.push (.imm 0)) = some _ :=
      effect_push (d := d) hM rfl htesp hd1
    have hstep := step_of_effect (s := t.next) (by
      rw [State.next_line, htline]
      exact hcode 4 _ rfl) hpush
    let t₁ := (((t.next.setReg .esp (M.slot (d + 1))).setWord (M.slot (d + 1)) 0)).next
    have hjump' := step_jump (s := t₁) hdist (l := finish) (by
      show M.lines[t.line + 1 + 1]? = _
      rw [htline]
      exact hcode 5 _ rfl) hfinish
    have hlast := step_label (s := t₁.goOn (s.line + 8)) hfinish
    refine ⟨_, .of_runs hM hd1 (hruns.trans ((Runs.single hjump).trans ((Runs.single hstep).trans
      ((Runs.single hjump').trans (Runs.single hlast))))) ?_ ?_ ?_ ?_ ?_ ?_⟩
    · simp
    · simp [t₁]
    · simp [t₁, htebp]
    · simp [t₁]
    · intro x hx
      simp [hx, t₁, htmem]
    · simp [t₁, htout]

/-! ## Variables -/

/-- An operand in the frame. -/
theorem value_frame (hM : M.WellPlaced) {b j : Nat} {o : Int} (hebp : s.regs .ebp = M.slot b)
    (ho : o = 4 * ((b : Int) - j)) (hj : M.HasSlot j) :
    M.value s (.mem o .ebp) = some (s.memory (M.slot j)) := by
  have haddr : M.slot b + BitVec.ofInt 32 o = M.slot j := by
    rw [ho]
    exact slot_add (by omega)
  rw [value, hebp, haddr]
  exact load_of_usable (usable_slot hM hj)

/-- An operand in an object. -/
theorem value_field (hM : M.WellPlaced) {r : Reg} {a o : Int} (hr : s.regs r = M.word a)
    (ho : M.HasWord (a + o)) : M.value s (.mem o r) = some (s.memory (M.word (a + o))) := by
  rw [value, hr, word_add]
  exact load_of_usable (usable_word hM ho)

/-- The address of an object comes from the frame. -/
theorem effect_receiver (hM : M.WellPlaced) {b j : Nat} {o : Int} (hebp : s.regs .ebp = M.slot b)
    (ho : o = 4 * ((b : Int) - j)) (hj : M.HasSlot j) :
    M.effect s (.mov (.mem o .ebp) (.reg .ecx)) =
      some (s.setReg .ecx (s.memory (M.slot j))) :=
  effect_mov rfl (value_frame hM hebp ho hj) rfl

section frame

variable {b j : Nat} {o f a : Int} (hM : M.WellPlaced) (hebp : s.regs .ebp = M.slot b)
  (ho : o = 4 * ((b : Int) - j)) (hj : M.HasSlot j)

include hM hebp ho hj

/-- The word of a field goes on the stack. -/
theorem push_field_pushed
    (hcode : M.CodeAt s.line (instrs [.mov (.mem o .ebp) (.reg .ecx), .push (.mem f .ecx)]))
    (hesp : s.regs .esp = M.slot d) (hd : M.HasSlot (d + 1))
    (hself : s.memory (M.slot j) = M.word a) (hf : M.HasWord (a + f)) :
    ∃ s', M.Pushed d 2 (s.memory (M.word (a + f))) s s' := by
  have hmov := effect_receiver hM hebp ho hj
  rw [hself] at hmov
  have hv := value_field (s := (s.setReg .ecx (M.word a)).next) (r := .ecx) hM (by simp) hf
  have hpush := effect_push (d := d) hM hv (by simpa using hesp) hd
  obtain ⟨hruns, hline⟩ := runs_of_effects hcode (effects_cons hmov (effects_cons hpush rfl))
  refine ⟨_, .of_runs hM hd hruns hline ?_ ?_ ?_ ?_ ?_⟩
  · simp
  · simp
  · simp
  · intro x hx
    simp [hx]
  · simp

/-- The address of a field goes on the stack. -/
theorem push_address_pushed
    (hcode : M.CodeAt s.line (instrs [.mov (.mem o .ebp) (.reg .ecx), .lea (.mem f .ecx) .eax,
      .push (.reg .eax)]))
    (hesp : s.regs .esp = M.slot d) (hd : M.HasSlot (d + 1))
    (hself : s.memory (M.slot j) = M.word a) : ∃ s', M.Pushed d 3 (M.word (a + f)) s s' := by
  have hmov := effect_receiver hM hebp ho hj
  rw [hself] at hmov
  have hlea : M.effect (s.setReg .ecx (M.word a)).next (.lea (.mem f .ecx) .eax) =
      some ((s.setReg .ecx (M.word a)).next.setReg .eax (M.word (a + f))) := by
    simp [effect, word_add]
  have hpush := effect_push (d := d) (p := .reg .eax) (w := M.word (a + f))
    (s := ((s.setReg .ecx (M.word a)).next.setReg .eax (M.word (a + f))).next) hM
    (by simp [value]) (by simpa using hesp) hd
  obtain ⟨hruns, hline⟩ := runs_of_effects hcode
    (effects_cons hmov (effects_cons hlea (effects_cons hpush rfl)))
  refine ⟨_, .of_runs hM hd hruns hline ?_ ?_ ?_ ?_ ?_⟩
  · simp
  · simp
  · simp
  · intro x hx
    simp [hx]
  · simp

end frame

end Machine

end ClassLang
