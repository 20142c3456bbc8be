import ClassLang.Proofs.Machine.Idioms

/-! # Idioms that write

    What the pieces of code do on the machine that change variables and
    objects.

    * **`Machine.Popped`**: code takes one word from the stack.
    * **`pop_frame`** and **`pop_field`** put it into a variable.
    * **`effects_fill`** is any code that writes the words of an object one by
      one; **`pop_copy`** and **`allocate_pushed`** use it. -/

namespace ClassLang

namespace Machine

variable {M : Machine} {s s' t : State} {d n : Nat} {w : BitVec 32}

/-! ## Code that takes one word from the stack -/

/-- Code of `n` lines takes the topmost word from the stack and leaves a stack
    of `d` words.  Nothing is said of the memory. -/
structure Popped (M : Machine) (d n : Nat) (s s' : State) : Prop where
  runs : M.Runs s s'
  line : s'.line = s.line + n
  esp : s'.regs .esp = M.slot d
  ebp : s'.regs .ebp = s.regs .ebp
  output : s'.output = s.output

/-- An operand in the frame takes a word. -/
theorem put_frame (hM : M.WellPlaced) {b j : Nat} {o : Int} (hebp : s.regs .ebp = M.slot b)
    (ho : o = 4 * ((b : Int) - j)) (hj : M.HasSlot j) :
    M.put s (.mem o .ebp) w = some (s.setWord (M.slot j) w) := by
  have haddr : M.slot b + BitVec.ofInt 32 o = M.slot j := by
    rw [ho]
    exact slot_add (by omega)
  rw [put, hebp, haddr]
  exact store_of_usable (usable_slot hM hj)

/-- An operand in an object takes a word. -/
theorem put_field (hM : M.WellPlaced) {r : Reg} {a o : Int} (hr : s.regs r = M.word a)
    (ho : M.HasWord (a + o)) :
    M.put s (.mem o r) w = some (s.setWord (M.word (a + o)) w) := by
  rw [put, hr, word_add]
  exact store_of_usable (usable_word hM ho)

section frame

variable {b j : Nat} {o f a : Int} (hM : M.WellPlaced) (hebp : s.regs .ebp = M.slot b)
  (ho : o = 4 * ((b : Int) - j)) (hj : M.HasSlot j)

include hM hebp ho hj

/-- The topmost word goes to a variable of the frame. -/
theorem pop_frame (hcode : M.CodeAt s.line (instrs [.pop .eax, .mov (.reg .eax) (.mem o .ebp)]))
    (hesp : s.regs .esp = M.slot (d + 1)) (hd : M.HasSlot (d + 1)) :
    ∃ s', M.Popped d 2 s s' ∧
      s'.memory = (s.setWord (M.slot j) (s.memory (M.slot (d + 1)))).memory := by
  have hpop := effect_pop hM .eax hesp hd
  have hput := put_frame (w := s.memory (M.slot (d + 1)))
    (s := ((s.setReg .esp (M.slot d)).setReg .eax (s.memory (M.slot (d + 1)))).next)
    hM (by simpa using hebp) ho hj
  have hmov := effect_mov (p := .reg .eax) rfl (by simp [value]) hput
  obtain ⟨hruns, hline⟩ := runs_of_effects hcode (effects_cons hpop (effects_cons hmov rfl))
  refine ⟨_, ⟨hruns, hline, ?_, ?_, ?_⟩, ?_⟩
  all_goals rfl

/-- The topmost word and the address of an object come to `eax` and `ecx`. -/
theorem effects_pop_receiver (hesp : s.regs .esp = M.slot (d + 1)) (hd : M.HasSlot (d + 1))
    (hself : s.memory (M.slot j) = M.word a) :
    ∃ t, M.effects [.pop .eax, .mov (.mem o .ebp) (.reg .ecx)] s = some t ∧
      t.regs .eax = s.memory (M.slot (d + 1)) ∧ t.regs .ecx = M.word a ∧
      t.regs .esp = M.slot d ∧ t.regs .ebp = s.regs .ebp ∧ t.memory = s.memory ∧
      t.output = s.output := by
  have hpop := effect_pop hM .eax hesp hd
  have hmov := effect_receiver
    (s := ((s.setReg .esp (M.slot d)).setReg .eax (s.memory (M.slot (d + 1)))).next)
    hM (by simpa using hebp) ho hj
  refine ⟨_, effects_cons hpop (effects_cons hmov rfl), ?_, ?_, ?_, ?_, ?_, ?_⟩
  · simp
  · simpa using hself
  all_goals simp

/-- The topmost word goes to a field. -/
theorem pop_field
    (hcode : M.CodeAt s.line (instrs [.pop .eax, .mov (.mem o .ebp) (.reg .ecx),
      .mov (.reg .eax) (.mem f .ecx)]))
    (hesp : s.regs .esp = M.slot (d + 1)) (hd : M.HasSlot (d + 1))
    (hself : s.memory (M.slot j) = M.word a) (hf : M.HasWord (a + f)) :
    ∃ s', M.Popped d 3 s s' ∧
      s'.memory = (s.setWord (M.word (a + f)) (s.memory (M.slot (d + 1)))).memory := by
  obtain ⟨t, ht, heax, hecx, htesp, htebp, htmem, htout⟩ :=
    effects_pop_receiver hM hebp ho hj hesp hd hself
  have hput := put_field (w := s.memory (M.slot (d + 1))) hM hecx hf
  have hmov := effect_mov (p := .reg .eax) rfl (by rw [value, heax]) hput
  have heffects : M.effects ([.pop .eax, .mov (.mem o .ebp) (.reg .ecx)] ++
      [.mov (.reg .eax) (.mem f .ecx)]) s = some _ :=
    effects_append ht (effects_cons hmov rfl)
  obtain ⟨hruns, hline⟩ := runs_of_effects hcode heffects
  refine ⟨_, ⟨hruns, hline, ?_, ?_, ?_⟩, ?_⟩
  · simpa using htesp
  · simpa using htebp
  · simpa using htout
  · funext x
    simp [htmem]

end frame

/-! ## Code that writes the words of an object -/

/-- Code that writes `n` words one behind the other: step `i` writes word `i`,
    and each step relies on what was not written before. -/
theorem effects_fill (hM : M.WellPlaced) {c : Nat → List Instr} {R : State → Prop}
    {v : Nat → BitVec 32} {a : Int} (hwords : ∀ i < n, M.HasWord (a + 4 * i)) (hR : R s)
    (hstep : ∀ i < n, ∀ t, R t → t.output = s.output →
      (∀ x, (∀ j < i, x ≠ M.word (a + 4 * j)) → t.memory x = s.memory x) →
      ∃ t', M.effects (c i) t = some t' ∧ R t' ∧ t'.output = t.output ∧
        t'.memory = (t.setWord (M.word (a + 4 * i)) (v i)).memory) :
    ∃ s', M.effects ((List.range n).flatMap c) s = some s' ∧ R s' ∧ s'.output = s.output ∧
      (∀ i < n, s'.memory (M.word (a + 4 * i)) = v i) ∧
      ∀ x, (∀ i < n, x ≠ M.word (a + 4 * i)) → s'.memory x = s.memory x := by
  induction n with
  | zero => exact ⟨s, rfl, hR, rfl, by simp, fun _ _ => rfl⟩
  | succ n ih =>
    obtain ⟨t, ht, hRt, hout, hv, hsame⟩ := ih (fun i hi => hwords i (by omega))
      (fun i hi => hstep i (by omega))
    obtain ⟨t', ht', hRt', hout', hmem⟩ := hstep n (Nat.lt_succ_self n) t hRt hout hsame
    refine ⟨t', ?_, hRt', hout'.trans hout, ?_, ?_⟩
    · rw [List.range_succ, List.flatMap_append, List.flatMap_singleton]
      exact effects_append ht ht'
    · intro i hi
      rw [hmem, State.setWord_memory]
      by_cases heq : i = n
      · rw [heq, if_pos rfl]
      · rw [if_neg, hv i (by omega)]
        intro haddr
        have := (word_inj hM (hwords i hi) (hwords n (Nat.lt_succ_self n))).mp haddr
        omega
    · intro x hx
      rw [hmem, State.setWord_memory, if_neg (hx n (Nat.lt_succ_self n))]
      exact hsame x fun i hi => hx i (by omega)

/-- The code that moves word `i` of an object, from the address in `eax` to an
    offset from the address in `ecx`. -/
def moveWord (f : Int) (i : Nat) : List Instr :=
  [.mov (.mem (4 * i) .eax) (.reg .edx), .mov (.reg .edx) (.mem (f + 4 * i) .ecx)]

theorem length_moveWords (f : Int) (n : Nat) :
    ((List.range n).flatMap (moveWord f)).length = 2 * n := by
  induction n with
  | zero => rfl
  | succ n ih =>
    rw [List.range_succ, List.flatMap_append, List.length_append, ih, List.flatMap_singleton]
    show 2 * n + 2 = 2 * (n + 1)
    omega

/-- The words of an object go to a field, if no word is written before it is
    read. -/
theorem pop_copy (hM : M.WellPlaced) {b j : Nat} {o f a c : Int} (hebp : s.regs .ebp = M.slot b)
    (ho : o = 4 * ((b : Int) - j)) (hj : M.HasSlot j)
    (hcode : M.CodeAt s.line (instrs ([.pop .eax, .mov (.mem o .ebp) (.reg .ecx)] ++
      (List.range n).flatMap (moveWord f))))
    (hesp : s.regs .esp = M.slot (d + 1)) (hd : M.HasSlot (d + 1))
    (hself : s.memory (M.slot j) = M.word a) (hsource : s.memory (M.slot (d + 1)) = M.word c)
    (hfrom : ∀ i < n, M.HasWord (c + 4 * i)) (hto : ∀ i < n, M.HasWord (a + f + 4 * i))
    (hapart : ∀ i < n, ∀ i' < i, c + 4 * (i : Int) ≠ a + f + 4 * (i' : Int)) :
    ∃ s', M.Popped d (2 + 2 * n) s s' ∧
      (∀ i < n, s'.memory (M.word (a + f + 4 * i)) = s.memory (M.word (c + 4 * i))) ∧
      ∀ x, (∀ i < n, x ≠ M.word (a + f + 4 * i)) → s'.memory x = s.memory x := by
  obtain ⟨t, ht, heax, hecx, htesp, htebp, htmem, htout⟩ :=
    effects_pop_receiver hM hebp ho hj hesp hd hself
  rw [hsource] at heax
  let R : State → Prop := fun u => u.regs .eax = M.word c ∧ u.regs .ecx = M.word a ∧
    u.regs .esp = M.slot d ∧ u.regs .ebp = s.regs .ebp
  obtain ⟨s', hs', ⟨_, _, hesp', hebp'⟩, hout, hv, hsame⟩ := effects_fill (n := n)
    (c := moveWord f) (R := R) (v := fun i => s.memory (M.word (c + 4 * i))) hM hto
    ⟨heax, hecx, htesp, htebp⟩ (by
      rintro i hi u ⟨hu, hu', hu₃, hu₄⟩ _ hold
      have hread : u.memory (M.word (c + 4 * i)) = s.memory (M.word (c + 4 * i)) := by
        rw [← htmem]
        refine hold _ fun i' hi' heq => hapart i hi i' hi' ?_
        exact (word_inj hM (hfrom i hi) (hto i' (by omega))).mp heq
      have hload := effect_mov (q := .reg .edx) rfl (value_field hM hu (hfrom i hi)) rfl
      have hfi : a + (f + 4 * (i : Int)) = a + f + 4 * i := by omega
      have hput := put_field (s := (u.setReg .edx (u.memory (M.word (c + 4 * i)))).next)
        (w := u.memory (M.word (c + 4 * i))) (r := .ecx) (a := a) (o := f + 4 * i) hM
        (by simpa using hu') (hfi ▸ hto i hi)
      have hstore := effect_mov (p := .reg .edx) rfl (by simp [value]) hput
      refine ⟨_, effects_cons hload (effects_cons hstore rfl), ?_, ?_, ?_⟩
      · refine ⟨?_, ?_, ?_, ?_⟩ <;> simp [hu, hu', hu₃, hu₄]
      · simp
      · funext x
        simp [hfi, hread])
  have heffects : M.effects ([.pop .eax, .mov (.mem o .ebp) (.reg .ecx)] ++
      (List.range n).flatMap (moveWord f)) s = some s' := effects_append ht hs'
  obtain ⟨hruns, hline⟩ := runs_of_effects hcode heffects
  refine ⟨s', ⟨hruns, ?_, hesp', hebp', hout.trans htout⟩, hv, ?_⟩
  · rw [hline, List.length_append, length_moveWords]
    rfl
  · intro x hx
    rw [hsame x hx, htmem]

/-! ## New objects -/

/-- Memory for an object comes from the heap, all its words become zero, and its
    address goes on the stack. -/
theorem allocate_pushed (hM : M.WellPlaced) {a size : Int} {offsets : List Int}
    (hoffsets : offsets = (List.range n).map fun (i : Nat) => 4 * (i : Int))
    (hcode : M.CodeAt s.line (instrs ([.mov (.cell heapTop) (.reg .eax),
        .arith .add (.imm size) (.cell heapTop)]
      ++ offsets.map (fun o => .mov (.imm 0) (.mem o .eax)) ++ [.push (.reg .eax)])))
    (htop : s.memory (M.symbol heapTop) = M.word a) (hesp : s.regs .esp = M.slot d)
    (hd : M.HasSlot (d + 1)) (hwords : ∀ i < n, M.HasWord (a + 4 * i)) :
    ∃ s', M.Runs s s' ∧ s'.line = s.line + (n + 3) ∧ s'.regs .esp = M.slot (d + 1) ∧
      s'.regs .ebp = s.regs .ebp ∧ s'.output = s.output ∧
      s'.memory (M.slot (d + 1)) = M.word a ∧
      s'.memory (M.symbol heapTop) = M.word (a + size) ∧
      (∀ i < n, s'.memory (M.word (a + 4 * i)) = 0) ∧
      ∀ x, x ≠ M.slot (d + 1) → x ≠ M.symbol heapTop →
        (∀ i < n, x ≠ M.word (a + 4 * i)) → s'.memory x = s.memory x := by
  let t := (((s.setReg .eax (M.word a)).next.setWord (M.symbol heapTop)
    (M.word (a + size))).forget).next
  have hmov : M.effect s (.mov (.cell heapTop) (.reg .eax)) = some (s.setReg .eax (M.word a)) :=
    effect_mov rfl (by rw [value, load_of_usable (usable_heapTop hM), htop]) rfl
  have hadd : M.effect (s.setReg .eax (M.word a)).next (.arith .add (.imm size) (.cell heapTop)) =
      some ((s.setReg .eax (M.word a)).next.setWord (M.symbol heapTop)
        (M.word (a + size))).forget := by
    simp [effect, Operand.inMemory, value, put, load_of_usable (usable_heapTop hM),
      store_of_usable (usable_heapTop hM), ArithOp.apply, htop, word_add]
  have hfirst : M.effects [.mov (.cell heapTop) (.reg .eax),
      .arith .add (.imm size) (.cell heapTop)] s = some t :=
    effects_cons hmov (effects_cons hadd rfl)
  let R : State → Prop := fun u => u.regs .eax = M.word a ∧ u.regs .esp = M.slot d ∧
    u.regs .ebp = s.regs .ebp
  obtain ⟨u, hu, ⟨hueax, huesp, huebp⟩, hout, hv, hsame⟩ := effects_fill (s := t) (n := n)
    (c := fun i => [.mov (.imm 0) (.mem (4 * (i : Int)) .eax)]) (R := R) (v := fun _ => 0) hM
    hwords ⟨by simp [t], by simpa [t] using hesp, by simp [t]⟩ (by
      rintro i hi t' ⟨h₁, h₂, h₃⟩ _ _
      have hput := put_field (w := 0) hM h₁ (hwords i hi)
      have hstore := effect_mov (p := .imm 0) rfl rfl hput
      exact ⟨_, effects_cons hstore rfl, ⟨by simpa using h₁, by simpa using h₂,
        by simpa using h₃⟩, rfl, rfl⟩)
  have hpush := effect_push (p := .reg .eax) (w := M.word a) hM (by rw [value, hueax]) huesp hd
  have hzeros : offsets.map (fun o => Instr.mov (.imm 0) (.mem o .eax)) =
      (List.range n).flatMap fun i => [.mov (.imm 0) (.mem (4 * (i : Int)) .eax)] := by
    rw [hoffsets, List.map_map, List.map_eq_flatMap]
    rfl
  rw [hzeros] at hcode
  have hlast : M.effects [.push (.reg .eax)] u = some _ := effects_cons hpush rfl
  have heffects := effects_append (effects_append hfirst hu) hlast
  obtain ⟨hruns, hline⟩ := runs_of_effects hcode heffects
  have htop_ne : M.symbol heapTop ≠ M.slot (d + 1) := symbol_ne_slot hM (by simp) hd
  refine ⟨_, hruns, ?_, ?_, ?_, ?_, ?_, ?_, ?_, ?_⟩
  · rw [hline, ← hzeros, hoffsets]
    simp
  · simp
  · simpa using huebp
  · simpa [t] using hout
  · simp
  · have hkeep := hsame (M.symbol heapTop) fun i hi => symbol_ne_word hM (by simp) (hwords i hi)
    simp only [State.next_memory, State.setWord_memory, State.setReg_memory, if_neg htop_ne]
    rw [hkeep]
    simp [t]
  · intro i hi
    have hne := word_ne_slot hM (hwords i hi) hd
    simp only [State.next_memory, State.setWord_memory, State.setReg_memory, if_neg hne]
    exact hv i hi
  · intro x hslot htopx hwordsx
    simp only [State.next_memory, State.setWord_memory, State.setReg_memory, if_neg hslot]
    rw [hsame x hwordsx]
    simp [t, htopx]

end Machine

end ClassLang
