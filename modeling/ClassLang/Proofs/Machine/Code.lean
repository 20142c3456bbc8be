import ClassLang.Proofs.Machine.Step

/-! # Code on the machine

    How code that stands in a listing runs.

    * **`Machine.CodeAt`** says that code stands at a line.
    * **`Machine.effects`** is what instructions in a row do, and
      **`runs_of_effects`** runs them.
    * **`Machine.find_eq`**: where no two labels are the same, a label is found
      where it stands. -/

namespace ClassLang

theorem Line.label?_of_isLabel {l : Line} {name : String} (h : l.isLabel name = true) :
    l.label? = some name := by
  cases l with
  | label l =>
    have h : l.render = name := by simpa [Line.isLabel] using h
    rw [Line.label?, h]
  | _ => cases h

namespace Machine

variable {M : Machine} {s s' t : State}

/-! ## Runs -/

theorem Runs.refl (s : State) : M.Runs s s := Relation.ReflTransGen.refl

theorem Runs.trans (h : M.Runs s t) (h' : M.Runs t s') : M.Runs s s' :=
  Relation.ReflTransGen.trans h h'

theorem Runs.single (h : M.step s = some s') : M.Runs s s' := Relation.ReflTransGen.single h

/-- The state after so many steps. -/
def steps (M : Machine) : Nat → State → Option State
  | 0, s => some s
  | n + 1, s => (M.step s).bind (M.steps n)

theorem Runs.of_steps {n : Nat} (h : M.steps n s = some s') : M.Runs s s' := by
  induction n generalizing s with
  | zero =>
    cases h
    exact .refl _
  | succ n ih =>
    obtain ⟨t, hstep, hrest⟩ := Option.bind_eq_some_iff.mp h
    exact (Runs.single hstep).trans (ih hrest)

/-! ## Code in a listing -/

/-- The code stands from line `n` on. -/
def CodeAt (M : Machine) (n : Nat) (code : List Line) : Prop :=
  ∀ i l, code[i]? = some l → M.lines[n + i]? = some l

section codeAt

variable {n : Nat} {c r : List Line} {l : Line}

theorem CodeAt.left (h : M.CodeAt n (c ++ r)) : M.CodeAt n c := by
  intro i l hl
  refine h i l ?_
  rw [List.getElem?_append_left (List.getElem?_eq_some_iff.mp hl).1]
  exact hl

theorem CodeAt.right (h : M.CodeAt n (c ++ r)) : M.CodeAt (n + c.length) r := by
  intro i l hl
  rw [Nat.add_assoc]
  refine h (c.length + i) l ?_
  rw [List.getElem?_append_right (Nat.le_add_right _ _), Nat.add_sub_cancel_left]
  exact hl

theorem CodeAt.head (h : M.CodeAt n (l :: r)) : M.lines[n]? = some l := h 0 l rfl

theorem CodeAt.tail (h : M.CodeAt n (l :: r)) : M.CodeAt (n + 1) r :=
  CodeAt.right (c := [l]) h

/-- `m` lines of the code after the first `k`. -/
theorem CodeAt.slice (h : M.CodeAt n code) (k m : Nat) :
    M.CodeAt (n + k) ((code.drop k).take m) := by
  intro i l hl
  rw [List.getElem?_take] at hl
  split at hl
  · rw [List.getElem?_drop] at hl
    rw [Nat.add_assoc]
    exact h (k + i) l hl
  · cases hl

/-- A part of a listing stands where its first line stands. -/
theorem CodeAt.of_lines {before after : List Line} (h : M.lines = before ++ code ++ after) :
    M.CodeAt before.length code := by
  intro i l hl
  have hlt := (List.getElem?_eq_some_iff.mp hl).1
  rw [h, List.append_assoc, List.getElem?_append_right (Nat.le_add_right _ _),
    Nat.add_sub_cancel_left, List.getElem?_append_left hlt]
  exact hl

end codeAt

/-! ## Instructions in a row -/

/-- What instructions in a row do, none of which is a jump. -/
def effects (M : Machine) : List Instr → State → Option State
  | [], s => some s
  | i :: rest, s => (M.effect s i).bind fun s' => M.effects rest s'.next

theorem store_line {a w : BitVec 32} (h : M.store s a w = some s') : s'.line = s.line := by
  unfold store at h
  split at h
  · cases h
    rfl
  · cases h

theorem put_line {target : Operand} {w : BitVec 32} (h : M.put s target w = some s') :
    s'.line = s.line := by
  cases target with
  | reg r =>
    cases h
    rfl
  | cell x => exact store_line h
  | mem o r => exact store_line h
  | imm n => cases h
  | address x => cases h

/-- The effect of an instruction does not say which line is next. -/
theorem effect_line {i : Instr} (h : M.effect s i = some s') : s'.line = s.line := by
  cases i with
  | mov source target =>
    simp only [effect] at h
    split at h
    · cases h
    · obtain ⟨w, _, hput⟩ := Option.bind_eq_some_iff.mp h
      exact put_line hput
  | lea source target =>
    cases source with
    | mem o r =>
      cases h
      rfl
    | _ => cases h
  | push source =>
    obtain ⟨w, _, hpush⟩ := Option.bind_eq_some_iff.mp h
    exact (store_line hpush).trans rfl
  | pop target =>
    obtain ⟨w, _, rfl⟩ := Option.map_eq_some_iff.mp h
    rfl
  | arith op source target =>
    simp only [effect] at h
    split at h
    · cases h
    · obtain ⟨b, _, h⟩ := Option.bind_eq_some_iff.mp h
      obtain ⟨a, _, h⟩ := Option.bind_eq_some_iff.mp h
      obtain ⟨t, hput, rfl⟩ := Option.map_eq_some_iff.mp h
      exact (put_line hput : t.line = s.line)
  | cmp source target =>
    simp only [effect] at h
    split at h
    · cases h
    · obtain ⟨b, _, h⟩ := Option.bind_eq_some_iff.mp h
      obtain ⟨a, _, rfl⟩ := Option.map_eq_some_iff.mp h
      rfl
  | neg target =>
    cases h
    rfl
  | cdq =>
    cases h
    rfl
  | idiv r =>
    simp only [effect, State.divide] at h
    split at h
    · cases h
    · cases h
      rfl
  | jump _ | jumpIf _ _ | call _ | ret => cases h

/-- An instruction that is followed by the next one. -/
theorem step_of_effect {i : Instr} (hline : M.lines[s.line]? = some (.instr i))
    (h : M.effect s i = some s') : M.step s = some s'.next := by
  cases i with
  | jump _ | jumpIf _ _ | call _ | ret => cases h
  | _ =>
    simp only [step, hline, h]
    rfl

/-- Instructions in a row run one after another. -/
theorem runs_of_effects {is : List Instr} (hcode : M.CodeAt s.line (instrs is))
    (h : M.effects is s = some s') : M.Runs s s' ∧ s'.line = s.line + is.length := by
  induction is generalizing s with
  | nil =>
    cases h
    exact ⟨.refl _, rfl⟩
  | cons i rest ih =>
    obtain ⟨t, ht, hrest⟩ := Option.bind_eq_some_iff.mp h
    have hline : t.next.line = s.line + 1 := congrArg (· + 1) (effect_line ht)
    have hcode' : M.CodeAt t.next.line (instrs rest) := by
      rw [hline]
      exact CodeAt.tail hcode
    obtain ⟨hruns, hend⟩ := ih hcode' hrest
    refine ⟨(Runs.single (step_of_effect hcode.head ht)).trans hruns, ?_⟩
    rw [hend, hline, List.length_cons]
    omega

/-- A label or a comment is passed. -/
theorem step_label {l : Label} (h : M.lines[s.line]? = some (.label l)) :
    M.step s = some s.next := by
  simp only [step, h]

/-! ## Labels -/

/-- No two labels are the same.  Symbols of reserved memory do not count: no jump
    and no call goes there. -/
def Distinct (M : Machine) : Prop := (M.lines.filterMap Line.label?).Nodup

theorem Distinct.eq_of_label? (h : M.Distinct) {i j : Nat} {a b : Line} {x : String}
    (ha : M.lines[i]? = some a) (hb : M.lines[j]? = some b) (hax : a.label? = some x)
    (hbx : b.label? = some x) : i = j := by
  have hp := List.pairwise_filterMap.mp h
  rw [List.pairwise_iff_getElem] at hp
  obtain ⟨hi, rfl⟩ := List.getElem?_eq_some_iff.mp ha
  obtain ⟨hj, rfl⟩ := List.getElem?_eq_some_iff.mp hb
  rcases Nat.lt_trichotomy i j with hlt | heq | hlt
  · exact absurd rfl (hp i j hi hj hlt x hax x hbx)
  · exact heq
  · exact absurd rfl (hp j i hj hi hlt x hbx x hax)

/-- A label is found where it stands. -/
theorem find_eq (hd : M.Distinct) {i : Nat} {l : Label} (h : M.lines[i]? = some (.label l)) :
    M.find l.render = some i := by
  have hlabel : Line.isLabel l.render (.label l) = true := by simp [Line.isLabel]
  obtain ⟨hi, hget⟩ := List.getElem?_eq_some_iff.mp h
  rw [find, List.findIdx?_eq_some_iff_getElem]
  refine ⟨hi, by rw [hget]; exact hlabel, ?_⟩
  intro j hj hjl
  have hjlen : j < M.lines.length := Nat.lt_trans hj hi
  have heq := hd.eq_of_label? (List.getElem?_eq_getElem hjlen) h
    (Line.label?_of_isLabel hjl) (Line.label?_of_isLabel hlabel)
  omega

/-- A jump goes on where its label stands. -/
theorem goTo_eq (hd : M.Distinct) {i : Nat} {l : Label} (h : M.lines[i]? = some (.label l)) :
    M.goTo s l.render = some (s.goOn i) := by
  rw [goTo, find_eq hd h]
  rfl

end Machine

end ClassLang
