import ClassLang.Proofs.Lowering.Ways
import ClassLang.Proofs.Typing.Places

/-! # The depth of the stack

    What the code of each part of a program does to the depth of the stack,
    whether the part was checked or not.

    * **`Expr.FewArgs`**: no call has so many arguments that their number is not
      a word.
    * **`BinaryOp.lower_raises`**, **`UnaryOp.lower_raises`** and
      **`Site.call_raises`**: operators and calls take their operands from the
      stack, and put one word on it.
    * **`Expr.raises`** and **`Stmt.level`**: an expression leaves one word more,
      a statement as many as there were. -/

namespace ClassLang

variable {code : List Line} {a : Int} {n n' : Nat}

/-! ## Numbers of arguments -/

/-- The least number of arguments that is too large for a word and with which a
    call is made all the same: converted to a word it is negative, and the bytes
    that it stands for are a word again. -/
def argLimit : Nat := 3758096383

/-- The number of arguments of a call. -/
def Expr.argCount : Expr → Nat
  | methodCall _ _ _ args | selfCall _ _ args => args.length
  | binary .. | unary .. | var .. | num .. | bool .. | nothing .. | new .. => 0

/-- All calls in the expression have fewer arguments than the limit. -/
def Expr.FewArgs (e : Expr) : Prop := ∀ e' : Expr, e'.Within e → e'.argCount < argLimit

/-- All calls in the statement have fewer arguments than the limit. -/
def Stmt.FewArgs (s : Stmt) : Prop := ∀ e : Expr, s.Uses e → e.argCount < argLimit

/-- All calls in the method have fewer arguments than the limit. -/
def Method.FewArgs (m : Method) : Prop := ∀ e : Expr, m.Uses e → e.argCount < argLimit

namespace Expr.FewArgs

variable {note : Note} {op : BinaryOp} {method x : String} {value : Int}
  {left right receiver : Expr} {args : List Expr}

theorem var : (Expr.var note x).FewArgs := by
  rintro _ ⟨⟩
  exact Nat.zero_lt_of_ne_zero (by decide)

theorem num : (Expr.num note value).FewArgs := by
  rintro _ ⟨⟩
  exact Nat.zero_lt_of_ne_zero (by decide)

theorem binary (hl : left.FewArgs) (hr : right.FewArgs) :
    (Expr.binary note op left right).FewArgs := by
  rintro _ (_ | he | he)
  · exact Nat.zero_lt_of_ne_zero (by decide)
  · exact hl _ he
  · exact hr _ he

theorem selfCall (hcount : args.length < argLimit) (hargs : ∀ a ∈ args, a.FewArgs) :
    (Expr.selfCall note method args).FewArgs := by
  intro e he
  cases he with
  | self => exact hcount
  | selfArg ha he => exact hargs _ ha e he

theorem methodArgs (h : (Expr.methodCall note receiver method args).FewArgs) :
    ∀ a ∈ args, a.FewArgs := fun _ ha e' he' => h e' (.methodArg ha he')

theorem selfArgs (h : (Expr.selfCall note method args).FewArgs) :
    ∀ a ∈ args, a.FewArgs := fun _ ha e' he' => h e' (.selfArg ha he')

end Expr.FewArgs

theorem Method.FewArgs.body {m : Method} (h : m.FewArgs) : ∀ s ∈ m.body, s.FewArgs :=
  fun s hs e he => h e (.inl ⟨s, hs, he⟩)

theorem Method.FewArgs.value {m : Method} (h : m.FewArgs) : m.value.FewArgs :=
  fun e he => h e (.inr he)

theorem Method.FewArgs.of_uses {m : Method} {e : Expr} (h : m.FewArgs) (hu : m.Uses e) :
    e.FewArgs := fun e' he => h e' (hu.within he)

/-- Below the limit the number of arguments is a word if the bytes are one. -/
theorem truncate_of_lt_limit {args : Nat} (h : args < argLimit)
    (hbytes : Word.Fits ((Word.truncate args + 1) * Word.size)) : Word.truncate args = args := by
  simp only [Word.Fits, Word.size, Word.truncate, Int.bmod_def, argLimit] at *
  split at hbytes <;> split <;> omega

/-! ## Operators -/

/-- The operand is taken from the stack, and the result goes on it. -/
theorem onTop_raises {ins : Instr} (hs : ins.straight = true) (hg : ins.growth = 0) :
    Raises (onTop ins) a (a + 1) (a + 1) := by
  have hpush : Raises (instrs [.push (.reg .eax)]) a a (a + 1) :=
    .push (Int.le_refl a) (.nil (Int.le_add_one (Int.le_refl a)))
  have hmid := Raises.flat [ins] (by simp [hs, hg]) (Int.le_refl a) hpush
  exact .pop (Int.le_refl a) hmid

/-- Two operands are taken from the stack, and the result goes on it. -/
theorem onPair_raises {combine : List Instr}
    (hflat : ∀ ins ∈ combine, ins.straight = true ∧ ins.growth = 0) :
    Raises (onPair combine) a (a + 2) (a + 1) := by
  have hpush : Raises (instrs [.push (.reg .eax)]) a a (a + 1) :=
    .push (Int.le_refl a) (.nil (Int.le_add_one (Int.le_refl a)))
  have hmid := Raises.flat combine hflat (Int.le_refl a) hpush
  have hcode : onPair combine = .instr (.pop .ebx) :: .instr (.pop .eax) ::
      (instrs combine ++ instrs [.push (.reg .eax)]) := by
    simp [onPair, instrs]
  have htwo : a + 2 = a + 1 + 1 := by omega
  rw [hcode, htwo]
  exact .pop (by omega) (.pop (Int.le_refl a) hmid)

/-- Both outcomes of a comparison leave one word at its last label. -/
theorem lowerComparison_raises {cond : JumpCond}
    (h : lowerComparison cond n = .ok (code, n')) : Raises code a (a + 2) (a + 1) := by
  cases h
  let depth : Nat → Int := fun
    | 0 => a + 2
    | 1 | 5 => a + 1
    | 2 | 3 | 4 | 6 | 7 => a
    | _ => a + 1
  refine ⟨?_, depth, ⟨?_, ?_, ?_⟩, rfl⟩
  · -- the way with the first jump
    let code := instrs [.pop .ebx, .pop .eax, .cmp (.reg .ebx) (.reg .eax),
        .jumpIf cond (.numbered n), .push (.imm 0), .jump (.numbered (n + 1))]
      ++ [.label (.numbered n), .instr (.push (.imm 1)), .label (.numbered (n + 1))]
    have hstart : Way code (a + 2) 0 (a + 2) := .start
    have hright := hstart.next (l := .instr (.pop .ebx)) rfl rfl
    have hleft := hright.next (l := .instr (.pop .eax)) rfl rfl
    have htest := hleft.next (l := .instr (.cmp (.reg .ebx) (.reg .eax))) rfl rfl
    have hholds := htest.jump (l := .instr (.jumpIf cond (.numbered n))) (j := 6) rfl rfl rfl
    have hpush := hholds.next (l := .label (.numbered n)) rfl rfl
    have hdone := hpush.next (l := .instr (.push (.imm 1))) rfl rfl
    have hend := hdone.next (l := .label (.numbered (n + 1))) rfl rfl
    have hdepth : a + 2 + -1 + -1 + 0 + 0 + 0 + 1 + 0 = a + 1 := by omega
    exact hdepth ▸ hend
  · intro i l hl hon
    match i with
    | 0 =>
      cases hl
      show a + 1 = a + 2 + -1
      omega
    | 1 | 2 | 3 | 4 | 6 | 7 | 8 =>
      cases hl
      simp [depth, Line.growth, Instr.growth]
    | 5 =>
      cases hl
      cases hon
    | i + 9 => cases hl
  · -- one jump goes to each of the two labels
    intro i j l t hl ht hj
    match i, j with
    | 3, 6 | 5, 8 =>
      cases hl
      exact (Int.add_zero _).symm
    | 3, 8 | 5, 6 =>
      cases hl
      cases ht
      simp [instrs] at hj
    | 3, 0 | 3, 1 | 3, 2 | 3, 3 | 3, 4 | 3, 5 | 3, 7 | 5, 0 | 5, 1 | 5, 2 | 5, 3 | 5, 4 | 5, 5
    | 5, 7 => cases hj
    | 0, _ | 1, _ | 2, _ | 4, _ | 6, _ | 7, _ | 8, _ =>
      cases hl
      cases ht
    | 3, j + 9 | 5, j + 9 => cases hj
    | i + 9, _ => cases hl
  · intro i _
    match i with
    | 0 | 1 | 2 | 3 | 4 | 5 | 6 | 7 => simp [depth]
    | i + 8 => simp [depth]

theorem BinaryOp.lower_raises {op : BinaryOp} (h : op.lower n = .ok (code, n')) :
    Raises code a (a + 2) (a + 1) := by
  cases op with
  | lessThan | lessEqual | equal | notEqual => exact lowerComparison_raises h
  | add | sub | mul | and =>
    cases h
    exact onPair_raises (by simp [withRight, Instr.straight, Instr.growth])
  | div =>
    cases h
    exact onPair_raises (by simp [Instr.straight, Instr.growth])

theorem UnaryOp.lower_raises (op : UnaryOp) : Raises op.lower a (a + 1) (a + 1) := by
  cases op with
  | neg | not => exact onTop_raises rfl rfl

/-! ## Variables, calls and new objects -/

namespace Site

variable {site : Site}

theorem load_raises {x : String} (h : site.load x = .ok code) : Raises code a a (a + 1) := by
  have hpush : ∀ source, Raises (instrs [.push source]) a a (a + 1) := fun source =>
    .push (Int.le_refl a) (.nil (Int.le_add_one (Int.le_refl a)))
  obtain ⟨place, _, h⟩ := except_bind_ok_iff.mp h
  cases place with
  | frame slot =>
    cases h
    exact hpush _
  | field slot =>
    cases h
    refine .instr rfl rfl (Int.le_refl a) (Int.add_zero a) ?_
    cases slot.ty with
    | object c => exact .instr rfl rfl (Int.le_refl a) (Int.add_zero a) (hpush _)
    | _ => exact hpush _

theorem allocate_raises {cls : String} (h : site.allocate cls = .ok code) :
    Raises code a a (a + 1) := by
  unfold allocate at h
  split at h
  · cases h
  · next layout _ =>
    cases h
    have hpush : Raises (instrs [.push (.reg .eax)]) a a (a + 1) :=
      .push (Int.le_refl a) (.nil (Int.le_add_one (Int.le_refl a)))
    have hfill := Raises.flat ((wordOffsets layout.size).map fun offset =>
      .mov (.imm 0) (.mem offset .eax)) (by simp [Instr.straight, Instr.growth]) (Int.le_refl a) hpush
    have hcode : instrs ([.mov (.cell heapTop) (.reg .eax),
          .arith .add (.imm layout.size) (.cell heapTop)]
        ++ (wordOffsets layout.size).map (fun offset => .mov (.imm 0) (.mem offset .eax))
        ++ [.push (.reg .eax)]) =
      .instr (.mov (.cell heapTop) (.reg .eax)) ::
        .instr (.arith .add (.imm layout.size) (.cell heapTop)) ::
        (instrs ((wordOffsets layout.size).map fun offset => .mov (.imm 0) (.mem offset .eax))
          ++ instrs [.push (.reg .eax)]) := by
      simp [instrs]
    rw [hcode]
    exact .instr rfl rfl (Int.le_refl a) (Int.add_zero a)
      (.instr rfl rfl (Int.le_refl a) (Int.add_zero a) hfill)

/-- Copying an object moves words without the stack. -/
theorem copy_raises {slot : Slot} (h : copy slot = .ok code) : Raises code a a a := by
  unfold copy at h
  generalize wordOffsets slot.size = offsets at h
  have hstart : Raises [] a a a := .nil (Int.le_refl a)
  have hlabels : Straight [] := ⟨[], rfl, rfl⟩
  -- the fold goes on from code that is already there
  generalize ([] : List Line) = first at h hstart hlabels
  induction offsets generalizing first with
  | nil =>
    cases h
    exact hstart
  | cons o rest ih =>
    rw [List.foldlM_cons] at h
    obtain ⟨next, hnext, h⟩ := except_bind_ok_iff.mp h
    obtain ⟨target, _, hnext⟩ := except_bind_ok_iff.mp hnext
    cases hnext
    have hmoves : Straight (instrs [.mov (.mem o .eax) (.reg .edx),
        .mov (.reg .edx) (.mem target .ecx)]) := ⟨_, rfl, rfl⟩
    have hflat : Raises (instrs [.mov (.mem o .eax) (.reg .edx),
        .mov (.reg .edx) (.mem target .ecx)]) a a a :=
      .instr rfl rfl (Int.le_refl a) (Int.add_zero a) (.instr rfl rfl (Int.le_refl a) (Int.add_zero a)
        (.nil (Int.le_refl a)))
    exact ih _ h (hstart.append hflat (.straight (n := 0) hlabels) (.straight hmoves))
      (hlabels.append hmoves)

theorem store_raises {x : String} (h : site.store x = .ok code) : Raises code a (a + 1) a := by
  obtain ⟨place, _, h⟩ := except_bind_ok_iff.mp h
  cases place with
  | frame slot =>
    cases h
    exact .pop (Int.le_refl a) (.instr rfl rfl (Int.le_refl a) (Int.add_zero a) (.nil (Int.le_refl a)))
  | field slot =>
    -- the word is taken from the stack before it is stored
    have hstart : ∀ {access : List Line}, Raises access a a a →
        Raises (instrs [.pop .eax, .mov site.receiver (.reg .ecx)] ++ access) a (a + 1) a :=
      fun haccess => .pop (Int.le_refl a) (.instr rfl rfl (Int.le_refl a) (Int.add_zero a) haccess)
    dsimp only at h
    split at h
    · obtain ⟨access, haccess, hpure⟩ := except_bind_ok_iff.mp h
      cases hpure
      exact hstart (copy_raises haccess)
    · cases h
      exact hstart (.instr rfl rfl (Int.le_refl a) (Int.add_zero a) (.nil (Int.le_refl a)))

/-- The code of a call in full. -/
theorem call_code {callee : Option String} {cls method : String} {args : Nat}
    (h : site.call callee cls method args = .ok code) :
    ∃ owner, callee = some owner ∧ Word.Fits ((Word.truncate args + 1) * Word.size) ∧
      code = instrs [.call (methodLabel owner method),
        .arith .add (.imm ((Word.truncate args + 1) * Word.size)) (.reg .esp),
        .push (.reg .eax)] := by
  cases callee with
  | none => cases h
  | some owner =>
    simp only [call] at h
    split at h
    · cases h
    · obtain ⟨count, hcount, h⟩ := except_bind_ok_iff.mp h
      obtain ⟨pushed, hpushed, hpure⟩ := except_bind_ok_iff.mp h
      obtain ⟨_, rfl⟩ := Word.exact_eq_ok_iff.mp hcount
      obtain ⟨hfits, rfl⟩ := Word.exact_eq_ok_iff.mp hpushed
      cases hpure
      exact ⟨owner, rfl, hfits, rfl⟩

/-- The code of a call with few arguments: the words that leave the stack are
    those of the receiver and of the arguments. -/
theorem call_code_of_few {callee : Option String} {cls method : String} {args : Nat}
    (hfew : args < argLimit) (h : site.call callee cls method args = .ok code) :
    ∃ owner, callee = some owner ∧ code = instrs [.call (methodLabel owner method),
      .arith .add (.imm (4 * (args + 1))) (.reg .esp), .push (.reg .eax)] := by
  obtain ⟨owner, howner, hfits, rfl⟩ := call_code h
  refine ⟨owner, howner, ?_⟩
  rw [truncate_of_lt_limit hfew hfits, Word.size, Int.mul_comm]

/-- A call takes the receiver and the arguments from the stack, and its value
    goes on it. -/
theorem call_raises {callee : Option String} {cls method : String} {args : Nat}
    (hfew : args < argLimit) (h : site.call callee cls method args = .ok code) :
    Raises code a (a + (args + 1)) (a + 1) := by
  obtain ⟨owner, _, rfl⟩ := call_code_of_few hfew h
  have hdrop : a + (args + 1 : Int) + (Instr.arith .add (.imm (4 * (args + 1))) (.reg .esp)).growth =
      a := by
    simp only [Instr.growth]
    omega
  exact .instr rfl rfl (by omega) (Int.add_zero _) (.instr rfl rfl (by omega) hdrop
    (.push (Int.le_refl a) (.nil (by omega))))

end Site

/-! ## Trees -/

namespace Expr

variable {site : Site}

mutual

/-- The code of an expression leaves one word more on the stack. -/
theorem raises : ∀ (e : Expr), e.FewArgs → ∀ {n n' : Nat} {code : List Line} {a : Int},
    e.lower site n = .ok (code, n') → Raises code a a (a + 1)
  | .binary _ op left right, hf, _, _, _, a, h => by
    obtain ⟨cl, _, hl, h⟩ := state_bind_ok_iff.mp h
    obtain ⟨cr, _, hr, h⟩ := state_bind_ok_iff.mp h
    obtain ⟨co, _, ho, h⟩ := state_bind_ok_iff.mp h
    cases h
    have hleft : Raises cl a a (a + 1) := raises left (fun e he => hf e (.left he)) hl
    have hright : Raises cr a (a + 1) (a + 1 + 1) :=
      (raises right (fun e he => hf e (.right he)) hr).mono (by omega)
    have hop : Raises co a (a + 1 + 1) (a + 1) := by
      rw [Int.add_assoc]
      exact BinaryOp.lower_raises ho
    have ll := labelled left hl
    have lr := labelled right hr
    exact (hleft.append hright ll lr).append hop (ll.append lr) (BinaryOp.lower_labelled ho)
  | .unary _ op operand, hf, _, _, _, a, h => by
    obtain ⟨c, _, hc, h⟩ := state_bind_ok_iff.mp h
    cases h
    exact (raises operand (fun e he => hf e (.operand he)) hc).append op.lower_raises (labelled operand hc)
      (.straight op.lower_straight)
  | .methodCall note receiver method args, hf, _, _, _, a, h => by
    obtain ⟨_, cr, _, ca, cc, hr, ha, hc, rfl⟩ := lower_methodCall_ok h
    have hargs : Raises ca a (a + 1) (a + 1 + args.length) :=
      (raisesArgs args hf.methodArgs ha).mono (by omega)
    have hcall : Raises cc a (a + 1 + args.length) (a + 1) := by
      have heq : a + 1 + (args.length : Int) = a + (args.length + 1) := by omega
      rw [heq]
      exact Site.call_raises (hf _ .self) hc
    have lr := labelled receiver hr
    have la := labelledArgs args ha
    have hreceiver : Raises cr a a (a + 1) := raises receiver (fun e he => hf e (.receiver he)) hr
    exact (hreceiver.append hargs lr la).append hcall (lr.append la)
      (Site.call_labelled hc _)
  | .selfCall note method args, hf, n, _, _, a, h => by
    obtain ⟨ca, cc, ha, hc, rfl⟩ := lower_selfCall_ok h
    have hself : Raises (instrs [.push site.receiver]) a a (a + 1) :=
      .push (Int.le_refl a) (.nil (by omega))
    have hargs : Raises ca a (a + 1) (a + 1 + args.length) :=
      (raisesArgs args hf.selfArgs ha).mono (by omega)
    have hcall : Raises cc a (a + 1 + args.length) (a + 1) := by
      have heq : a + 1 + (args.length : Int) = a + (args.length + 1) := by omega
      rw [heq]
      exact Site.call_raises (hf _ .self) hc
    have ls : Labelled (instrs [.push site.receiver]) n n := .straight ⟨_, rfl, rfl⟩
    have la := labelledArgs args ha
    exact (hself.append hargs ls la).append hcall (ls.append la) (Site.call_labelled hc _)
  | .var _ name, _, _, _, _, _, h => by
    obtain ⟨hcode, rfl⟩ := state_lift_ok_iff.mp h
    exact Site.load_raises hcode
  | .num .., _, _, _, _, a, h | .bool .., _, _, _, _, a, h | .nothing .., _, _, _, _, a, h => by
    cases h
    exact .push (Int.le_refl a) (.nil (by omega))
  | .new _ cls, _, _, _, _, _, h => by
    obtain ⟨hcode, rfl⟩ := state_lift_ok_iff.mp h
    exact Site.allocate_raises hcode

/-- The code of arguments leaves one word more for each of them. -/
theorem raisesArgs : ∀ (args : List Expr), (∀ e ∈ args, e.FewArgs) →
    ∀ {n n' : Nat} {code : List Line} {a : Int},
    lowerArgs site args n = .ok (code, n') → Raises code a a (a + args.length)
  | [], _, _, _, _, a, h => by
    cases h
    rw [List.length_nil, Int.ofNat_zero, Int.add_zero]
    exact .nil (Int.le_refl a)
  | e :: rest, hf, _, _, _, a, h => by
    obtain ⟨cr, _, hr, h⟩ := state_bind_ok_iff.mp h
    obtain ⟨ce, _, he, h⟩ := state_bind_ok_iff.mp h
    cases h
    have hfirst : Raises ce a (a + rest.length) (a + rest.length + 1) :=
      (raises e (hf e List.mem_cons_self) he).mono (by omega)
    have hcount : a + ((e :: rest).length : Int) = a + rest.length + 1 := by
      rw [List.length_cons]
      omega
    rw [hcount]
    have hrest : Raises cr a a (a + rest.length) :=
      raisesArgs rest (fun e he => hf e (List.mem_cons_of_mem _ he)) hr
    exact hrest.append hfirst (labelledArgs rest hr) (labelled e he)

end

end Expr

namespace Stmt

variable {site : Site}

mutual

/-- The code of a statement leaves the stack as it was. -/
theorem level : ∀ (s : Stmt), s.FewArgs → ∀ {n n' : Nat} {code : List Line} {a : Int},
    s.lower site n = .ok (code, n') → Raises code a a a
  | .assign _ name value, hfew, _, _, _, a, h => by
    obtain ⟨cv, _, hv, h⟩ := state_bind_ok_iff.mp h
    obtain ⟨cs, _, hlift, hpure⟩ := state_bind_ok_iff.mp h
    obtain ⟨hs, rfl⟩ := state_lift_ok_iff.mp hlift
    cases hpure
    have hvalue : Raises cv a a (a + 1) := value.raises (fun e he => hfew e (.assign he)) hv
    exact hvalue.append (Site.store_raises hs) (value.labelled hv)
      (.straight (Site.store_straight hs))
  | .cond _ test body, hfew, _, _, _, a, h => by
    obtain ⟨finish, _, hf, h⟩ := state_bind_ok_iff.mp h
    cases hf
    obtain ⟨ct, _, ht, h⟩ := state_bind_ok_iff.mp h
    obtain ⟨cb, _, hb, h⟩ := state_bind_ok_iff.mp h
    cases h
    have htest : Raises ct a a (a + 1) := test.raises (fun e he => hfew e (.test he)) ht
    have hbody : Raises cb a a a := levelAll body (fun s hs e he => hfew e (.body hs he)) hb
    exact htest.around hbody (test.labelled ht) (labelledAll body hb)
  | .print _ value, hfew, _, _, _, a, h => by
    obtain ⟨cv, _, hv, h⟩ := state_bind_ok_iff.mp h
    cases h
    have hprint : Raises (instrs [.call printRoutine,
        .arith .add (.imm Word.size) (.reg .esp)]) a (a + 1) a :=
      .instr rfl rfl (by omega) (Int.add_zero _) (.instr rfl rfl (by omega)
        (Int.add_neg_cancel_right a 1) (.nil (Int.le_refl a)))
    have hvalue : Raises cv a a (a + 1) := value.raises (fun e he => hfew e (.print he)) hv
    exact hvalue.append hprint (value.labelled hv)
      (.of_no_target (by simp [instrs, Line.target?]))

/-- The code of statements leaves the stack as it was. -/
theorem levelAll : ∀ (body : List Stmt), (∀ s ∈ body, s.FewArgs) →
    ∀ {n n' : Nat} {code : List Line} {a : Int},
    lowerAll site body n = .ok (code, n') → Raises code a a a
  | [], _, _, _, _, a, h => by
    cases h
    exact .nil (Int.le_refl a)
  | s :: rest, hfew, _, _, _, a, h => by
    obtain ⟨cs, _, hs, h⟩ := state_bind_ok_iff.mp h
    obtain ⟨cr, _, hr, h⟩ := state_bind_ok_iff.mp h
    cases h
    have hfirst : Raises cs a a a := level s (hfew s List.mem_cons_self) hs
    have hrest : Raises cr a a a :=
      levelAll rest (fun s hs => hfew s (List.mem_cons_of_mem _ hs)) hr
    exact hfirst.append hrest (labelled s hs) (labelledAll rest hr)

end

end Stmt

end ClassLang
