import ClassLang.Proofs.Typing.Annotated

/-! # Partly annotated trees

    A check that stops early has written attributes up to the place where it
    stops.  What it leaves is the tree that it was given, with all attributes
    at the first expressions in checking order and none at the others.

    * **`Expr.nodes`** up to **`Program.nodes`**: the expressions of a tree in
      the order in which checking completes them, operands before the root.
    * **`Outcome.Annotates`**: what a check makes of a bare tree, with
      **`Outcome.Annotates.andThen`** for a check in several parts.
    * **`Expr.check_annotates`** up to **`Program.check_annotates`**: each check
      annotates its tree, whether it goes through or not. -/

namespace ClassLang

/-! ## The expressions of a tree -/

namespace Expr

mutual

/-- The expressions of a tree, in checking order: the root is the last. -/
def nodes : Expr → List Expr
  | binary n op left right => left.nodes ++ right.nodes ++ [binary n op left right]
  | unary n op operand => operand.nodes ++ [unary n op operand]
  | methodCall n receiver method args =>
    receiver.nodes ++ nodesAll args ++ [methodCall n receiver method args]
  | selfCall n method args => nodesAll args ++ [selfCall n method args]
  | var n name => [var n name]
  | num n value => [num n value]
  | bool n value => [bool n value]
  | nothing n => [nothing n]
  | new n cls => [new n cls]

/-- The expressions in a list of expressions, in checking order. -/
def nodesAll : List Expr → List Expr
  | [] => []
  | e :: rest => e.nodes ++ nodesAll rest

end

end Expr

namespace Stmt

mutual

/-- The expressions of a statement, in checking order. -/
def nodes : Stmt → List Expr
  | assign _ _ value => value.nodes
  | cond _ test body => test.nodes ++ nodesAll body
  | print _ value => value.nodes

/-- The expressions of statements, in checking order. -/
def nodesAll : List Stmt → List Expr
  | [] => []
  | s :: rest => s.nodes ++ nodesAll rest

end

end Stmt

/-- The expressions of a method, in checking order. -/
def Method.nodes (m : Method) : List Expr := Stmt.nodesAll m.body ++ m.value.nodes

/-- The expressions of a class, in checking order. -/
def ClassDecl.nodes (c : ClassDecl) : List Expr := c.methods.flatMap Method.nodes

/-- The expressions of a program, in checking order. -/
def Program.nodes (p : Program) : List Expr := p.classes.flatMap ClassDecl.nodes

/-! ## Attributes -/

/-- The expression has no attributes. -/
def Expr.Untouched (e : Expr) : Prop := e.note.erase = e.note

/-- The expression has all its attributes: a type, and a callee if it is a call. -/
def Expr.Completed (e : Expr) : Prop := e.ty?.isSome ∧ e.callee?.isSome = e.isCall

/-- The line and the type of an expression that has a type. -/
def Expr.typing? (e : Expr) : Option (Nat × Ty) := e.ty?.map (e.line, ·)

/-- The line and the type of the expression that an event tells of. -/
def Event.typing? : Event → Option (Nat × Ty)
  | typedExpression line ty => some (line, ty)
  | _ => none

/-! ## Bare trees

    A tree is its own erasure exactly if all its expressions are untouched. -/

mutual

theorem Expr.erase_eq_self_iff : ∀ {e : Expr}, e.erase = e ↔ ∀ x ∈ e.nodes, x.Untouched
  | .binary n op left right => by
    have hl : left.erase = left ↔ _ := Expr.erase_eq_self_iff
    have hr : right.erase = right ↔ _ := Expr.erase_eq_self_iff
    simp only [Expr.erase, Expr.nodes, Expr.binary.injEq, true_and, hl, hr,
      List.forall_mem_append, List.forall_mem_singleton]
    exact and_comm
  | .unary n op operand => by
    have ho : operand.erase = operand ↔ _ := Expr.erase_eq_self_iff
    simp only [Expr.erase, Expr.nodes, Expr.unary.injEq, true_and, ho,
      List.forall_mem_append, List.forall_mem_singleton]
    exact and_comm
  | .methodCall n receiver method args => by
    have hr : receiver.erase = receiver ↔ _ := Expr.erase_eq_self_iff
    have ha : Expr.eraseAll args = args ↔ _ := Expr.eraseAll_eq_self_iff
    simp only [Expr.erase, Expr.nodes, Expr.methodCall.injEq, true_and, hr, ha,
      List.forall_mem_append, List.forall_mem_singleton]
    exact and_comm
  | .selfCall n method args => by
    have ha : Expr.eraseAll args = args ↔ _ := Expr.eraseAll_eq_self_iff
    simp only [Expr.erase, Expr.nodes, Expr.selfCall.injEq, true_and, ha,
      List.forall_mem_append, List.forall_mem_singleton]
    exact and_comm
  | .var .. | .num .. | .bool .. | .nothing .. | .new .. => by
    simp [Expr.erase, Expr.nodes, Expr.Untouched, Expr.note]

theorem Expr.eraseAll_eq_self_iff : ∀ {es : List Expr},
    Expr.eraseAll es = es ↔ ∀ x ∈ Expr.nodesAll es, x.Untouched
  | [] => by simp [Expr.eraseAll, Expr.nodesAll]
  | e :: rest => by
    have he : e.erase = e ↔ _ := Expr.erase_eq_self_iff
    have hr : Expr.eraseAll rest = rest ↔ _ := Expr.eraseAll_eq_self_iff
    simp only [Expr.eraseAll, Expr.nodesAll, List.cons.injEq, he, hr, List.forall_mem_append]

end

mutual

theorem Stmt.erase_eq_self_iff : ∀ {s : Stmt}, s.erase = s ↔ ∀ x ∈ s.nodes, x.Untouched
  | .assign line name value => by
    simp only [Stmt.erase, Stmt.nodes, Stmt.assign.injEq, true_and, Expr.erase_eq_self_iff]
  | .cond line test body => by
    have hb : Stmt.eraseAll body = body ↔ _ := Stmt.eraseAll_eq_self_iff
    simp only [Stmt.erase, Stmt.nodes, Stmt.cond.injEq, true_and, Expr.erase_eq_self_iff, hb,
      List.forall_mem_append]
  | .print line value => by
    simp only [Stmt.erase, Stmt.nodes, Stmt.print.injEq, true_and, Expr.erase_eq_self_iff]

theorem Stmt.eraseAll_eq_self_iff : ∀ {body : List Stmt},
    Stmt.eraseAll body = body ↔ ∀ x ∈ Stmt.nodesAll body, x.Untouched
  | [] => by simp [Stmt.eraseAll, Stmt.nodesAll]
  | s :: rest => by
    have hs : s.erase = s ↔ _ := Stmt.erase_eq_self_iff
    have hr : Stmt.eraseAll rest = rest ↔ _ := Stmt.eraseAll_eq_self_iff
    simp only [Stmt.eraseAll, Stmt.nodesAll, List.cons.injEq, hs, hr, List.forall_mem_append]

end

/-- Items of a list are bare exactly if the list is. -/
theorem map_erase_eq_self_iff {α : Type} {erase : α → α} {nodes : α → List Expr} {as : List α}
    (h : ∀ a, erase a = a ↔ ∀ x ∈ nodes a, x.Untouched) :
    as.map erase = as ↔ ∀ x ∈ as.flatMap nodes, x.Untouched := by
  induction as with
  | nil => simp
  | cons a rest ih =>
    simp only [List.map_cons, List.flatMap_cons, List.cons.injEq, h, ih, List.forall_mem_append]

theorem Method.erase_eq_self_iff {m : Method} : m.erase = m ↔ ∀ x ∈ m.nodes, x.Untouched := by
  obtain ⟨name, result, params, locals, body, value, line⟩ := m
  simp only [erase, nodes, Method.mk.injEq, true_and, and_true, List.forall_mem_append,
    Stmt.eraseAll_eq_self_iff, Expr.erase_eq_self_iff]

theorem ClassDecl.erase_eq_self_iff {c : ClassDecl} :
    c.erase = c ↔ ∀ x ∈ c.nodes, x.Untouched := by
  obtain ⟨name, superclass, fields, methods, line⟩ := c
  simp only [erase, nodes, ClassDecl.mk.injEq, true_and, and_true,
    map_erase_eq_self_iff fun _ => Method.erase_eq_self_iff]

theorem Program.erase_eq_self_iff {p : Program} : p.erase = p ↔ ∀ x ∈ p.nodes, x.Untouched := by
  obtain ⟨classes, line⟩ := p
  simp only [erase, nodes, Program.mk.injEq, and_true,
    map_erase_eq_self_iff fun _ => ClassDecl.erase_eq_self_iff]

/-! ## What a check leaves -/

/-- Of the expressions after `before`, the check has completed these in order
    and tells of them, and has not touched those that wait. -/
structure Outcome.Progress (o : Outcome τ α) (nodes : τ → List Expr)
    (before completed waiting : List Expr) : Prop where
  order : nodes o.tree = before ++ completed ++ waiting
  complete : ∀ e ∈ completed, e.Completed
  untouched : ∀ e ∈ waiting, e.Untouched
  told : completed.filterMap Expr.typing? = o.journal.filterMap Event.typing?
  finished : ∀ a, o.result = .ok a → waiting = []

/-- The check of the bare tree `t` has changed nothing but attributes, and has
    set them in order.  The expressions `before` were completed before it. -/
structure Outcome.Annotates (o : Outcome τ α) (erase : τ → τ) (nodes : τ → List Expr) (t : τ)
    (before : List Expr) : Prop where
  shape : erase o.tree = t
  progress : ∃ completed waiting, o.Progress nodes before completed waiting

namespace Outcome

variable {τ σ α β : Type} {erase : τ → τ} {nodes : τ → List Expr} {erase' : σ → σ}
  {nodes' : σ → List Expr} {part : τ} {t : σ} {before : List Expr}

/-- A check that stops without having completed an expression. -/
theorem annotates_stop {tree : σ} {halt : Halt} {waiting : List Expr} (hshape : erase' tree = t)
    (hnodes : nodes' tree = before ++ waiting) (hwaiting : ∀ e ∈ waiting, e.Untouched) :
    (stop tree halt : Outcome σ β).Annotates erase' nodes' t before where
  shape := hshape
  progress := by
    refine ⟨[], waiting, ?_, by simp, hwaiting, rfl, nofun⟩
    rw [List.append_nil]
    exact hnodes

/-- A step after which no expression of the tree waits. -/
theorem annotates_end {o : Outcome σ β} (hshape : erase' o.tree = t) (hnodes : nodes' o.tree = before)
    (hjournal : o.journal.filterMap Event.typing? = []) :
    o.Annotates erase' nodes' t before where
  shape := hshape
  progress := by
    refine ⟨[], [], ?_, by simp, by simp, hjournal.symm, fun _ _ => rfl⟩
    rw [List.append_nil, List.append_nil]
    exact hnodes

/-- An event that is about no expression does not count. -/
theorem Annotates.after {o : Outcome σ β} {event : Event} (hevent : event.typing? = none)
    (h : o.Annotates erase' nodes' t before) :
    (o.after event).Annotates erase' nodes' t before where
  shape := h.shape
  progress := by
    obtain ⟨completed, waiting, hp⟩ := h.progress
    refine ⟨completed, waiting, hp.order, hp.complete, hp.untouched, ?_, hp.finished⟩
    rw [Outcome.after, List.filterMap_cons_none hevent]
    exact hp.told

/-- A check in two parts.  While the first one is under way, the expressions
    `before` are done, and all others outside of it are untouched. -/
theorem Annotates.andThen {o : Outcome τ α} {unfinished : τ → σ} {next : τ → α → Outcome σ β}
    (h : o.Annotates erase nodes part [])
    (hshape : ∀ part', erase part' = part → erase' (unfinished part') = t)
    (hnodes : ∀ part', ∃ waiting, nodes' (unfinished part') = before ++ nodes part' ++ waiting ∧
      ∀ e ∈ waiting, e.Untouched)
    (hnext : ∀ part' a, erase part' = part →
      (next part' a).Annotates erase' nodes' t (before ++ nodes part')) :
    (o.andThen unfinished next).Annotates erase' nodes' t before := by
  obtain ⟨part', journal, result⟩ := o
  obtain ⟨completed, waiting, hp⟩ := h.progress
  have hpart : nodes part' = completed ++ waiting := hp.order
  cases result with
  | error halt =>
    obtain ⟨others, hplaced, hothers⟩ := hnodes part'
    refine ⟨hshape part' h.shape, completed, waiting ++ others, ?_, hp.complete, ?_, hp.told, nofun⟩
    · show nodes' (unfinished part') = _
      rw [hplaced, hpart]
      simp only [List.append_assoc]
    · exact List.forall_mem_append.mpr ⟨hp.untouched, hothers⟩
  | ok a =>
    -- the first part is finished, so that its expressions are all completed
    have hall : nodes part' = completed := by
      rw [hpart, hp.finished a rfl, List.append_nil]
    have hrest := hnext part' a h.shape
    obtain ⟨completed', waiting', hq⟩ := hrest.progress
    refine ⟨hrest.shape, completed ++ completed', waiting', ?_, ?_, hq.untouched, ?_, hq.finished⟩
    · show nodes' (next part' a).tree = _
      rw [hq.order, hall, List.append_assoc before]
    · exact List.forall_mem_append.mpr ⟨hp.complete, hq.complete⟩
    · show _ = (journal ++ (next part' a).journal).filterMap Event.typing?
      rw [List.filterMap_append, List.filterMap_append, hp.told, hq.told]

/-- The check of a list: of its first item, and then of the others. -/
theorem Annotates.cons {γ : Type} {eraseAll : List τ → List τ} {nodesAll : List τ → List Expr}
    {item : τ} {rest : List τ} {first : Outcome τ α} {others : τ → α → Outcome (List τ) β}
    {result : α → β → γ} (herase : ∀ x xs, eraseAll (x :: xs) = erase x :: eraseAll xs)
    (hnodes : ∀ x xs, nodesAll (x :: xs) = nodes x ++ nodesAll xs)
    (hfirst : first.Annotates erase nodes item []) (hbare : eraseAll rest = rest)
    (huntouched : ∀ e ∈ nodesAll rest, e.Untouched)
    (hothers : ∀ item' a, (others item' a).Annotates eraseAll nodesAll rest []) :
    (first.andThen (· :: rest) fun item' a =>
      (others item' a).andThen (item' :: ·) fun rest' b =>
        .done (item' :: rest') (result a b)).Annotates eraseAll nodesAll (item :: rest) [] := by
  refine .andThen hfirst (fun item' hitem => ?_) (fun item' => ?_) ?_
  · rw [herase, hitem, hbare]
  · exact ⟨nodesAll rest, hnodes item' rest, huntouched⟩
  intro item' a hitem
  refine .andThen (hothers item' a) (fun rest' hrest => ?_) (fun rest' => ?_) ?_
  · rw [herase, hitem, hrest]
  · exact ⟨[], by simp [hnodes], by simp⟩
  intro rest' b hrest
  have hshape : eraseAll (item' :: rest') = item :: rest := by rw [herase, hitem, hrest]
  exact annotates_end hshape (hnodes item' rest') rfl

end Outcome

/-! ## Expressions -/

namespace Expr

variable {ctx : Context}

@[simp] theorem isCall_withNote (e : Expr) (n : Note) : (e.withNote n).isCall = e.isCall := by
  cases e <;> rfl

/-- Attributes do not matter to the erased tree. -/
theorem erase_withNote {e : Expr} {n : Note} (h : n.line = e.line) :
    (e.withNote n).erase = e.erase := by
  have hnote : n.erase = e.note.erase := by
    rw [Note.erase, Note.erase, h]
    rfl
  cases e <;> simp only [withNote, erase, hnote, note]

/-- All operands of the root are checked, the expressions `before`, and the
    root itself is not. -/
structure Ready (e t : Expr) (before : List Expr) : Prop where
  shape : e.erase = t
  untouched : e.Untouched
  nodes : ∀ n, (e.withNote n).nodes = before ++ [e.withNote n]

namespace Ready

variable {e t : Expr} {before : List Expr}

/-- A node whose operands are checked is completed, and told of. -/
theorem conclude {callee : Option String} {ty : Ty} (h : e.Ready t before)
    (hcallee : callee.isSome = e.isCall) :
    (e.conclude callee ty).Annotates erase Expr.nodes t before := by
  rw [conclude_of_bare h.untouched]
  refine ⟨?_, [e.withNote { line := e.line, ty := some ty, callee }], [], ?_, ?_, by simp, ?_,
    fun _ _ => rfl⟩
  · rw [← h.shape]
    exact erase_withNote rfl
  · rw [List.append_nil]
    exact h.nodes _
  · refine List.forall_mem_singleton.mpr ?_
    rw [Completed, ty?, callee?, note_withNote, isCall_withNote]
    exact ⟨rfl, hcallee⟩
  · simp only [List.filterMap_cons, List.filterMap_nil, typing?, ty?, line, note_withNote,
      Option.map_some, Event.typing?]

/-- A node that violates a rule stays as it is. -/
theorem violated {rule : Rule} {line : Nat} (h : e.Ready t before) :
    (Outcome.violated e rule line : Outcome Expr Ty).Annotates erase Expr.nodes t before := by
  have hnodes := h.nodes e.note
  rw [withNote_note] at hnodes
  exact Outcome.annotates_stop h.shape hnodes (List.forall_mem_singleton.mpr h.untouched)

theorem concludeIf {fits : Option Ty} (h : e.Ready t before) (hcall : e.isCall = false) :
    (e.concludeIf fits).Annotates erase Expr.nodes t before := by
  unfold Expr.concludeIf
  split
  · exact h.conclude hcall.symm
  · exact h.violated

theorem concludeCall {cls method : String} {args : List Ty} (h : e.Ready t before)
    (hcall : e.isCall = true) :
    (e.concludeCall ctx cls method args).Annotates erase Expr.nodes t before := by
  unfold Expr.concludeCall
  split
  · exact h.conclude hcall.symm
  · exact h.violated

theorem concludeVar {name : String} (h : e.Ready t before) (hcall : e.isCall = false) :
    (e.concludeVar ctx name).Annotates erase Expr.nodes t before := by
  unfold Expr.concludeVar
  split
  · exact h.violated
  · split
    · exact h.conclude hcall.symm
    · exact h.violated

/-- A node without operands is ready from the start. -/
theorem leaf (hbare : e.erase = e) (hnodes : ∀ n, (e.withNote n).nodes = [e.withNote n]) :
    e.Ready e [] where
  shape := hbare
  untouched := by
    have hall := erase_eq_self_iff.mp hbare
    rw [← e.withNote_note, hnodes, withNote_note] at hall
    exact List.forall_mem_singleton.mp hall
  nodes := hnodes

end Ready

mutual

/-- Checking a bare expression annotates it. -/
theorem check_annotates : ∀ {e : Expr}, e.erase = e →
    (e.check ctx).Annotates erase nodes e []
  | .binary n op left right, hbare => by
    obtain ⟨hn, -, hl, hr⟩ := Expr.binary.inj hbare
    -- the right operand and the root wait while the left operand is checked
    refine .andThen (check_annotates hl) (fun left' hl' => ?_) (fun left' => ?_) ?_
    · rw [erase, hn, hl', hr]
    · refine ⟨right.nodes ++ [binary n op left' right], by simp [nodes], ?_⟩
      exact List.forall_mem_append.mpr
        ⟨erase_eq_self_iff.mp hr, List.forall_mem_singleton.mpr hn⟩
    intro left' leftTy hl'
    refine .andThen (check_annotates hr) (fun right' hr' => ?_) (fun right' => ?_) ?_
    · rw [erase, hn, hl', hr']
    · exact ⟨[binary n op left' right'], by simp [nodes], List.forall_mem_singleton.mpr hn⟩
    intro right' rightTy hr'
    have hready : (binary n op left' right').Ready (binary n op left right)
        (left'.nodes ++ right'.nodes) :=
      ⟨by rw [erase, hn, hl', hr'], hn, fun _ => by simp [withNote, nodes]⟩
    exact hready.concludeIf rfl
  | .unary n op operand, hbare => by
    obtain ⟨hn, -, ho⟩ := Expr.unary.inj hbare
    refine .andThen (check_annotates ho) (fun operand' ho' => ?_) (fun operand' => ?_) ?_
    · rw [erase, hn, ho']
    · exact ⟨[unary n op operand'], by simp [nodes], List.forall_mem_singleton.mpr hn⟩
    intro operand' ty ho'
    have hready : (unary n op operand').Ready (unary n op operand) operand'.nodes :=
      ⟨by rw [erase, hn, ho'], hn, fun _ => by simp [withNote, nodes]⟩
    exact hready.concludeIf rfl
  | .methodCall n receiver method args, hbare => by
    obtain ⟨hn, hr, -, ha⟩ := Expr.methodCall.inj hbare
    have hargs := eraseAll_eq_self_iff.mp ha
    refine .andThen (check_annotates hr) (fun receiver' hr' => ?_) (fun receiver' => ?_)
      ?_
    · rw [erase, hn, hr', ha]
    · refine ⟨nodesAll args ++ [methodCall n receiver' method args], by simp [nodes], ?_⟩
      exact List.forall_mem_append.mpr ⟨hargs, List.forall_mem_singleton.mpr hn⟩
    intro receiver' ty hr'
    cases ty with
    | object cls =>
      refine .andThen (checkAll_annotates ha) (fun args' ha' => ?_) (fun args' => ?_) ?_
      · rw [erase, hn, hr', ha']
      · exact ⟨[methodCall n receiver' method args'], by simp [nodes],
          List.forall_mem_singleton.mpr hn⟩
      intro args' argTys ha'
      have hready : (methodCall n receiver' method args').Ready (methodCall n receiver method args)
          (receiver'.nodes ++ nodesAll args') := ⟨by rw [erase, hn, hr', ha'], hn, fun _ => by simp [withNote, nodes]⟩
      exact hready.concludeCall rfl
    | int | bool | nothing | func =>
      -- the arguments are not looked at if the receiver is no object
      have hshape : (methodCall n receiver' method args).erase = methodCall n receiver method args :=
        by rw [erase, hn, hr', ha]
      have hnodes : (methodCall n receiver' method args).nodes = [] ++ receiver'.nodes ++
          (nodesAll args ++ [methodCall n receiver' method args]) := by simp [nodes]
      exact Outcome.annotates_stop hshape hnodes
        (List.forall_mem_append.mpr ⟨hargs, List.forall_mem_singleton.mpr hn⟩)
  | .selfCall n method args, hbare => by
    obtain ⟨hn, -, ha⟩ := Expr.selfCall.inj hbare
    refine .andThen (checkAll_annotates ha) (fun args' ha' => ?_) (fun args' => ?_) ?_
    · rw [erase, hn, ha']
    · exact ⟨[selfCall n method args'], by simp [nodes], List.forall_mem_singleton.mpr hn⟩
    intro args' argTys ha'
    have hready : (selfCall n method args').Ready (selfCall n method args) (nodesAll args') :=
      ⟨by rw [erase, hn, ha'], hn, fun _ => by simp [withNote, nodes]⟩
    exact hready.concludeCall rfl
  | .var n name, hbare => (Ready.leaf hbare fun _ => by rw [withNote, nodes]).concludeVar rfl
  | .num n value, hbare => (Ready.leaf hbare fun _ => by rw [withNote, nodes]).conclude rfl
  | .bool n value, hbare => (Ready.leaf hbare fun _ => by rw [withNote, nodes]).conclude rfl
  | .nothing n, hbare => (Ready.leaf hbare fun _ => by rw [withNote, nodes]).conclude rfl
  | .new n cls, hbare => by
    have hready : (new n cls).Ready (new n cls) [] :=
      .leaf hbare fun _ => by rw [withNote, nodes]
    unfold check
    split
    · exact hready.conclude rfl
    · exact hready.violated

/-- Checking bare arguments annotates them. -/
theorem checkAll_annotates : ∀ {es : List Expr}, eraseAll es = es →
    (checkAll ctx es).Annotates eraseAll nodesAll es []
  | [], _ => Outcome.annotates_end rfl rfl rfl
  | e :: rest, hbare => by
    obtain ⟨he, hr⟩ := List.cons.inj hbare
    exact .cons (fun _ _ => rfl) (fun _ _ => rfl) (check_annotates he) hr
      (eraseAll_eq_self_iff.mp hr) fun _ _ => checkAll_annotates hr

end

end Expr

/-! ## Statements -/

namespace Stmt

variable {ctx : Context}

mutual

/-- Checking a bare statement annotates it. -/
theorem check_annotates : ∀ {s : Stmt}, s.erase = s → (s.check ctx).Annotates erase nodes s []
  | .assign line name value, hbare => by
    obtain ⟨-, -, hv⟩ := Stmt.assign.inj hbare
    unfold check
    refine .andThen (Expr.check_annotates hv) (fun value' hv' => ?_) (fun value' => ?_) ?_
    · rw [erase, hv']
    · exact ⟨[], by simp [nodes], by simp⟩
    intro value' ty hv'
    have hshape : (assign line name value').erase = assign line name value := by rw [erase, hv']
    have hnodes : (assign line name value').nodes = [] ++ value'.nodes := by rw [nodes]; rfl
    split
    · exact Outcome.annotates_end hshape hnodes rfl
    · split
      · exact Outcome.annotates_end hshape hnodes rfl
      · exact Outcome.annotates_end hshape hnodes rfl
  | .cond line test body, hbare => by
    obtain ⟨-, ht, hb⟩ := Stmt.cond.inj hbare
    have hbody := eraseAll_eq_self_iff.mp hb
    unfold check
    refine .andThen (Expr.check_annotates ht) (fun test' ht' => ?_) (fun test' => ?_) ?_
    · rw [erase, ht', hb]
    · exact ⟨nodesAll body, by simp [nodes], hbody⟩
    intro test' ty ht'
    split
    · refine .andThen (checkAll_annotates hb) (fun body' hb' => ?_) (fun body' => ?_) ?_
      · rw [erase, ht', hb']
      · exact ⟨[], by simp [nodes], by simp⟩
      intro body' _ hb'
      have hshape : (cond line test' body').erase = cond line test body := by rw [erase, ht', hb']
      have hnodes : (cond line test' body').nodes = [] ++ test'.nodes ++ nodesAll body' := by
        rw [nodes]
        rfl
      exact Outcome.annotates_end hshape hnodes rfl
    · have hshape : (cond line test' body).erase = cond line test body := by rw [erase, ht', hb]
      have hnodes : (cond line test' body).nodes = [] ++ test'.nodes ++ nodesAll body := by
        rw [nodes]
        rfl
      exact Outcome.annotates_stop hshape hnodes hbody
  | .print line value, hbare => by
    obtain ⟨-, hv⟩ := Stmt.print.inj hbare
    unfold check
    refine .andThen (Expr.check_annotates hv) (fun value' hv' => ?_) (fun value' => ?_) ?_
    · rw [erase, hv']
    · exact ⟨[], by simp [nodes], by simp⟩
    intro value' ty hv'
    have hshape : (print line value').erase = print line value := by rw [erase, hv']
    have hnodes : (print line value').nodes = [] ++ value'.nodes := by rw [nodes]; rfl
    split
    · exact Outcome.annotates_end hshape hnodes rfl
    · exact Outcome.annotates_end hshape hnodes rfl

/-- Checking bare statements annotates them. -/
theorem checkAll_annotates : ∀ {body : List Stmt}, eraseAll body = body →
    (checkAll ctx body).Annotates eraseAll nodesAll body []
  | [], _ => Outcome.annotates_end rfl rfl rfl
  | s :: rest, hbare => by
    obtain ⟨hs, hr⟩ := List.cons.inj hbare
    exact .cons (fun _ _ => rfl) (fun _ _ => rfl) (check_annotates hs) hr
      (eraseAll_eq_self_iff.mp hr) fun _ _ => checkAll_annotates hr

end

end Stmt

/-! ## Methods, classes and programs -/

namespace Method

variable {t : Tables} {cls : String}

/-- Publishing a method completes no expression. -/
theorem publish_annotates {m bare : Method} (hshape : m.erase = bare) :
    (m.publish cls t).Annotates erase nodes bare m.nodes := by
  unfold publish
  refine .after rfl ?_
  split
  · exact Outcome.annotates_end hshape rfl rfl
  · exact Outcome.annotates_end hshape rfl rfl
  · exact Outcome.annotates_end hshape rfl rfl

/-- Checking a bare method annotates it. -/
theorem check_annotates {m : Method} (hbare : m.erase = m) :
    (m.check cls t).Annotates erase nodes m [] := by
  have hbody : Stmt.eraseAll m.body = m.body := congrArg Method.body hbare
  have hvalue : m.value.erase = m.value := congrArg Method.value hbare
  unfold check
  split
  · exact Outcome.annotates_stop hbare rfl (erase_eq_self_iff.mp hbare)
  -- the value waits while the statements are checked
  unfold checkBody
  refine .andThen (Stmt.checkAll_annotates hbody) (fun body' hb => ?_) (fun body' => ?_) ?_
  · simp only [erase, hb, hvalue]
  · exact ⟨m.value.nodes, rfl, Expr.erase_eq_self_iff.mp hvalue⟩
  intro body' _ hb
  refine .andThen (Expr.check_annotates hvalue) (fun value' hv => ?_) (fun value' => ?_) ?_
  · simp only [erase, hb, hv]
  · exact ⟨[], (List.append_nil _).symm, by simp⟩
  intro value' ty hv
  have hshape : { m with body := body', value := value' }.erase = m := by
    simp only [erase, hb, hv]
  dsimp only
  split
  · exact publish_annotates hshape
  · exact Outcome.annotates_end hshape rfl rfl

/-- Checking bare methods annotates them. -/
theorem checkAll_annotates {methods : List Method} (hbare : methods.map erase = methods) :
    (checkAll cls t methods).Annotates (List.map erase) (List.flatMap nodes) methods [] := by
  induction methods generalizing t with
  | nil => exact Outcome.annotates_end rfl rfl rfl
  | cons m rest ih =>
    obtain ⟨hm, hr⟩ := List.cons.inj hbare
    exact .cons (fun _ _ => rfl) (fun _ _ => List.flatMap_cons) (check_annotates hm) hr
      ((map_erase_eq_self_iff fun _ => erase_eq_self_iff).mp hr) fun _ _ => ih hr

end Method

namespace ClassDecl

variable {t : Tables}

/-- Checking a bare class annotates it. -/
theorem check_annotates {index : Nat} {c : ClassDecl} (hbare : c.erase = c) :
    (c.check index t).Annotates erase nodes c [] := by
  have hmethods : c.methods.map Method.erase = c.methods := congrArg ClassDecl.methods hbare
  have huntouched := erase_eq_self_iff.mp hbare
  unfold check
  split
  · exact Outcome.annotates_stop hbare rfl huntouched
  refine .after rfl ?_
  unfold checkMembers
  split
  · exact Outcome.annotates_stop hbare rfl huntouched
  refine .andThen (Method.checkAll_annotates hmethods) (fun methods' hm => ?_) (fun methods' => ?_)
    ?_
  · simp only [erase, hm]
  · exact ⟨[], (List.append_nil _).symm, by simp⟩
  intro methods' _ hm
  have hshape : { c with methods := methods' }.erase = c := by simp only [erase, hm]
  exact Outcome.annotates_end hshape rfl rfl

/-- Checking bare classes annotates them. -/
theorem checkAll_annotates {index : Nat} {classes : List ClassDecl}
    (hbare : classes.map erase = classes) :
    (checkAll index t classes).Annotates (List.map erase) (List.flatMap nodes) classes [] := by
  induction classes generalizing t index with
  | nil => exact Outcome.annotates_end rfl rfl rfl
  | cons c rest ih =>
    obtain ⟨hc, hr⟩ := List.cons.inj hbare
    exact .cons (fun _ _ => rfl) (fun _ _ => List.flatMap_cons) (check_annotates hc) hr
      ((map_erase_eq_self_iff fun _ => erase_eq_self_iff).mp hr) fun _ _ => ih hr

end ClassDecl

/-- Checking a bare program annotates it: it stays the same program, each of its
    expressions has all its attributes or none, and the check tells of those
    that have them, in order. -/
theorem Program.check_annotates {p : Program} (hbare : p.erase = p) :
    p.check.Annotates erase nodes p [] := by
  have hclasses : p.classes.map ClassDecl.erase = p.classes := congrArg Program.classes hbare
  refine .andThen (ClassDecl.checkAll_annotates hclasses) (fun classes' hc => ?_)
    (fun classes' => ?_) ?_
  · simp only [erase, hc]
  · exact ⟨[], (List.append_nil _).symm, by simp⟩
  intro classes' t hc
  have hshape : { p with classes := classes' }.erase = p := by simp only [erase, hc]
  dsimp only
  split
  · exact Outcome.annotates_end hshape rfl rfl
  · exact Outcome.annotates_end hshape rfl rfl

end ClassLang
