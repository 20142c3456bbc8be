import ClassLang.Proofs.Typing.Contract
import ClassLang.Proofs.Typing.Partial

/-! # Checking a tree again

    Attributes are written once.  A check starts with empty tables whatever was
    checked before, so that it takes the same way through the tree up to the
    first expression; if that expression has its attributes already, checking
    halts there.

    * **`Outcome.Completes`**: a check has completed an expression.
    * **`Outcome.Refuses`**: a check halts at an expression that has its
      attributes, and leaves the tree alone.
    * **`Expr.check_refuses`** up to **`Program.check_refuses`**: where the check of
      the bare tree completes an expression, the check of any tree whose first
      expression is completed refuses it.
    * **`Program.afterChecks`** is the tree after a number of checks, and
      **`Program.attributes_writeOnce`** says what becomes of a program that is
      checked again and again. -/

namespace ClassLang

/-! ## Recording again -/

/-- The attribute that is recorded first. -/
def Expr.firstAttribute (e : Expr) : String :=
  if e.callee?.isSome then "callee" else "type attribute"

/-- The fault of recording the attributes of an expression that has them. -/
def Expr.recordedAgain (e : Expr) : Fault :=
  if e.callee?.isSome then .calleeResolved e else .typeResolved e

theorem Expr.recordedAgain_message (e : Expr) : e.recordedAgain.message =
    e.firstAttribute ++ " of " ++ e.describe ++ " was already resolved" := by
  unfold recordedAgain firstAttribute
  split <;> rfl

namespace Outcome

variable {τ σ α β : Type}

/-- The check tells of an expression that it has completed. -/
def Completes (o : Outcome τ α) : Prop := o.journal.filterMap Event.typing? ≠ []

/-- The check halts at an expression that has its attributes, and the tree is
    as it was. -/
structure Refuses (o : Outcome τ α) (t : τ) (e : Expr) : Prop where
  tree : o.tree = t
  result : o.result = .error (.fault e.recordedAgain)

theorem not_completes_stop {tree : τ} {halt : Halt} : ¬ (stop tree halt : Outcome τ α).Completes :=
  fun h => h rfl

theorem not_completes_done {tree : τ} {a : α} : ¬ (done tree a).Completes :=
  fun h => h rfl

theorem Completes.of_after {o : Outcome τ α} {event : Event} (hevent : event.typing? = none)
    (h : (after event o).Completes) : o.Completes := by
  rw [Completes, after, List.filterMap_cons_none hevent] at h
  exact h

/-- Either the first part of a sequence completes an expression, or the second
    part is reached and does. -/
theorem Completes.of_andThen {o : Outcome τ α} {unfinished : τ → σ}
    {next : τ → α → Outcome σ β} (h : (o.andThen unfinished next).Completes) :
    o.Completes ∨ ∃ a, o.result = .ok a ∧ (next o.tree a).Completes := by
  obtain ⟨tree, journal, result⟩ := o
  cases result with
  | error halt => exact Or.inl h
  | ok a =>
    have h : (journal ++ (next tree a).journal).filterMap Event.typing? ≠ [] := h
    rw [List.filterMap_append, ne_eq, List.append_eq_nil_iff, not_and_or] at h
    exact h.imp id fun h => ⟨a, rfl, h⟩

theorem Refuses.after {o : Outcome τ α} {event : Event} {t : τ} {e : Expr} (h : o.Refuses t e) :
    (after event o).Refuses t e := ⟨h.tree, h.result⟩

/-- A sequence halts where its first part does. -/
theorem Refuses.andThen {o : Outcome τ α} {unfinished : τ → σ} {next : τ → α → Outcome σ β}
    {part : τ} {e : Expr} (h : o.Refuses part e) :
    (o.andThen unfinished next).Refuses (unfinished part) e := by
  obtain ⟨tree, journal, result⟩ := o
  obtain ⟨rfl, rfl⟩ := h
  exact ⟨rfl, rfl⟩

/-- A sequence halts where its second part does, if that is reached. -/
theorem Refuses.of_next {o : Outcome τ α} {unfinished : τ → σ} {next : τ → α → Outcome σ β}
    {part : τ} {a : α} {t : σ} {e : Expr} (ho : o.Yields part a) (h : (next part a).Refuses t e) :
    (o.andThen unfinished next).Refuses t e := by
  obtain ⟨tree, journal, result⟩ := o
  obtain ⟨rfl, rfl⟩ := ho
  exact ⟨h.tree, h.result⟩

/-- A check completes an expression exactly if it makes progress. -/
theorem Progress.completes_iff {o : Outcome τ α} {nodes : τ → List Expr}
    {before completed waiting : List Expr} (h : o.Progress nodes before completed waiting) :
    o.Completes ↔ completed ≠ [] := by
  rw [Completes, ← h.told, ne_eq, List.filterMap_eq_nil_iff]
  cases completed with
  | nil => simp
  | cons e rest =>
    refine iff_of_true (fun hall => ?_) (List.cons_ne_nil e rest)
    obtain ⟨ty, hty⟩ := Option.isSome_iff_exists.mp (h.complete e List.mem_cons_self).1
    have hnone := hall e List.mem_cons_self
    rw [Expr.typing?, hty] at hnone
    cases hnone

/-- A part of a sequence with at least one expression completes an expression,
    if the sequence does. -/
theorem Annotates.completes_of_andThen {o : Outcome τ α} {unfinished : τ → σ}
    {next : τ → α → Outcome σ β} {erase : τ → τ} {nodes : τ → List Expr} {t : τ}
    (h : o.Annotates erase nodes t []) (hne : nodes o.tree ≠ [])
    (hc : (o.andThen unfinished next).Completes) : o.Completes := by
  rcases hc.of_andThen with hc | ⟨a, ha, -⟩
  · exact hc
  · obtain ⟨completed, waiting, hp⟩ := h.progress
    rw [hp.completes_iff]
    have horder := hp.order
    rw [hp.finished a ha, List.nil_append, List.append_nil] at horder
    exact horder ▸ hne

/-- What is left of a list with items has items. -/
theorem Annotates.tree_ne_nil {o : Outcome (List τ) α} {eraseAll : List τ → List τ}
    {nodesAll : List τ → List Expr} {item : τ} {rest : List τ}
    (h : o.Annotates eraseAll nodesAll (item :: rest) []) (hnil : eraseAll [] = []) :
    o.tree ≠ [] := by
  intro htree
  have hshape := h.shape
  rw [htree, hnil] at hshape
  cases hshape

end Outcome

/-! ## Expressions -/

namespace Expr

variable {ctx : Context}

theorem nodes_ne_nil (e : Expr) : e.nodes ≠ [] := by
  cases e <;> simp [nodes]

theorem nodesAll_ne_nil {es : List Expr} (h : es ≠ []) : nodesAll es ≠ [] := by
  cases es with
  | nil => exact absurd rfl h
  | cons e rest => simp [nodesAll, nodes_ne_nil]

/-- The first operand completes an expression, if the whole does. -/
theorem completes_of_andThen {e : Expr} {unfinished : Expr → σ} {next : Expr → Ty → Outcome σ β}
    (h : ((e.erase.check ctx).andThen unfinished next).Completes) :
    (e.erase.check ctx).Completes :=
  (check_annotates e.erase_erase).completes_of_andThen (nodes_ne_nil _) h

/-- A completed node cannot be completed again; a call refuses its callee. -/
theorem conclude_refuses {e : Expr} {callee : Option String} {ty : Ty} (h : e.Completed)
    (hcallee : callee.isSome = e.isCall) : (e.conclude callee ty).Refuses e e := by
  obtain ⟨hty, hsome⟩ := h
  rw [← hcallee] at hsome
  unfold conclude
  refine Outcome.Refuses.after ?_
  cases callee with
  | none =>
    obtain ⟨old, hold⟩ := Option.isSome_iff_exists.mp hty
    have htaken : e.setTy? ty = none := by rw [setTy?, hold]
    have hagain : e.recordedAgain = .typeResolved e := if_neg (by simp [hsome])
    simp only [recordCallee, htaken]
    exact ⟨rfl, by rw [hagain]; rfl⟩
  | some cls =>
    obtain ⟨old, hold⟩ := Option.isSome_iff_exists.mp hsome
    have htaken : e.setCallee? cls = none := by rw [setCallee?, hold]
    have hagain : e.recordedAgain = .calleeResolved e := if_pos hsome
    simp only [recordCallee, htaken]
    exact ⟨rfl, by rw [hagain]; rfl⟩

theorem concludeCall_refuses {e bare : Expr} {cls method : String} {args : List Ty}
    (hc : (bare.concludeCall ctx cls method args).Completes) (h : e.Completed)
    (hcall : e.isCall = true) : (e.concludeCall ctx cls method args).Refuses e e := by
  unfold concludeCall at hc ⊢
  split at hc
  · exact conclude_refuses h hcall.symm
  · exact absurd hc Outcome.not_completes_stop

theorem concludeVar_refuses {e bare : Expr} {name : String}
    (hc : (bare.concludeVar ctx name).Completes) (h : e.Completed) (hcall : e.isCall = false) :
    (e.concludeVar ctx name).Refuses e e := by
  unfold concludeVar at hc ⊢
  split at hc
  · exact absurd hc Outcome.not_completes_stop
  · split at hc
    · next hvariable =>
      rw [if_pos hvariable]
      exact conclude_refuses h hcall.symm
    · exact absurd hc Outcome.not_completes_stop

mutual

/-- Where the check of the bare expression completes an expression, the check of
    an expression that is completed at its first node refuses that node. -/
theorem check_refuses : ∀ {e x : Expr}, (e.erase.check ctx).Completes → e.nodes.head? = some x →
    x.Completed → (e.check ctx).Refuses e x
  | .binary n op left right, x, hc, hx, hdone => by
    rw [nodes, List.append_assoc, List.head?_append_of_ne_nil _ left.nodes_ne_nil] at hx
    exact .andThen (check_refuses (completes_of_andThen hc) hx hdone)
  | .unary n op operand, x, hc, hx, hdone => by
    rw [nodes, List.head?_append_of_ne_nil _ operand.nodes_ne_nil] at hx
    exact .andThen (check_refuses (completes_of_andThen hc) hx hdone)
  | .methodCall n receiver method args, x, hc, hx, hdone => by
    rw [nodes, List.append_assoc, List.head?_append_of_ne_nil _ receiver.nodes_ne_nil] at hx
    exact .andThen (check_refuses (completes_of_andThen hc) hx hdone)
  | .selfCall n method [], x, hc, hx, hdone => by
    -- without arguments the call itself is the first expression
    cases hx
    exact concludeCall_refuses hc hdone rfl
  | .selfCall n method (arg :: rest), x, hc, hx, hdone => by
    have hargs : arg :: rest ≠ [] := List.cons_ne_nil _ _
    rw [nodes, List.head?_append_of_ne_nil _ (nodesAll_ne_nil hargs)] at hx
    have hleft : (checkAll ctx (eraseAll (arg :: rest))).Annotates eraseAll nodesAll
        (eraseAll (arg :: rest)) [] := checkAll_annotates (eraseAll_eraseAll (arg :: rest))
    have hsome := nodesAll_ne_nil (hleft.tree_ne_nil rfl)
    exact .andThen (checkAll_refuses (hleft.completes_of_andThen hsome hc) hx hdone)
  | .var n name, x, hc, hx, hdone => by
    cases hx
    exact concludeVar_refuses hc hdone rfl
  | .num n value, x, _, hx, hdone => by
    cases hx
    exact conclude_refuses hdone rfl
  | .bool n value, x, _, hx, hdone => by
    cases hx
    exact conclude_refuses hdone rfl
  | .nothing n, x, _, hx, hdone => by
    cases hx
    exact conclude_refuses hdone rfl
  | .new n cls, x, hc, hx, hdone => by
    cases hx
    rw [erase, check] at hc
    rw [check]
    split at hc
    · next hknown =>
      rw [if_pos hknown]
      exact conclude_refuses hdone rfl
    · exact absurd hc Outcome.not_completes_stop

/-- The same for arguments. -/
theorem checkAll_refuses : ∀ {es : List Expr} {x : Expr}, (checkAll ctx (eraseAll es)).Completes →
    (nodesAll es).head? = some x → x.Completed → (checkAll ctx es).Refuses es x
  | e :: rest, x, hc, hx, hdone => by
    rw [nodesAll, List.head?_append_of_ne_nil _ e.nodes_ne_nil] at hx
    exact .andThen (check_refuses (completes_of_andThen hc) hx hdone)

end

end Expr

/-! ## Statements -/

namespace Stmt

variable {ctx : Context}

theorem nodes_ne_nil (s : Stmt) : s.nodes ≠ [] := by
  cases s <;> simp [nodes, Expr.nodes_ne_nil]

theorem nodesAll_ne_nil {body : List Stmt} (h : body ≠ []) : nodesAll body ≠ [] := by
  cases body with
  | nil => exact absurd rfl h
  | cons s rest => simp [nodesAll, nodes_ne_nil]

/-- The check of a statement refuses the first expression, if it is completed.
    A statement starts with an expression, so that only the first statement of
    a list counts. -/
theorem check_refuses {s : Stmt} {x : Expr} (hc : (s.erase.check ctx).Completes)
    (hx : s.nodes.head? = some x) (hdone : x.Completed) : (s.check ctx).Refuses s x := by
  cases s with
  | assign line name value =>
    rw [erase, check] at hc
    rw [nodes] at hx
    rw [check]
    exact .andThen (Expr.check_refuses (Expr.completes_of_andThen hc) hx hdone)
  | cond line test body =>
    rw [erase, check] at hc
    rw [nodes, List.head?_append_of_ne_nil _ test.nodes_ne_nil] at hx
    rw [check]
    exact .andThen (Expr.check_refuses (Expr.completes_of_andThen hc) hx hdone)
  | print line value =>
    rw [erase, check] at hc
    rw [nodes] at hx
    rw [check]
    exact .andThen (Expr.check_refuses (Expr.completes_of_andThen hc) hx hdone)

theorem checkAll_refuses {body : List Stmt} {x : Expr} (hc : (checkAll ctx (eraseAll body)).Completes)
    (hx : (nodesAll body).head? = some x) (hdone : x.Completed) :
    (checkAll ctx body).Refuses body x := by
  cases body with
  | nil => cases hx
  | cons s rest =>
    rw [nodesAll, List.head?_append_of_ne_nil _ s.nodes_ne_nil] at hx
    rw [eraseAll, checkAll] at hc
    have hfirst := (check_annotates s.erase_erase).completes_of_andThen (nodes_ne_nil _) hc
    rw [checkAll]
    exact .andThen (check_refuses hfirst hx hdone)

end Stmt

/-! ## Methods, classes and programs -/

namespace Method

variable {t : Tables} {cls : String}

theorem nodes_ne_nil (m : Method) : m.nodes ≠ [] := by
  simp [nodes, Expr.nodes_ne_nil]

/-- The check of a method refuses its first expression, if it is completed: that
    of its first statement or, if it has none, of its value. -/
theorem check_refuses {m : Method} {x : Expr} (hc : (m.erase.check cls t).Completes)
    (hx : m.nodes.head? = some x) (hdone : x.Completed) : (m.check cls t).Refuses m x := by
  -- the variables of a method do not depend on its body
  have henter : m.erase.enter t = m.enter t := rfl
  unfold check at hc ⊢
  rw [henter] at hc
  cases hinside : m.enter t with
  | error v =>
    rw [hinside] at hc
    exact absurd hc Outcome.not_completes_stop
  | ok inside =>
    rw [hinside] at hc
    obtain ⟨name, result, params, locals, body, value, line⟩ := m
    cases body with
    | nil =>
      have hvalue := (Expr.check_annotates value.erase_erase).completes_of_andThen
        (Expr.nodes_ne_nil _) hc
      simp only [checkBody, Stmt.checkAll, Outcome.andThen_done]
      exact .andThen (Expr.check_refuses hvalue hx hdone)
    | cons s rest =>
      have hleft : (Stmt.checkAll ⟨inside, cls⟩ (Stmt.eraseAll (s :: rest))).Annotates
          Stmt.eraseAll Stmt.nodesAll (Stmt.eraseAll (s :: rest)) [] :=
        Stmt.checkAll_annotates (Stmt.eraseAll_eraseAll (s :: rest))
      have hsome := Stmt.nodesAll_ne_nil (hleft.tree_ne_nil rfl)
      have hbody : (Stmt.nodesAll (s :: rest)).head? = some x := by
        rw [nodes, List.head?_append_of_ne_nil _ (Stmt.nodesAll_ne_nil (List.cons_ne_nil _ _))] at hx
        exact hx
      simp only [checkBody]
      exact .andThen (Stmt.checkAll_refuses (hleft.completes_of_andThen hsome hc) hbody hdone)

theorem checkAll_refuses {methods : List Method} {x : Expr}
    (hc : (checkAll cls t (methods.map erase)).Completes)
    (hx : (methods.flatMap nodes).head? = some x) (hdone : x.Completed) :
    (checkAll cls t methods).Refuses methods x := by
  cases methods with
  | nil => cases hx
  | cons m rest =>
    rw [List.flatMap_cons, List.head?_append_of_ne_nil _ m.nodes_ne_nil] at hx
    have hfirst := (check_annotates m.erase_erase).completes_of_andThen (nodes_ne_nil _) hc
    exact .andThen (check_refuses hfirst hx hdone)

end Method

namespace ClassDecl

variable {t : Tables}

/-- The check of a class refuses its first expression, if it is completed: no
    expression stands before the methods. -/
theorem check_refuses {index : Nat} {c : ClassDecl} {x : Expr}
    (hc : (c.erase.check index t).Completes) (hx : c.nodes.head? = some x) (hdone : x.Completed) :
    (c.check index t).Refuses c x := by
  -- neither the header of a class nor its fields hold an expression
  have hregister : t.openScope.register index c.erase = t.openScope.register index c := rfl
  unfold check at hc ⊢
  rw [hregister] at hc
  cases hknown : t.openScope.register index c with
  | error v =>
    rw [hknown] at hc
    exact absurd hc Outcome.not_completes_stop
  | ok known =>
    rw [hknown] at hc
    refine .after ?_
    have hc : (checkMembers known c.erase).Completes := hc.of_after rfl
    have hfields : c.erase.fields.foldlM (Tables.declareField c.erase.name) known =
        c.fields.foldlM (Tables.declareField c.name) known := rfl
    unfold checkMembers at hc ⊢
    rw [hfields] at hc
    cases hinside : c.fields.foldlM (Tables.declareField c.name) known with
    | error v =>
      rw [hinside] at hc
      exact absurd hc Outcome.not_completes_stop
    | ok inside =>
      rw [hinside] at hc
      rcases Outcome.Completes.of_andThen hc with hmethods | ⟨_, _, hrest⟩
      · exact .andThen (Method.checkAll_refuses hmethods hx hdone)
      · exact absurd rfl hrest

/-- Only a class without methods is without expressions. -/
theorem nodes_eq_nil_iff {c : ClassDecl} : c.nodes = [] ↔ c.erase.methods = [] := by
  rw [nodes, List.flatMap_eq_nil_iff, erase, List.map_eq_nil_iff]
  constructor
  · intro h
    exact List.eq_nil_iff_forall_not_mem.mpr fun m hm => m.nodes_ne_nil (h m hm)
  · rintro h m hm
    rw [h] at hm
    cases hm

/-- Classes without expressions are passed by; the first other class counts. -/
theorem checkAll_refuses {index : Nat} {classes : List ClassDecl} {x : Expr}
    (hc : (checkAll index t (classes.map erase)).Completes)
    (hx : (classes.flatMap nodes).head? = some x) (hdone : x.Completed) :
    (checkAll index t classes).Refuses classes x := by
  induction classes generalizing t index with
  | nil => cases hx
  | cons c rest ih =>
    rw [List.flatMap_cons] at hx
    have hleft : (c.erase.check index t).Annotates erase nodes c.erase [] :=
      check_annotates c.erase_erase
    -- the check leaves a class without expressions exactly if it is given one
    have hiff : (c.erase.check index t).tree.nodes = [] ↔ c.nodes = [] := by
      rw [nodes_eq_nil_iff, nodes_eq_nil_iff, hleft.shape]
    by_cases hnodes : c.nodes = []
    · rw [hnodes, List.nil_append] at hx
      have hbare : c.erase = c := erase_eq_self_iff.mpr (by simp [hnodes])
      obtain ⟨completed, waiting, hp⟩ := hleft.progress
      have hself := erase_eq_self_iff.mpr fun x hx => absurd (hiff.mpr hnodes ▸ hx) List.not_mem_nil
      have htree : (c.erase.check index t).tree = c :=
        hself.symm.trans (hleft.shape.trans hbare)
      rcases Outcome.Completes.of_andThen hc with hfirst | ⟨u, hok, hrest⟩
      · have horder := hp.order
        rw [hiff.mpr hnodes] at horder
        have hnone : completed = [] ∧ waiting = [] := by simpa using horder.symm
        exact absurd hnone.1 (hp.completes_iff.mp hfirst)
      · rcases Outcome.Completes.of_andThen hrest with hothers | ⟨_, _, hdone'⟩
        · rw [hbare] at htree hok
          exact .of_next ⟨htree, hok⟩ (.andThen (ih hothers hx))
        · exact absurd hdone' Outcome.not_completes_done
    · rw [List.head?_append_of_ne_nil _ hnodes] at hx
      have hfirst := hleft.completes_of_andThen (fun hnil => hnodes (hiff.mp hnil)) hc
      exact .andThen (check_refuses hfirst hx hdone)

end ClassDecl

namespace Program

/-- The check of a program refuses its first expression, if it is completed. -/
theorem check_refuses {p : Program} {x : Expr} (hc : p.erase.check.Completes)
    (hx : p.nodes.head? = some x) (hdone : x.Completed) : p.check.Refuses p x := by
  rcases Outcome.Completes.of_andThen hc with hclasses | ⟨t, _, hrest⟩
  · exact .andThen (ClassDecl.checkAll_refuses hclasses hx hdone)
  · dsimp only at hrest
    split at hrest
    · exact absurd hrest Outcome.not_completes_stop
    · exact absurd hrest Outcome.not_completes_done

/-! ## Any number of checks -/

/-- The tree after a number of checks, each of the tree that the last one left. -/
def afterChecks (p : Program) : Nat → Program
  | 0 => p
  | n + 1 => (p.afterChecks n).check.tree

/-- What becomes of a program that is checked again and again, if the first check
    has completed some of its expressions and others wait. -/
structure WriteOnce (p : Program) (completed waiting : List Expr) : Prop where
  /-- The tree has no attributes at first, and nothing else of it ever changes. -/
  shape : ∀ n, (p.afterChecks n).erase = p
  /-- Only the first check changes anything. -/
  once : ∀ n, p.afterChecks (n + 1) = p.check.tree
  /-- The first check has set all attributes of these expressions, in this
      order, and none of the others. -/
  first : p.check.Progress nodes [] completed waiting
  /-- A check that goes through sets attributes. -/
  accepted : ∀ t, p.check.result = .ok t → completed ≠ []
  /-- If some were set, every later check refuses the first expression that was
      completed. -/
  refused : ∀ e rest, completed = e :: rest →
    e.recordedAgain.message = e.firstAttribute ++ " of " ++ e.describe ++ " was already resolved" ∧
    ∀ n, (p.afterChecks (n + 1)).check.result = .error (.fault e.recordedAgain)
  /-- If none was set, every check finds the same violation. -/
  unchanged : completed = [] → ∃ v, ∀ n, (p.afterChecks n).check.result = .error (.violation v)

/-- An accepted program has an expression, since it has an entry point. -/
theorem nodes_ne_nil_of_accepted {p : Program} {t : Tables} (hbare : p.erase = p)
    (ht : p.check.result = .ok t) : p.check.tree.nodes ≠ [] := by
  obtain ⟨_, helaborated, _⟩ := check_sound hbare ⟨rfl, ht⟩
  obtain ⟨last, hlast, _, m, hm, _⟩ := helaborated.entry
  intro hnil
  have hnone := List.flatMap_eq_nil_iff.mp hnil last (List.mem_of_getLast? hlast)
  exact m.nodes_ne_nil (List.flatMap_eq_nil_iff.mp hnone m hm)

/-- A check that does not change the tree can be repeated for ever. -/
theorem afterChecks_of_fixed {p q : Program} (h : p.check.tree = q) (hq : q.check.tree = q)
    (n : Nat) : p.afterChecks (n + 1) = q := by
  induction n with
  | zero => exact h
  | succ n ih =>
    rw [afterChecks, ih]
    exact hq

/-- A check that completes no expression leaves the tree as it was. -/
theorem check_tree_of_idle {p : Program} {waiting : List Expr} (hbare : p.erase = p)
    (hp : p.check.Progress nodes [] [] waiting) : p.check.tree = p := by
  have hself : p.check.tree.erase = p.check.tree := by
    rw [erase_eq_self_iff, hp.order]
    exact hp.untouched
  exact hself.symm.trans (check_annotates hbare).shape

/-- The second check refuses the first expression that the first one completed. -/
theorem recheck_refuses {p : Program} {e : Expr} {rest waiting : List Expr} (hbare : p.erase = p)
    (hp : p.check.Progress nodes [] (e :: rest) waiting) :
    p.check.tree.check.Refuses p.check.tree e := by
  have hcompletes : p.check.tree.erase.check.Completes := by
    rw [(check_annotates hbare).shape]
    exact hp.completes_iff.mpr (List.cons_ne_nil e rest)
  have hhead : p.check.tree.nodes.head? = some e := by
    rw [hp.order]
    rfl
  exact check_refuses hcompletes hhead (hp.complete e List.mem_cons_self)

/-- A check that completes no expression ends in a violation. -/
theorem violation_of_idle {p : Program} {waiting : List Expr} (hbare : p.erase = p)
    (hp : p.check.Progress nodes [] [] waiting) : ∃ v, p.check.result = .error (.violation v) := by
  cases hr : p.check.result with
  | ok t =>
    have horder := hp.order
    rw [hp.finished t hr] at horder
    exact absurd horder (nodes_ne_nil_of_accepted hbare hr)
  | error halt =>
    cases halt with
    | violation v => exact ⟨v, rfl⟩
    | fault f => exact absurd hr ((check_keeps hbare).faultless f)

/-- Attributes of a program that is read are written once: only its first check
    changes its tree.  Later ones refuse the first expression that the first one
    completed or, if there is none, find the violation that the first one found. -/
theorem attributes_writeOnce {tokens : List Token} {p : Program} (h : ofTokens tokens = .ok p) :
    ∃ completed waiting, p.WriteOnce completed waiting := by
  have hbare : p.erase = p := erase_of_ofTokens h
  obtain ⟨hshape, completed, waiting, hp⟩ := check_annotates hbare
  refine ⟨completed, waiting, ?_⟩
  -- whatever the first check leaves, the second one leaves it as it is
  have hfixed : p.check.tree.check.tree = p.check.tree := by
    cases completed with
    | nil => rw [check_tree_of_idle hbare hp, check_tree_of_idle hbare hp]
    | cons e rest => exact (recheck_refuses hbare hp).tree
  have honce : ∀ n, p.afterChecks (n + 1) = p.check.tree := afterChecks_of_fixed rfl hfixed
  refine ⟨?_, honce, hp, ?_, ?_, ?_⟩
  · rintro (_ | n)
    · exact hbare
    · rw [honce]
      exact hshape
  · rintro t ht rfl
    obtain ⟨v, hv⟩ := violation_of_idle hbare hp
    rw [hv] at ht
    cases ht
  · rintro e rest rfl
    refine ⟨e.recordedAgain_message, fun n => ?_⟩
    rw [honce]
    exact (recheck_refuses hbare hp).result
  · rintro rfl
    obtain ⟨v, hv⟩ := violation_of_idle hbare hp
    refine ⟨v, ?_⟩
    rintro (_ | n)
    · exact hv
    · rw [honce, check_tree_of_idle hbare hp]
      exact hv

/-- The tokens of `class Program { nothing start() { print(1 + true); return
    nothing; } }`. -/
def mistypedTokens : List Token :=
  [.cls, .ident "Program", .openCurlyBrace, .nothing, .ident "start", .openParen, .closeParen,
    .openCurlyBrace, .print, .openParen, .num 1, .plus, .true, .closeParen, .semiColon, .ret,
    .nothing, .semiColon, .closeCurlyBrace, .closeCurlyBrace].map fun kind => { kind, line := 1 }

/-- A program that adds a number and a truth value. -/
def mistyped : Program where
  classes := [{
    name := "Program", superclass := none, fields := [], line := 1
    methods := [{
      name := "start", result := .nothing, params := [], locals := [], line := 1
      body := [.print 1 (.binary ⟨1, none, none⟩ .add (.num ⟨1, none, none⟩ 1)
        (.bool ⟨1, none, none⟩ true))]
      value := .nothing { line := 1 } }] }]
  line := 1

theorem attributes_writeOnce_mistyped :
    ofTokens mistypedTokens = .ok mistyped ∧
      ∃ completed waiting, mistyped.WriteOnce completed waiting := by
  have hread : ofTokens mistypedTokens = .ok mistyped := rfl
  exact ⟨hread, attributes_writeOnce hread⟩

/-- Both operands have their types when the sum is found to be mistyped; the
    second check halts at the left one. -/
example : mistyped.check.result = .error (.violation ⟨.exprType, 1⟩) ∧
    (mistyped.afterChecks 1).check.result =
      .error (.fault (.typeResolved (.num ⟨1, some .int, none⟩ 1))) := ⟨rfl, rfl⟩

end Program

end ClassLang
