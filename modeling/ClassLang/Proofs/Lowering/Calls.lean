import ClassLang.Proofs.Lowering.Labels
import ClassLang.Proofs.Typing.Places

/-! # Calls in code

    Calls of a method and the instructions that make them.

    * **`Expr.runs?`**: the method that a checked call runs.
    * **`Method.calls_uses`**: code calls nothing but the routine that prints and
      the methods that are recorded in its tree.
    * **`Method.lowered_of_uses`**: the code of every part of a tree is in the code
      of the tree.
    * **`Expr.lower_runs`**: the code of a call ends with the call of the method
      that is recorded. -/

namespace ClassLang

variable {site : Site} {n n' : Nat} {code : List Line} {l : Line} {x : String}

/-! ## From instructions to trees -/

theorem BinaryOp.lower_routine? {op : BinaryOp} (h : op.lower n = .ok (code, n')) (hl : l ∈ code) :
    l.routine? = none := by
  cases op with
  | lessThan | lessEqual | equal | notEqual =>
    cases h
    simp only [instrs, List.mem_append, List.mem_map, List.mem_cons, List.not_mem_nil,
      or_false] at hl
    rcases hl with ⟨i, hi, rfl⟩ | rfl | rfl | rfl
    · rcases hi with rfl | rfl | rfl | rfl | rfl | rfl <;> rfl
    all_goals rfl
  | _ =>
    cases h
    exact (Straight.of_mem ⟨_, rfl, rfl⟩ hl).2

namespace Expr

/-- The class and the name of the method that a checked call runs. -/
def runs? : Expr → Option (String × String)
  | methodCall n _ method _ | selfCall n method _ => n.callee.map (·, method)
  | binary .. | unary .. | var .. | num .. | bool .. | nothing .. | new .. => none

/-- The code of a call only calls the method that is recorded. -/
theorem routine?_of_call {callee : Option String} {cls method : String} {args : Nat}
    (h : site.call callee cls method args = .ok code) (hl : l ∈ code) (hx : l.routine? = some x) :
    ∃ owner, callee = some owner ∧ x = methodLabel owner method := by
  obtain ⟨owner, pushed, hcallee, rfl⟩ := Site.call_ok h
  refine ⟨owner, hcallee, ?_⟩
  simp only [instrs, List.map_cons, List.map_nil, List.mem_cons, List.not_mem_nil, or_false] at hl
  rcases hl with rfl | rfl | rfl <;> cases hx
  rfl

mutual

/-- The code of an expression only calls the methods that are recorded in it. -/
theorem calls_within : ∀ (e : Expr) {n n' : Nat} {code : List Line},
    e.lower site n = .ok (code, n') → ∀ {l : Line} {x : String}, l ∈ code →
    l.routine? = some x →
    ∃ (e' : Expr) (owner method : String), e'.Within e ∧ e'.runs? = some (owner, method) ∧
      x = methodLabel owner method
  | .binary _ op left right, _, _, _, h, l, x, hl, hx => by
    obtain ⟨cl, _, hleft, h⟩ := state_bind_ok_iff.mp h
    obtain ⟨cr, _, hright, h⟩ := state_bind_ok_iff.mp h
    obtain ⟨co, _, hop, hpure⟩ := state_bind_ok_iff.mp h
    cases hpure
    rcases List.mem_append.mp hl with hl | hl
    · rcases List.mem_append.mp hl with hl | hl
      · obtain ⟨e', owner, method, hw, hr⟩ := calls_within left hleft hl hx
        exact ⟨e', owner, method, .left hw, hr⟩
      · obtain ⟨e', owner, method, hw, hr⟩ := calls_within right hright hl hx
        exact ⟨e', owner, method, .right hw, hr⟩
    · rw [BinaryOp.lower_routine? hop hl] at hx
      cases hx
  | .unary _ op operand, _, _, _, h, l, x, hl, hx => by
    obtain ⟨c, _, hc, hpure⟩ := state_bind_ok_iff.mp h
    cases hpure
    rcases List.mem_append.mp hl with hl | hl
    · obtain ⟨e', owner, method, hw, hr⟩ := calls_within operand hc hl hx
      exact ⟨e', owner, method, .operand hw, hr⟩
    · rw [(op.lower_straight.of_mem hl).2] at hx
      cases hx
  | .methodCall note receiver method args, _, _, _, h, l, x, hl, hx => by
    obtain ⟨cls, cr, _, ca, cc, hr, ha, hc, rfl⟩ := lower_methodCall_ok h
    rcases List.mem_append.mp hl with hl | hl
    · rcases List.mem_append.mp hl with hl | hl
      · obtain ⟨e', owner, method', hw, hr⟩ := calls_within receiver hr hl hx
        exact ⟨e', owner, method', .receiver hw, hr⟩
      · obtain ⟨a, hmem, e', owner, method', hw, hr⟩ := calls_withinArgs args ha hl hx
        exact ⟨e', owner, method', .methodArg hmem hw, hr⟩
    · obtain ⟨owner, hcallee, rfl⟩ := routine?_of_call hc hl hx
      exact ⟨_, owner, method, .self, by simp [runs?, hcallee], rfl⟩
  | .selfCall note method args, _, _, _, h, l, x, hl, hx => by
    obtain ⟨ca, cc, ha, hc, rfl⟩ := lower_selfCall_ok h
    rcases List.mem_append.mp hl with hl | hl
    · rcases List.mem_append.mp hl with hl | hl
      · cases List.mem_singleton.mp hl
        cases hx
      · obtain ⟨a, hmem, e', owner, method', hw, hr⟩ := calls_withinArgs args ha hl hx
        exact ⟨e', owner, method', .selfArg hmem hw, hr⟩
    · obtain ⟨owner, hcallee, rfl⟩ := routine?_of_call hc hl hx
      exact ⟨_, owner, method, .self, by simp [runs?, hcallee], rfl⟩
  | .var _ name, _, _, _, h, l, x, hl, hx => by
    obtain ⟨hcode, rfl⟩ := state_lift_ok_iff.mp h
    rw [((Site.load_straight hcode).of_mem hl).2] at hx
    cases hx
  | .num .., _, _, _, h, l, x, hl, hx | .bool .., _, _, _, h, l, x, hl, hx
  | .nothing .., _, _, _, h, l, x, hl, hx => by
    cases h
    cases List.mem_singleton.mp hl
    cases hx
  | .new _ cls, _, _, _, h, l, x, hl, hx => by
    obtain ⟨hcode, rfl⟩ := state_lift_ok_iff.mp h
    rw [((Site.allocate_straight hcode).of_mem hl).2] at hx
    cases hx

/-- The code of arguments only calls the methods that are recorded in them. -/
theorem calls_withinArgs : ∀ (args : List Expr) {n n' : Nat} {code : List Line},
    lowerArgs site args n = .ok (code, n') → ∀ {l : Line} {x : String}, l ∈ code →
    l.routine? = some x →
    ∃ a ∈ args, ∃ (e' : Expr) (owner method : String), e'.Within a ∧
      e'.runs? = some (owner, method) ∧ x = methodLabel owner method
  | [], _, _, _, h, l, x, hl, _ => by
    cases h
    cases hl
  | e :: rest, _, _, _, h, l, x, hl, hx => by
    obtain ⟨cr, _, hr, h⟩ := state_bind_ok_iff.mp h
    obtain ⟨ce, _, he, hpure⟩ := state_bind_ok_iff.mp h
    cases hpure
    rcases List.mem_append.mp hl with hl | hl
    · obtain ⟨a, hmem, hfound⟩ := calls_withinArgs rest hr hl hx
      exact ⟨a, List.mem_cons_of_mem _ hmem, hfound⟩
    · exact ⟨e, List.mem_cons_self, calls_within e he hl hx⟩

end

end Expr

namespace Stmt

mutual

/-- The code of a statement only calls the routine that prints, and the methods
    that are recorded in it. -/
theorem calls_uses : ∀ (s : Stmt) {n n' : Nat} {code : List Line},
    s.lower site n = .ok (code, n') → ∀ {l : Line} {x : String}, l ∈ code →
    l.routine? = some x → x = printRoutine ∨
    ∃ (e : Expr) (owner method : String), s.Uses e ∧ e.runs? = some (owner, method) ∧
      x = methodLabel owner method
  | .assign _ name value, _, _, _, h, l, x, hl, hx => by
    obtain ⟨cv, _, hv, h⟩ := state_bind_ok_iff.mp h
    obtain ⟨cs, _, hlift, hpure⟩ := state_bind_ok_iff.mp h
    obtain ⟨hs, rfl⟩ := state_lift_ok_iff.mp hlift
    cases hpure
    rcases List.mem_append.mp hl with hl | hl
    · obtain ⟨e, owner, method, hw, hr⟩ := Expr.calls_within value hv hl hx
      exact Or.inr ⟨e, owner, method, .assign hw, hr⟩
    · rw [((Site.store_straight hs).of_mem hl).2] at hx
      cases hx
  | .cond _ test body, _, _, _, h, l, x, hl, hx => by
    obtain ⟨finish, _, hf, h⟩ := state_bind_ok_iff.mp h
    cases hf
    obtain ⟨ct, _, ht, h⟩ := state_bind_ok_iff.mp h
    obtain ⟨cb, _, hb, hpure⟩ := state_bind_ok_iff.mp h
    cases hpure
    simp only [List.mem_append, instrs, List.map_cons, List.map_nil,
      List.mem_cons, List.not_mem_nil, or_false] at hl
    rcases hl with ((hl | rfl | rfl | rfl) | hl) | rfl
    · obtain ⟨e, owner, method, hw, hr⟩ := Expr.calls_within test ht hl hx
      exact Or.inr ⟨e, owner, method, .test hw, hr⟩
    · cases hx
    · cases hx
    · cases hx
    · rcases callsAll_uses body hb hl hx with rfl | ⟨s, hs, e, owner, method, hu, hr⟩
      · exact Or.inl rfl
      · exact Or.inr ⟨e, owner, method, .body hs hu, hr⟩
    · cases hx
  | .print _ value, _, _, _, h, l, x, hl, hx => by
    obtain ⟨cv, _, hv, hpure⟩ := state_bind_ok_iff.mp h
    cases hpure
    simp only [List.mem_append, instrs, List.map_cons, List.map_nil, List.mem_cons,
      List.not_mem_nil, or_false] at hl
    rcases hl with hl | rfl | rfl
    · obtain ⟨e, owner, method, hw, hr⟩ := Expr.calls_within value hv hl hx
      exact Or.inr ⟨e, owner, method, .print hw, hr⟩
    · cases hx
      exact Or.inl rfl
    · cases hx

/-- The code of statements only calls the routine that prints, and the methods
    that are recorded in them. -/
theorem callsAll_uses : ∀ (body : List Stmt) {n n' : Nat} {code : List Line},
    lowerAll site body n = .ok (code, n') → ∀ {l : Line} {x : String}, l ∈ code →
    l.routine? = some x → x = printRoutine ∨
    ∃ s ∈ body, ∃ (e : Expr) (owner method : String), s.Uses e ∧
      e.runs? = some (owner, method) ∧ x = methodLabel owner method
  | [], _, _, _, h, l, x, hl, _ => by
    cases h
    cases hl
  | s :: rest, _, _, _, h, l, x, hl, hx => by
    obtain ⟨cs, _, hs, h⟩ := state_bind_ok_iff.mp h
    obtain ⟨cr, _, hr, hpure⟩ := state_bind_ok_iff.mp h
    cases hpure
    rcases List.mem_append.mp hl with hl | hl
    · rcases calls_uses s hs hl hx with rfl | hfound
      · exact Or.inl rfl
      · exact Or.inr ⟨s, List.mem_cons_self, hfound⟩
    · rcases callsAll_uses rest hr hl hx with rfl | ⟨s', hmem, hfound⟩
      · exact Or.inl rfl
      · exact Or.inr ⟨s', List.mem_cons_of_mem _ hmem, hfound⟩

end

end Stmt

/-- The code of a method only calls the routine that prints, and the methods
    that are recorded in its tree. -/
theorem Method.calls_uses {m : Method} (h : m.lower site n = .ok (code, n')) (hl : l ∈ code)
    (hx : l.routine? = some x) : x = printRoutine ∨
    ∃ (e : Expr) (owner method : String), m.Uses e ∧ e.runs? = some (owner, method) ∧
      x = methodLabel owner method := by
  obtain ⟨room, cb, k, cv, hb, hv, rfl⟩ := lower_parts h
  simp only [List.mem_append] at hl
  rcases hl with (((((hl | hl) | hl) | hl) | hl) | hl) | hl
  · cases List.mem_singleton.mp hl
    cases hx
  · have hnone := Straight.of_mem (c := prologue) ⟨_, rfl, rfl⟩ hl
    rw [hnone.2] at hx
    cases hx
  · cases List.mem_singleton.mp hl
    cases hx
  · rcases Stmt.callsAll_uses m.body hb hl hx with rfl | ⟨s, hs, e, owner, method, hu, hr⟩
    · exact Or.inl rfl
    · exact Or.inr ⟨e, owner, method, Or.inl ⟨s, hs, hu⟩, hr⟩
  · obtain ⟨e, owner, method, hw, hr⟩ := Expr.calls_within m.value hv hl hx
    exact Or.inr ⟨e, owner, method, Or.inr hw, hr⟩
  · cases List.mem_singleton.mp hl
    cases hx
  · simp only [epilogue, instrs, List.map_cons, List.map_nil, List.mem_cons, List.not_mem_nil,
      or_false] at hl
    rcases hl with rfl | rfl | rfl <;> cases hx

/-! ## From trees to instructions -/

namespace Expr

/-- The code of each argument is in the code of all. -/
theorem lowered_of_mem {args : List Expr} {a : Expr} (ha : a ∈ args)
    (h : lowerArgs site args n = .ok (code, n')) :
    ∃ k part k', a.lower site k = .ok (part, k') ∧ part <:+: code := by
  induction args generalizing n n' code with
  | nil => cases ha
  | cons e rest ih =>
    obtain ⟨cr, _, hr, h⟩ := state_bind_ok_iff.mp h
    obtain ⟨ce, _, he, hpure⟩ := state_bind_ok_iff.mp h
    cases hpure
    rcases List.mem_cons.mp ha with rfl | ha
    · exact ⟨_, ce, _, he, (List.suffix_append cr ce).isInfix⟩
    · obtain ⟨k, part, k', hpart, hin⟩ := ih ha hr
      exact ⟨k, part, k', hpart, hin.trans (List.prefix_append cr ce).isInfix⟩

/-- The code of each part of an expression is in the code of the whole. -/
theorem lowered_of_within {e whole : Expr} (hw : e.Within whole)
    (h : whole.lower site n = .ok (code, n')) :
    ∃ k part k', e.lower site k = .ok (part, k') ∧ part <:+: code := by
  induction hw generalizing n n' code with
  | self => exact ⟨n, code, n', h, List.infix_refl code⟩
  | left _ ih =>
    obtain ⟨cl, _, hl, h⟩ := state_bind_ok_iff.mp h
    obtain ⟨cr, _, hr, h⟩ := state_bind_ok_iff.mp h
    obtain ⟨co, _, ho, hpure⟩ := state_bind_ok_iff.mp h
    cases hpure
    obtain ⟨k, part, k', hpart, hin⟩ := ih hl
    rw [List.append_assoc]
    exact ⟨k, part, k', hpart, hin.trans (List.prefix_append _ _).isInfix⟩
  | right _ ih =>
    obtain ⟨cl, _, hl, h⟩ := state_bind_ok_iff.mp h
    obtain ⟨cr, _, hr, h⟩ := state_bind_ok_iff.mp h
    obtain ⟨co, _, ho, hpure⟩ := state_bind_ok_iff.mp h
    cases hpure
    obtain ⟨k, part, k', hpart, hin⟩ := ih hr
    exact ⟨k, part, k', hpart, hin.trans (List.infix_append cl cr co)⟩
  | operand _ ih =>
    obtain ⟨c, _, hc, hpure⟩ := state_bind_ok_iff.mp h
    cases hpure
    obtain ⟨k, part, k', hpart, hin⟩ := ih hc
    exact ⟨k, part, k', hpart, hin.trans (List.prefix_append _ _).isInfix⟩
  | receiver _ ih =>
    obtain ⟨_, cr, _, ca, cc, hr, _, _, rfl⟩ := lower_methodCall_ok h
    obtain ⟨k, part, k', hpart, hin⟩ := ih hr
    rw [List.append_assoc]
    exact ⟨k, part, k', hpart, hin.trans (List.prefix_append _ _).isInfix⟩
  | methodArg hmem _ ih =>
    obtain ⟨_, cr, _, ca, cc, _, ha, _, rfl⟩ := lower_methodCall_ok h
    obtain ⟨_, _, _, harg, hin'⟩ := lowered_of_mem hmem ha
    obtain ⟨k, part, k', hpart, hin⟩ := ih harg
    exact ⟨k, part, k', hpart, hin.trans (hin'.trans (List.infix_append cr ca cc))⟩
  | selfArg hmem _ ih =>
    obtain ⟨ca, cc, ha, _, rfl⟩ := lower_selfCall_ok h
    obtain ⟨_, _, _, harg, hin'⟩ := lowered_of_mem hmem ha
    obtain ⟨k, part, k', hpart, hin⟩ := ih harg
    exact ⟨k, part, k', hpart, hin.trans (hin'.trans (List.infix_append _ ca cc))⟩

end Expr

/-- The code of each statement is in the code of all. -/
theorem Stmt.lowered_of_mem {body : List Stmt} {s : Stmt} (hs : s ∈ body)
    (h : Stmt.lowerAll site body n = .ok (code, n')) :
    ∃ k part k', s.lower site k = .ok (part, k') ∧ part <:+: code := by
  induction body generalizing n n' code with
  | nil => cases hs
  | cons s' rest ih =>
    obtain ⟨cs, _, hfirst, h⟩ := state_bind_ok_iff.mp h
    obtain ⟨cr, _, hr, hpure⟩ := state_bind_ok_iff.mp h
    cases hpure
    rcases List.mem_cons.mp hs with rfl | hs
    · exact ⟨_, cs, _, hfirst, (List.prefix_append cs cr).isInfix⟩
    · obtain ⟨k, part, k', hpart, hin⟩ := ih hs hr
      exact ⟨k, part, k', hpart, hin.trans (List.suffix_append cs cr).isInfix⟩

/-- The code of each expression of a statement is in the code of the statement. -/
theorem Stmt.lowered_of_uses {e : Expr} {s : Stmt} (hu : s.Uses e)
    (h : s.lower site n = .ok (code, n')) :
    ∃ k part k', e.lower site k = .ok (part, k') ∧ part <:+: code := by
  induction hu generalizing n n' code with
  | assign hw =>
    obtain ⟨cv, _, hv, h⟩ := state_bind_ok_iff.mp h
    obtain ⟨cs, _, hs, hpure⟩ := state_bind_ok_iff.mp h
    cases hpure
    obtain ⟨k, part, k', hpart, hin⟩ := Expr.lowered_of_within hw hv
    exact ⟨k, part, k', hpart, hin.trans (List.prefix_append cv cs).isInfix⟩
  | test hw =>
    obtain ⟨finish, _, hf, h⟩ := state_bind_ok_iff.mp h
    obtain ⟨ct, _, ht, h⟩ := state_bind_ok_iff.mp h
    obtain ⟨cb, _, hb, hpure⟩ := state_bind_ok_iff.mp h
    cases hpure
    obtain ⟨k, part, k', hpart, hin⟩ := Expr.lowered_of_within hw ht
    rw [List.append_assoc, List.append_assoc]
    exact ⟨k, part, k', hpart, hin.trans (List.prefix_append _ _).isInfix⟩
  | body hs _ ih =>
    obtain ⟨finish, _, hf, h⟩ := state_bind_ok_iff.mp h
    obtain ⟨ct, _, ht, h⟩ := state_bind_ok_iff.mp h
    obtain ⟨cb, _, hb, hpure⟩ := state_bind_ok_iff.mp h
    cases hpure
    obtain ⟨_, _, _, hstmt, hin'⟩ := Stmt.lowered_of_mem hs hb
    obtain ⟨k, part, k', hpart, hin⟩ := ih hstmt
    exact ⟨k, part, k', hpart, hin.trans (hin'.trans (List.infix_append _ cb _))⟩
  | print hw =>
    obtain ⟨cv, _, hv, hpure⟩ := state_bind_ok_iff.mp h
    cases hpure
    obtain ⟨k, part, k', hpart, hin⟩ := Expr.lowered_of_within hw hv
    exact ⟨k, part, k', hpart, hin.trans (List.prefix_append cv _).isInfix⟩

/-- The code of each expression of a method is in the code of the method. -/
theorem Method.lowered_of_uses {m : Method} {e : Expr} (hu : m.Uses e)
    (h : m.lower site n = .ok (code, n')) :
    ∃ k part k', e.lower site k = .ok (part, k') ∧ part <:+: code := by
  obtain ⟨room, cb, _, cv, hb, hv, rfl⟩ := lower_parts h
  rw [List.append_assoc _ (instrs [.pop .eax]) epilogue]
  rcases hu with ⟨s, hs, hse⟩ | hw
  · obtain ⟨_, _, _, hstmt, hin'⟩ := Stmt.lowered_of_mem hs hb
    obtain ⟨k, part, k', hpart, hin⟩ := Stmt.lowered_of_uses hse hstmt
    rw [List.append_assoc _ cv]
    exact ⟨k, part, k', hpart, hin.trans (hin'.trans (List.infix_append _ cb _))⟩
  · obtain ⟨k, part, k', hpart, hin⟩ := Expr.lowered_of_within hw hv
    exact ⟨k, part, k', hpart, hin.trans (List.infix_append _ cv _)⟩

end ClassLang
