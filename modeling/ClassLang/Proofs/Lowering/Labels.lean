import ClassLang.Proofs.Machine.Step
import ClassLang.Proofs.Sequence
import Mathlib.Data.List.Perm.Basic

/-! # Labels in code

    Code labels its own lines with numbers, and it jumps only to these.

    * **`Forward`**: jumps go to numbered labels further down.
    * **`Numbered`**: code between two values of the counter has each number
      between them as a label, exactly once.
    * **`Labelled`**: it has no other symbol, and its jumps are its own.
    * **`Expr.labelled`** and **`Stmt.labelled`**: all code is so made,
      although the labels of nested code are taken in one order and placed in
      another. -/

namespace ClassLang

/-! ## Lines -/

namespace Line

/-- The number of the label at a line. -/
def number? : Line → Option Nat
  | .label (.numbered n) => some n
  | .label (.named _) | .instr _ | .directive _ | .comment _ => none

/-- The label to which a line jumps. -/
def target? : Line → Option Label
  | .instr (.jump t) | .instr (.jumpIf _ t) => some t
  | .instr _ | .label _ | .directive _ | .comment _ => none

/-- The routine that a line calls. -/
def routine? : Line → Option String
  | .instr (.call x) => some x
  | .instr _ | .label _ | .directive _ | .comment _ => none

end Line

/-- Is the instruction always followed by the next one? -/
def Instr.straight : Instr → Bool
  | .jump _ | .jumpIf .. | .call _ | .ret => false
  | .mov .. | .lea .. | .push _ | .pop _ | .arith .. | .cmp .. | .neg _ | .cdq | .idiv _ => true

/-- The code is a row of instructions, none of which jumps, calls or returns. -/
def Straight (code : List Line) : Prop :=
  ∃ is : List Instr, code = instrs is ∧ is.all Instr.straight = true

namespace Straight

variable {c d : List Line}

theorem append (hc : Straight c) (hd : Straight d) : Straight (c ++ d) := by
  obtain ⟨is, rfl, his⟩ := hc
  obtain ⟨js, rfl, hjs⟩ := hd
  refine ⟨is ++ js, by simp [instrs], ?_⟩
  rw [List.all_append, his, hjs]
  rfl

theorem of_mem (hc : Straight c) {l : Line} (hl : l ∈ c) :
    l.target? = none ∧ l.routine? = none := by
  obtain ⟨is, rfl, his⟩ := hc
  obtain ⟨i, hi, rfl⟩ := List.mem_map.mp hl
  have hstraight := List.all_eq_true.mp his i hi
  cases i with
  | jump | jumpIf | call | ret => cases hstraight
  | _ => exact ⟨rfl, rfl⟩

end Straight

/-- The numbers of the labels in code. -/
def numbers (code : List Line) : List Nat := code.filterMap Line.number?

@[simp] theorem numbers_append (c d : List Line) : numbers (c ++ d) = numbers c ++ numbers d :=
  List.filterMap_append

@[simp] theorem numbers_instrs (is : List Instr) : numbers (instrs is) = [] := by
  simp [numbers, instrs, Line.number?]

/-- If no number is twice in the code, a numbered label stands at one line. -/
theorem line_unique {code : List Line} (h : (numbers code).Nodup) {i j k : Nat}
    (hi : code[i]? = some (.label (.numbered k))) (hj : code[j]? = some (.label (.numbered k))) :
    i = j := by
  have hpair := List.pairwise_iff_getElem.mp (List.pairwise_filterMap.mp h)
  obtain ⟨hilt, hi⟩ := List.getElem?_eq_some_iff.mp hi
  obtain ⟨hjlt, hj⟩ := List.getElem?_eq_some_iff.mp hj
  rcases Nat.lt_trichotomy i j with hlt | heq | hlt
  · exact absurd rfl (hpair i j hilt hjlt hlt k (by rw [hi]; rfl) k (by rw [hj]; rfl))
  · exact heq
  · exact absurd rfl (hpair j i hjlt hilt hlt k (by rw [hj]; rfl) k (by rw [hi]; rfl))

/-- The symbols that code defines are its numbered labels. -/
def Local (code : List Line) : Prop :=
  code.filterMap Line.defines = (numbers code).map fun k => (Label.numbered k).render

theorem Local.append {c d : List Line} (hc : Local c) (hd : Local d) : Local (c ++ d) := by
  unfold Local at *
  rw [List.filterMap_append, hc, hd, numbers_append, List.map_append]

theorem local_instrs (is : List Instr) : Local (instrs is) := by
  unfold Local
  rw [numbers_instrs]
  simp [instrs, Line.defines]

/-! ## Jumps -/

/-- Every jump goes to a numbered label further down, in the code or in the
    lines `later` behind it. -/
def Forward (later : List Line) : List Line → Prop
  | [] => True
  | l :: rest =>
    (∀ t, l.target? = some t → ∃ n, t = .numbered n ∧ .label t ∈ rest ++ later) ∧
      Forward later rest

namespace Forward

variable {c d later later' : List Line}

theorem append : Forward later (c ++ d) ↔ Forward (d ++ later) c ∧ Forward later d := by
  induction c with
  | nil => simp [Forward]
  | cons l rest ih => simp [Forward, ih, and_assoc]

theorem mono (h : Forward later c) (hsub : later ⊆ later') : Forward later' c := by
  induction c with
  | nil => trivial
  | cons l rest ih =>
    refine ⟨?_, ih h.2⟩
    intro t ht
    obtain ⟨n, rfl, hmem⟩ := h.1 t ht
    refine ⟨n, rfl, ?_⟩
    rcases List.mem_append.mp hmem with hmem | hmem
    · exact List.mem_append_left _ hmem
    · exact List.mem_append_right _ (hsub hmem)

theorem of_no_target (h : ∀ l ∈ c, l.target? = none) : Forward later c := by
  induction c with
  | nil => trivial
  | cons l rest ih =>
    refine ⟨?_, ih fun l hl => h l (List.mem_cons_of_mem _ hl)⟩
    intro t ht
    rw [h l List.mem_cons_self] at ht
    cases ht

/-- A jump from a line has its label at a later line. -/
theorem exists_label {code : List Line} (h : Forward [] code) {i : Nat} {l : Line} {t : Label}
    (hi : code[i]? = some l) (ht : l.target? = some t) :
    ∃ n j, t = .numbered n ∧ i < j ∧ code[j]? = some (.label (.numbered n)) := by
  induction code generalizing i with
  | nil => cases hi
  | cons l' rest ih =>
    cases i with
    | zero =>
      cases hi
      obtain ⟨n, rfl, hmem⟩ := h.1 t ht
      rw [List.append_nil] at hmem
      obtain ⟨j, hj⟩ := List.mem_iff_getElem?.mp hmem
      exact ⟨n, j + 1, rfl, Nat.succ_pos j, hj⟩
    | succ i =>
      obtain ⟨n, j, ht, hlt, hj⟩ := ih h.2 hi
      exact ⟨n, j + 1, ht, Nat.succ_lt_succ hlt, hj⟩

end Forward

/-! ## Labels -/

/-- The labels of the code are the numbers from `n` up to `n'`, each once. -/
structure Numbered (code : List Line) (n n' : Nat) : Prop where
  le : n ≤ n'
  once : (numbers code).Perm (List.range' n (n' - n))

/-- Code that was made while the counter went from `n` to `n'`: its symbols are
    the labels with the numbers in between, each once, and its jumps are its
    own. -/
structure Labelled (code : List Line) (n n' : Nat) : Prop extends Numbered code n n' where
  symbols : Local code
  forward : Forward [] code

variable {c d : List Line} {n k n' : Nat}

/-- Numbers in a row. -/
theorem range'_append_of_le (hnk : n ≤ k) (hkn : k ≤ n') :
    List.range' n (k - n) ++ List.range' k (n' - k) = List.range' n (n' - n) := by
  have hsplit := List.range'_append_1 (s := n) (m := k - n) (n := n' - k)
  rwa [Nat.add_sub_cancel' hnk, show k - n + (n' - k) = n' - n by omega] at hsplit

theorem Numbered.append (hc : Numbered c n k) (hd : Numbered d k n') :
    Numbered (c ++ d) n n' where
  le := Nat.le_trans hc.le hd.le
  once := by
    rw [numbers_append, ← range'_append_of_le hc.le hd.le]
    exact hc.once.append hd.once

/-- Lines without numbered labels do not count. -/
theorem Numbered.of_eq (hc : Numbered c n n') (h : numbers d = numbers c) : Numbered d n n' where
  le := hc.le
  once := h ▸ hc.once

namespace Labelled

/-- Instructions that do not jump need no labels. -/
theorem of_no_target {is : List Instr} (h : ∀ l ∈ instrs is, l.target? = none) :
    Labelled (instrs is) n n where
  le := Nat.le_refl n
  once := by simp
  symbols := local_instrs is
  forward := .of_no_target h

theorem straight (h : Straight c) : Labelled c n n := by
  obtain ⟨is, rfl, _⟩ := id h
  exact of_no_target fun l hl => (h.of_mem hl).1

theorem append (hc : Labelled c n k) (hd : Labelled d k n') : Labelled (c ++ d) n n' where
  toNumbered := hc.toNumbered.append hd.toNumbered
  symbols := hc.symbols.append hd.symbols
  forward := Forward.append.mpr ⟨hc.forward.mono (List.nil_subset _), hd.forward⟩

/-- Code that may be jumped over: its end label is taken first and placed
    last. -/
theorem around (hc : Labelled c (n + 1) k) (hd : Labelled d k n') :
    Labelled (c ++ instrs [.pop .eax, .cmp (.imm 1) (.reg .eax),
      .jumpIf .notEqual (.numbered n)] ++ d ++ [.label (.numbered n)]) n n' where
  le := Nat.le_trans (Nat.le_succ n) (Nat.le_trans hc.le hd.le)
  once := by
    have hlt : n < n' := Nat.lt_of_lt_of_le (Nat.lt_succ_self n) (Nat.le_trans hc.le hd.le)
    have hrange : List.range' n (n' - n) = n :: List.range' (n + 1) (n' - (n + 1)) := by
      rw [show n' - n = n' - (n + 1) + 1 by omega, List.range'_succ]
    have hlast : numbers [.label (.numbered n)] = [n] := rfl
    rw [numbers_append, numbers_append, numbers_append, numbers_instrs, List.append_nil, hlast,
      hrange, ← range'_append_of_le hc.le hd.le]
    exact (List.perm_append_singleton n _).trans ((hc.once.append hd.once).cons n)
  symbols := ((hc.symbols.append (local_instrs _)).append hd.symbols).append rfl
  forward := by
    rw [Forward.append, Forward.append, Forward.append]
    refine ⟨⟨⟨hc.forward.mono (List.nil_subset _), ?_⟩, hd.forward.mono (List.nil_subset _)⟩, ?_⟩
    · -- the only jump is the one to the end
      refine ⟨by simp [Line.target?], by simp [Line.target?], ?_, trivial⟩
      intro t ht
      cases ht
      exact ⟨n, rfl, by simp⟩
    · exact ⟨by simp [Line.target?], trivial⟩

end Labelled

/-! ## Operators, variables and calls -/

theorem lowerComparison_labelled {cond : JumpCond} {code : List Line} {n n' : Nat}
    (h : lowerComparison cond n = .ok (code, n')) : Labelled code n n' := by
  cases h
  refine ⟨⟨by omega, ?_⟩, rfl, ?_⟩
  · rw [show n + 1 + 1 - n = 2 by omega]
    exact .refl _
  · simp [Forward, instrs, Line.target?]

theorem BinaryOp.lower_labelled {op : BinaryOp} {code : List Line} {n n' : Nat}
    (h : op.lower n = .ok (code, n')) : Labelled code n n' := by
  cases op with
  | lessThan | lessEqual | equal | notEqual => exact lowerComparison_labelled h
  | _ =>
    cases h
    exact .straight ⟨_, rfl, rfl⟩

theorem UnaryOp.lower_straight (op : UnaryOp) : Straight op.lower := by
  cases op with
  | neg | not => exact ⟨_, rfl, rfl⟩

namespace Site

variable {site : Site} {code : List Line}

theorem load_straight {x : String} (h : site.load x = .ok code) : Straight code := by
  obtain ⟨place, _, h⟩ := except_bind_ok_iff.mp h
  cases place with
  | frame slot =>
    cases h
    exact ⟨_, rfl, rfl⟩
  | field slot =>
    cases h
    refine ⟨_, rfl, ?_⟩
    cases slot.ty <;> rfl

theorem allocate_straight {cls : String} (h : site.allocate cls = .ok code) : Straight code := by
  unfold allocate at h
  split at h
  · cases h
  · cases h
    refine ⟨_, rfl, ?_⟩
    simp [Instr.straight]

/-- What copying puts behind the code so far is straight. -/
theorem copy_straight {slot : Slot} (h : copy slot = .ok code) : Straight code := by
  unfold copy at h
  generalize wordOffsets slot.size = offsets at h
  have hstart : Straight [] := ⟨[], rfl, rfl⟩
  generalize ([] : List Line) = first at h hstart
  induction offsets generalizing first with
  | nil =>
    cases h
    exact hstart
  | cons o rest ih =>
    rw [List.foldlM_cons] at h
    obtain ⟨next, hnext, h⟩ := except_bind_ok_iff.mp h
    obtain ⟨_, _, hnext⟩ := except_bind_ok_iff.mp hnext
    cases hnext
    exact ih _ h (hstart.append ⟨_, rfl, rfl⟩)

theorem store_straight {x : String} (h : site.store x = .ok code) : Straight code := by
  obtain ⟨place, _, h⟩ := except_bind_ok_iff.mp h
  cases place with
  | frame slot =>
    cases h
    exact ⟨_, rfl, rfl⟩
  | field slot =>
    have hstart : Straight (instrs [.pop .eax, .mov site.receiver (.reg .ecx)]) := ⟨_, rfl, rfl⟩
    dsimp only at h
    split at h
    · obtain ⟨access, haccess, hpure⟩ := except_bind_ok_iff.mp h
      cases hpure
      exact hstart.append (copy_straight haccess)
    · cases h
      exact hstart.append ⟨_, rfl, rfl⟩

/-- The code of a call: the routine of the recorded method, and then the
    arguments leave the stack. -/
theorem call_ok {callee : Option String} {cls method : String} {args : Nat}
    (h : site.call callee cls method args = .ok code) :
    ∃ owner pushed, callee = some owner ∧ code = instrs [.call (methodLabel owner method),
      .arith .add (.imm pushed) (.reg .esp), .push (.reg .eax)] := by
  cases callee with
  | none => cases h
  | some owner =>
    simp only [call] at h
    split at h
    · cases h
    · obtain ⟨_, _, h⟩ := except_bind_ok_iff.mp h
      obtain ⟨pushed, _, hpure⟩ := except_bind_ok_iff.mp h
      cases hpure
      exact ⟨owner, pushed, rfl, rfl⟩

theorem call_labelled {callee : Option String} {cls method : String} {args : Nat}
    (h : site.call callee cls method args = .ok code) (n : Nat) : Labelled code n n := by
  obtain ⟨owner, pushed, _, rfl⟩ := call_ok h
  exact .of_no_target (by simp [instrs, Line.target?])

end Site

/-! ## Trees -/

namespace Expr

variable {site : Site}

/-- The parts of the code of a call on the value of an expression. -/
theorem lower_methodCall_ok {note : Note} {receiver : Expr} {method : String} {args : List Expr}
    {n n' : Nat} {code : List Line}
    (h : (methodCall note receiver method args).lower site n = .ok (code, n')) :
    ∃ cls cr k ca cc, receiver.lower site n = .ok (cr, k) ∧
      lowerArgs site args k = .ok (ca, n') ∧
      site.call note.callee cls method args.length = .ok cc ∧ code = cr ++ ca ++ cc := by
  cases hcls : receiver.ty?.bind Ty.className? with
  | none =>
    simp only [lower, hcls] at h
    cases h
  | some cls =>
    simp only [lower, hcls] at h
    obtain ⟨cr, k, hr, h⟩ := state_bind_ok_iff.mp h
    obtain ⟨ca, _, ha, h⟩ := state_bind_ok_iff.mp h
    obtain ⟨cc, _, hlift, hpure⟩ := state_bind_ok_iff.mp h
    obtain ⟨hc, rfl⟩ := state_lift_ok_iff.mp hlift
    cases hpure
    exact ⟨cls, cr, k, ca, cc, hr, ha, hc, rfl⟩

/-- The parts of the code of a call on the object of the running method. -/
theorem lower_selfCall_ok {note : Note} {method : String} {args : List Expr} {n n' : Nat}
    {code : List Line} (h : (selfCall note method args).lower site n = .ok (code, n')) :
    ∃ ca cc, lowerArgs site args n = .ok (ca, n') ∧
      site.call note.callee site.cls method args.length = .ok cc ∧
      code = instrs [.push site.receiver] ++ ca ++ cc := by
  rw [lower] at h
  obtain ⟨ca, _, ha, h⟩ := state_bind_ok_iff.mp h
  obtain ⟨cc, _, hlift, hpure⟩ := state_bind_ok_iff.mp h
  obtain ⟨hc, rfl⟩ := state_lift_ok_iff.mp hlift
  cases hpure
  exact ⟨ca, cc, ha, hc, rfl⟩

mutual

/-- The code of an expression has the labels that the counter passed. -/
theorem labelled : ∀ (e : Expr) {n n' : Nat} {code : List Line},
    e.lower site n = .ok (code, n') → Labelled code n n'
  | .binary _ op left right, _, _, _, h => by
    obtain ⟨cl, _, hl, h⟩ := state_bind_ok_iff.mp h
    obtain ⟨cr, _, hr, h⟩ := state_bind_ok_iff.mp h
    obtain ⟨co, _, ho, h⟩ := state_bind_ok_iff.mp h
    cases h
    exact ((labelled left hl).append (labelled right hr)).append (BinaryOp.lower_labelled ho)
  | .unary _ op operand, _, _, _, h => by
    obtain ⟨c, _, hc, h⟩ := state_bind_ok_iff.mp h
    cases h
    exact (labelled operand hc).append (.straight op.lower_straight)
  | .methodCall note receiver method args, _, _, _, h => by
    obtain ⟨_, cr, _, ca, cc, hr, ha, hc, rfl⟩ := lower_methodCall_ok h
    exact ((labelled receiver hr).append (labelledArgs args ha)).append (Site.call_labelled hc _)
  | .selfCall note method args, _, _, _, h => by
    obtain ⟨ca, cc, ha, hc, rfl⟩ := lower_selfCall_ok h
    exact ((Labelled.straight ⟨_, rfl, rfl⟩).append (labelledArgs args ha)).append
      (Site.call_labelled hc _)
  | .var _ name, _, _, _, h => by
    obtain ⟨hcode, rfl⟩ := state_lift_ok_iff.mp h
    exact .straight (Site.load_straight hcode)
  | .num .., _, _, _, h | .bool .., _, _, _, h | .nothing .., _, _, _, h => by
    cases h
    exact .straight ⟨_, rfl, rfl⟩
  | .new _ cls, _, _, _, h => by
    obtain ⟨hcode, rfl⟩ := state_lift_ok_iff.mp h
    exact .straight (Site.allocate_straight hcode)

/-- The code of arguments has the labels that the counter passed. -/
theorem labelledArgs : ∀ (args : List Expr) {n n' : Nat} {code : List Line},
    lowerArgs site args n = .ok (code, n') → Labelled code n n'
  | [], _, _, _, h => by
    cases h
    exact .straight ⟨[], rfl, rfl⟩
  | e :: rest, _, _, _, h => by
    obtain ⟨cr, _, hr, h⟩ := state_bind_ok_iff.mp h
    obtain ⟨ce, _, he, h⟩ := state_bind_ok_iff.mp h
    cases h
    exact (labelledArgs rest hr).append (labelled e he)

end

end Expr

namespace Stmt

variable {site : Site}

mutual

/-- The code of a statement has the labels that the counter passed. -/
theorem labelled : ∀ (s : Stmt) {n n' : Nat} {code : List Line},
    s.lower site n = .ok (code, n') → Labelled code n n'
  | .assign _ name value, _, _, _, h => by
    obtain ⟨cv, _, hv, h⟩ := state_bind_ok_iff.mp h
    obtain ⟨cs, _, hlift, hpure⟩ := state_bind_ok_iff.mp h
    obtain ⟨hs, rfl⟩ := state_lift_ok_iff.mp hlift
    cases hpure
    exact (Expr.labelled value hv).append (.straight (Site.store_straight hs))
  | .cond _ test body, _, _, _, h => by
    obtain ⟨finish, _, hf, h⟩ := state_bind_ok_iff.mp h
    cases hf
    obtain ⟨ct, _, ht, h⟩ := state_bind_ok_iff.mp h
    obtain ⟨cb, _, hb, h⟩ := state_bind_ok_iff.mp h
    cases h
    exact (Expr.labelled test ht).around (labelledAll body hb)
  | .print _ value, _, _, _, h => by
    obtain ⟨cv, _, hv, h⟩ := state_bind_ok_iff.mp h
    cases h
    exact (Expr.labelled value hv).append (.of_no_target (by simp [instrs, Line.target?]))

/-- The code of statements has the labels that the counter passed. -/
theorem labelledAll : ∀ (body : List Stmt) {n n' : Nat} {code : List Line},
    lowerAll site body n = .ok (code, n') → Labelled code n n'
  | [], _, _, _, h => by
    cases h
    exact .straight ⟨[], rfl, rfl⟩
  | s :: rest, _, _, _, h => by
    obtain ⟨cs, _, hs, h⟩ := state_bind_ok_iff.mp h
    obtain ⟨cr, _, hr, h⟩ := state_bind_ok_iff.mp h
    cases h
    exact (labelled s hs).append (labelledAll rest hr)

end

end Stmt

/-- The parts of the code of a method. -/
theorem Method.lower_parts {site : Site} {m : Method} {n n' : Nat} {code : List Line}
    (h : m.lower site n = .ok (code, n')) :
    ∃ room cb k cv, Stmt.lowerAll site m.body n = .ok (cb, k) ∧
      m.value.lower site k = .ok (cv, n') ∧
      code = [.label (.named (methodLabel site.cls m.name))] ++ prologue
        ++ instrs [.arith .sub (.imm room) (.reg .esp)] ++ cb ++ cv
        ++ instrs [.pop .eax] ++ epilogue := by
  obtain ⟨room, _, hlift, h⟩ := state_bind_ok_iff.mp h
  obtain ⟨cb, k, hb, h⟩ := state_bind_ok_iff.mp h
  obtain ⟨cv, _, hv, hpure⟩ := state_bind_ok_iff.mp h
  obtain ⟨_, rfl⟩ := state_lift_ok_iff.mp hlift
  cases hpure
  exact ⟨room, cb, k, cv, hb, hv, rfl⟩

/-- The code of a method has its name at the head, and then the labels that the
    counter passed. -/
theorem Method.labelled {site : Site} {m : Method} {n n' : Nat} {code : List Line}
    (h : m.lower site n = .ok (code, n')) :
    ∃ rest, code = .label (.named (methodLabel site.cls m.name)) :: rest ∧
      Labelled rest n n' := by
  obtain ⟨room, cb, k, cv, hb, hv, rfl⟩ := lower_parts h
  have hframe : Labelled (prologue ++ instrs [.arith .sub (.imm room) (.reg .esp)]) n n :=
    .straight ⟨[.push (.reg .ebp), .mov (.reg .esp) (.reg .ebp),
      .arith .sub (.imm room) (.reg .esp)], rfl, rfl⟩
  have hend : Labelled (instrs [.pop .eax] ++ epilogue) n' n' := by
    show Labelled (instrs [.pop .eax, .mov (.reg .ebp) (.reg .esp), .pop .ebp, .ret]) n' n'
    exact .of_no_target (by simp [instrs, Line.target?])
  have hall := ((hframe.append (Stmt.labelledAll m.body hb)).append
    (Expr.labelled m.value hv)).append hend
  refine ⟨_, ?_, hall⟩
  simp [prologue, instrs]

end ClassLang
