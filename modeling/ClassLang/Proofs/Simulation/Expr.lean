import ClassLang.Proofs.Lowering.Total
import ClassLang.Proofs.Simulation.Operators
import ClassLang.Proofs.Simulation.Variables

/-! # Expressions on the machine

    The code of an expression leaves on the stack the word that stands for the
    value of the expression.

    * **`Expr.room`**: how much of the stack the code of an expression takes,
      apart from what its calls take.
    * **`Stage.call`** is the code of a call, whose receiver and arguments are on
      the stack.
    * **`Expr.evaluates`**: the code of every elaborated expression does what the
      expression means. -/

namespace ClassLang

namespace Expr

mutual

/-- How many words the code puts on the stack at most. -/
def room : Expr → Nat
  | binary _ _ left right => max left.room (1 + right.room)
  | unary _ _ operand => operand.room
  | methodCall _ receiver _ args => max receiver.room (1 + roomArgs args)
  | selfCall _ _ args => 1 + roomArgs args
  | var .. | num .. | bool .. | nothing .. | new .. => 1

/-- How many words the code of arguments puts on the stack at most. -/
def roomArgs : List Expr → Nat
  | [] => 0
  | e :: rest => max (roomArgs rest) (rest.length + e.room)

end

theorem one_le_room (e : Expr) : 1 ≤ e.room := by
  cases e with
  | binary _ _ left _ => exact Nat.le_trans (one_le_room left) (Nat.le_max_left _ _)
  | unary _ _ operand => exact one_le_room operand
  | methodCall _ receiver _ _ =>
    exact Nat.le_trans (one_le_room receiver) (Nat.le_max_left _ _)
  | selfCall _ _ _ => exact Nat.le_add_right _ _
  | var _ _ | num _ _ | bool _ _ | nothing _ | new _ _ => exact Nat.le_refl 1

/-- There is room for all arguments. -/
theorem length_le_roomArgs (args : List Expr) : args.length ≤ roomArgs args := by
  cases args with
  | nil => exact Nat.le_refl 0
  | cons e rest =>
    have hone := e.one_le_room
    exact Nat.le_trans (Nat.add_le_add_left hone _) (Nat.le_max_right _ _)

end Expr

namespace Machine

variable {M : Machine} {known : Known} {before : List Int} {site : Site} {V : View} {m : Method}
  {calls : Calls} {need b d n : Nat} {ρ : Env} {σ σ' : Store} {s s' t : State} {v : Value}
  {code : List Line} {room room' : Nat} {eval : Env → Eval Value}

/-! ## Steps of a computation -/

/-- More room does not hurt. -/
theorem Evaluates.mono (h : M.Evaluates known before V m code room eval) (hle : room ≤ room') :
    M.Evaluates known before V m code room' eval := by
  intro b ρ σ d s v σ' R hat heval hd hheap
  have hdeep := R.deep
  have hb := R.frame.deep
  exact h b ρ σ d s v σ' R hat heval (hd.of_le (by omega) (by omega)) hheap

/-- What fits when objects were added did so before. -/
theorem fits_of_roots {roots roots' : List String} (hr : roots <+: roots')
    (h : M.heap.low + known.roomOf roots' ≤ M.heap.high) :
    M.heap.low + known.roomOf roots ≤ M.heap.high := by
  have hmono := known.roomOf_mono hr
  omega

theorem fits_of_grows (hg : σ.Grows known σ')
    (h : M.heap.low + known.roomOf σ'.roots ≤ M.heap.high) :
    M.heap.low + known.roomOf σ.roots ≤ M.heap.high := fits_of_roots hg.roots h

/-- The code before an expression belongs to it. -/
theorem Gave.prepend (h : M.Gave known before d n v σ' t s') (hk : M.Keeps d s t) {l : Nat}
    (hline : t.line + n = s.line + l) : M.Gave known before d l v σ' s s' where
  toKeeps := hk.trans h.toKeeps (Nat.le_refl d)
  line := h.line.trans hline
  esp := h.esp
  shows := h.shows
  mirrors := h.mirrors

theorem Keeps.of_le (h : M.Keeps d s s') {c : Nat} (hc : c ≤ d) : M.Keeps c s s' :=
  ⟨h.runs, h.ebp, fun k h1 hk => h.kept k h1 (Nat.le_trans hk hc)⟩

/-- A word that is pushed stands for a number or a truth value. -/
theorem Stage.push_imm (S : M.Stage known before site V m calls need) {i : Int}
    (hv : ∀ roots, M.Shows known roots v (BitVec.ofInt 32 i)) :
    M.Evaluates known before V m (instrs [.push (.imm i)]) 1 (fun _ => pure v) := by
  intro b ρ σ d s v' σ' R hat heval hd _
  cases heval
  obtain ⟨s', hs'⟩ := push_pushed S.placed hat rfl R.esp hd
  exact ⟨s', hs'.gave S.regular R.mirrors (hv _)⟩

/-! ## Operators -/

/-- Both operands, from left to right, and then the operator. -/
theorem Stage.binary (S : M.Stage known before site V m calls need) {note : Note}
    {op : BinaryOp} {left right : Expr} {ta tb : Ty} {cl cr co : List Line} {rl rr : Nat}
    (hl : left.Elaborated V ta) (hr : right.Elaborated V tb)
    (hcl : M.Evaluates known before V m cl rl (left.eval calls V ·))
    (hcr : M.Evaluates known before V m cr rr (right.eval calls V ·))
    (hco : M.Combines co op) (hone : 1 ≤ rr) :
    M.Evaluates known before V m (cl ++ cr ++ co) (max rl (1 + rr))
      ((Expr.binary note op left right).eval calls V ·) := by
  intro b ρ σ d s v σ' R hat heval hd hheap
  obtain ⟨a, σ₁, hea, heval⟩ := state_bind_ok_iff.mp heval
  obtain ⟨c, σ₂, hec, heval⟩ := state_bind_ok_iff.mp heval
  obtain ⟨happly, rfl⟩ := state_lift_ok_iff.mp heval
  have hga := (Expr.eval_safe S.regular S.within S.sound hl R.env R.store).of_ok hea
  have hgc := (Expr.eval_safe S.regular S.within S.sound hr (R.env.mono hga.1.roots)
    hga.1.typed).of_ok hec
  have hdeep := R.deep
  have hb := R.frame.deep
  obtain ⟨s₁, h₁⟩ := hcl b ρ σ d s a σ₁ R hat.left.left hea (hd.of_le (by omega) (by omega))
    (fits_of_grows hgc.1 hheap)
  obtain ⟨s₂, h₂⟩ := hcr b ρ σ₁ (d + 1) s₁ c σ' (R.after h₁ hga.1)
    (h₁.line ▸ hat.left.right) hec (hd.of_le (by omega) (by omega)) hheap
  have hline : s₂.line = s.line + (cl ++ cr).length := by
    rw [h₂.line, h₁.line, List.length_append, Nat.add_assoc]
  -- the word of the left operand stays below that of the right one
  have ha : M.Shows known σ'.roots a (s₂.memory (M.slot (d + 1))) := by
    rw [h₂.kept _ (by omega) (Nat.le_refl _)]
    exact h₁.shows.mono hgc.1.roots
  obtain ⟨w, s₃, h₃, hw⟩ := hco known σ'.roots s₂ d a c v (hline ▸ hat.right) h₂.esp
    (hd.of_le (by omega) (by omega)) ha h₂.shows happly
  refine ⟨s₃, (h₃.gave S.regular h₂.mirrors hw).prepend ?_ ?_⟩
  · exact h₁.toKeeps.trans (h₂.toKeeps.of_le (Nat.le_succ d)) (Nat.le_refl d)
  · simp only [List.length_append] at hline ⊢
    omega

/-- The operand, and then the operator. -/
theorem Stage.unary (S : M.Stage known before site V m calls need) {note : Note} {op : UnaryOp}
    {operand : Expr}
    (hc : M.Evaluates known before V m code room (operand.eval calls V ·)) (hone : 1 ≤ room) :
    M.Evaluates known before V m (code ++ op.lower) room
      ((Expr.unary note op operand).eval calls V ·) := by
  intro b ρ σ d s v σ' R hat heval hd hheap
  obtain ⟨a, σ₁, hea, heval⟩ := state_bind_ok_iff.mp heval
  obtain ⟨happly, rfl⟩ := state_lift_ok_iff.mp heval
  obtain ⟨s₁, h₁⟩ := hc b ρ σ d s a σ' R hat.left hea hd hheap
  obtain ⟨w, s₂, h₂, hw⟩ := UnaryOp.changes S.placed (h₁.line ▸ hat.right) h₁.esp
    (hd.of_le (by omega) (by omega)) h₁.shows happly
  refine ⟨s₂, (h₂.gave S.regular h₁.mirrors hw).prepend h₁.toKeeps ?_⟩
  rw [h₁.line, List.length_append, Nat.add_assoc]

/-! ## Arguments -/

/-- Code of `n` lines left values on a stack of `d` words, the first of them as
    the topmost word. -/
structure GaveAll (M : Machine) (known : Known) (before : List Int) (d n : Nat) (vs : List Value)
    (σ' : Store) (s s' : State) : Prop extends M.Keeps d s s' where
  line : s'.line = s.line + n
  esp : s'.regs .esp = M.slot (d + vs.length)
  shows : ∀ i v, vs[i]? = some v →
    M.Shows known σ'.roots v (s'.memory (M.slot (d + vs.length - i)))
  mirrors : M.Mirrors known before σ' s'

/-- The code leaves the values of arguments on the stack, and it needs this much
    room on the stack. -/
def EvaluatesAll (M : Machine) (known : Known) (before : List Int) (V : View) (m : Method)
    (code : List Line) (room : Nat) (eval : Env → Eval (List Value)) : Prop :=
  ∀ b ρ σ d s vs σ', M.Running known before V m b ρ σ d s → M.CodeAt s.line code →
    eval ρ σ = .ok (vs, σ') → M.HasSlot (d + room) →
    M.heap.low + known.roomOf σ'.roots ≤ M.heap.high →
    ∃ s', M.GaveAll known before d code.length vs σ' s s'

theorem EvaluatesAll.mono {eval : Env → Eval (List Value)}
    (h : M.EvaluatesAll known before V m code room eval) (hle : room ≤ room') :
    M.EvaluatesAll known before V m code room' eval := by
  intro b ρ σ d s vs σ' R hat heval hd hheap
  have hdeep := R.deep
  have hb := R.frame.deep
  exact h b ρ σ d s vs σ' R hat heval (hd.of_le (by omega) (by omega)) hheap

/-- No arguments take no code. -/
theorem evaluatesAll_nil : M.EvaluatesAll known before V m [] room (fun _ => pure []) := by
  intro b ρ σ d s vs σ' R _ heval _ _
  cases heval
  exact ⟨s, ⟨.refl s, rfl, fun _ _ _ => rfl⟩, rfl, R.esp, by simp, R.mirrors⟩

/-- The later arguments, and then the first one. -/
theorem Stage.evaluatesAll_cons (S : M.Stage known before site V m calls need) {e : Expr}
    {rest : List Expr} {ty : Ty} {params : List Ty} {ce cr : List Line} {re rr : Nat}
    (he : e.Elaborated V ty) (hrest : Expr.Fit Note.Records V rest params)
    (hcr : M.EvaluatesAll known before V m cr rr (Expr.evalArgs calls V · rest))
    (hce : M.Evaluates known before V m ce re (e.eval calls V ·)) :
    M.EvaluatesAll known before V m (cr ++ ce) (max rr (rest.length + re))
      (Expr.evalArgs calls V · (e :: rest)) := by
  intro b ρ σ d s vs σ' R hat heval hd hheap
  obtain ⟨vs, σ₁, her, heval⟩ := state_bind_ok_iff.mp heval
  obtain ⟨v, σ₂, hee, heval⟩ := state_bind_ok_iff.mp heval
  cases heval
  have hgr := (Expr.evalArgs_safe S.regular S.within S.sound hrest R.env R.store).of_ok her
  have hge := (Expr.eval_safe S.regular S.within S.sound he (R.env.mono hgr.1.roots)
    hgr.1.typed).of_ok hee
  have hcount : vs.length = rest.length := hgr.2.length_eq.trans hrest.length_eq.symm
  have hdeep := R.deep
  have hb := R.frame.deep
  obtain ⟨s₁, h₁⟩ := hcr b ρ σ d s vs σ₁ R hat.left her (hd.of_le (by omega) (by omega))
    (fits_of_grows hge.1 hheap)
  obtain ⟨s₂, h₂⟩ := hce b ρ σ₁ (d + vs.length) s₁ v σ'
    (R.keep h₁.toKeeps hgr.1 h₁.mirrors h₁.esp) (h₁.line ▸ hat.right) hee
    (hd.of_le (by omega) (by omega)) hheap
  refine ⟨s₂, h₁.toKeeps.trans h₂.toKeeps (Nat.le_add_right _ _), ?_, ?_, ?_, h₂.mirrors⟩
  · rw [h₂.line, h₁.line, List.length_append, Nat.add_assoc]
  · rw [h₂.esp, List.length_cons, Nat.add_assoc]
  · intro i w hi
    cases i with
    | zero =>
      cases hi
      exact h₂.shows
    | succ i =>
      have hi : vs[i]? = some w := hi
      have hlt := (List.getElem?_eq_some_iff.mp hi).1
      have hslot : d + (v :: vs).length - (i + 1) = d + vs.length - i := by
        rw [List.length_cons]
        omega
      rw [hslot, h₂.kept _ (by omega) (by omega)]
      exact (h₁.shows i w hi).mono hge.1.roots

/-! ## Calls -/

/-- The label of a method is no name of the system. -/
theorem methodLabel_ne_printf (cls method : String) : methodLabel cls method ≠ "printf" := by
  intro h
  have hmem : '_' ∈ (methodLabel cls method).toList := by simp [methodLabel]
  rw [h] at hmem
  revert hmem
  decide

/-- Receiver and arguments stay where they are. -/
theorem Given.of_kept {roots : List String} {self : Ref} {args : List Value}
    (h : M.Given known roots self args d s)
    (hkept : ∀ k, 1 ≤ k → k ≤ d → s'.memory (M.slot k) = s.memory (M.slot k)) :
    M.Given known roots self args d s' where
  deep := h.deep
  self := by
    have hdeep := h.deep
    rw [hkept _ (by omega) (by omega)]
    exact h.self
  args := by
    intro i v hi
    have hdeep := h.deep
    have hlt := (List.getElem?_eq_some_iff.mp hi).1
    rw [hkept _ (by omega) (by omega)]
    exact h.args i v hi

/-- The call of a routine: the return address goes on the stack. -/
theorem call_enters (hM : M.WellPlaced) (hk : known.Regular) {owner method : String} {start : Nat}
    {self : Ref} {args : List Value} (hfind : M.find (methodLabel owner method) = some start)
    (hcall : M.lines[s.line]? = some (.instr (.call (methodLabel owner method))))
    (hesp : s.regs .esp = M.slot d) (hd : M.HasSlot (d + 1)) (hm : M.Mirrors known before σ s)
    (hgiven : M.Given known σ.roots self args d s) :
    ∃ t, M.Runs s t ∧ t.line = start ∧ t.regs .esp = M.slot (d + 1) ∧
      t.regs .ebp = s.regs .ebp ∧ t.memory (M.slot (d + 1)) = M.place (s.line + 1) ∧
      (∀ k, 1 ≤ k → k ≤ d → t.memory (M.slot k) = s.memory (M.slot k)) ∧
      M.Mirrors known before σ t ∧ M.Given known σ.roots self args d t := by
  have hstep := step_call hM hcall (methodLabel_ne_printf owner method) hfind hesp hd
  let t := ((s.setReg .esp (M.slot (d + 1))).setWord (M.slot (d + 1)) (M.place (s.line + 1))).goOn
    start
  have hkept : ∀ k, 1 ≤ k → k ≤ d → t.memory (M.slot k) = s.memory (M.slot k) := by
    intro k h1 hk
    have hne : M.slot k ≠ M.slot (d + 1) := by
      intro heq
      have := (slot_inj hM (hd.of_le h1 (by omega)) hd).mp heq
      omega
    simp [t, hne]
  have hmirrors : M.Mirrors known before σ t :=
    hm.of_same hk (.of_slot hM hd (fun a ha => by simp [t, ha]) rfl)
  exact ⟨t, Runs.single hstep, rfl, by simp [t], by simp [t], by simp [t], hkept, hmirrors,
    hgiven.of_kept hkept⟩

/-- The routine of a method runs and comes back, and the line behind the call takes
    receiver and arguments from the stack. -/
theorem Stage.call_returns (S : M.Stage known before site V m calls need)
    {cls method owner : String} {result : Ty} {params : List Ty}
    (hr : V.known.resolve cls method = some (owner, .func result params)) {self : Ref}
    {args : List Value} {bytes : Int} (hbytes : bytes = 4 * (args.length + 1 : Nat))
    (hcode : M.CodeAt s.line (instrs [.call (methodLabel owner method),
      .arith .add (.imm bytes) (.reg .esp)]))
    (hσ : σ.Typed known) (hself : (Value.object self).Of known σ.roots (.object owner))
    (hargs : List.Forall₂ (Value.Of known σ.roots) args params)
    (hm : M.Mirrors known before σ s) (hesp : s.regs .esp = M.slot (d + (args.length + 1)))
    (hgiven : M.Given known σ.roots self args (d + (args.length + 1)) s)
    (hcall : calls owner method self args σ = .ok (v, σ'))
    (hd : M.HasSlot (d + (args.length + 1) + (need + 1)))
    (hheap : M.heap.low + known.roomOf σ'.roots ≤ M.heap.high) :
    ∃ t u, M.Runs s t ∧ t.line = s.line + 1 ∧ t.regs .esp = M.slot (d + (args.length + 1)) ∧
      M.step t = some u ∧ u.line = s.line + 2 ∧ u.regs .esp = M.slot d ∧
      u.regs .ebp = s.regs .ebp ∧ M.Shows known σ'.roots v (u.regs .eax) ∧
      M.Mirrors known before σ' u ∧
      ∀ k, 1 ≤ k → k ≤ d → u.memory (M.slot k) = s.memory (M.slot k) := by
  obtain ⟨start, hfind, hrun⟩ := S.answers _ _ _ _ _ hr
  -- into the routine and back
  obtain ⟨s₁, hruns₁, hline₁, hesp₁, hebp₁, hback₁, hkept₁, hm₁, hgiven₁⟩ := call_enters S.placed
    S.regular hfind hcode.head hesp (hd.of_le (by omega) (by omega)) hm hgiven
  have hdropline : M.lines[s.line + 1]? = some (.instr (.arith .add (.imm bytes) (.reg .esp))) :=
    hcode 1 _ rfl
  have hnext : M.isCode (s.line + 1) = true := by simp [isCode, hdropline]
  obtain ⟨t, hkeep, hline, hesp', hv, hm'⟩ := hrun σ self args (d + (args.length + 1)) s₁ v σ'
    (s.line + 1) hσ hself hargs hm₁ hgiven₁ hline₁ hesp₁ hback₁ hnext hcall
    (hd.of_le (by omega) (by omega)) hheap
  -- receiver and arguments leave the stack
  have hdrop := effect_drop (args.length + 1) hbytes hesp'
  have hstep := step_of_effect (by rw [hline]; exact hdropline) hdrop
  let u := (t.setReg .esp (M.slot d)).forget.next
  refine ⟨t, u, hruns₁.trans hkeep.runs, hline, hesp', hstep, by simp [u, hline], by simp [u],
    ?_, hv, hm'.of_same S.regular ⟨fun _ _ => rfl, rfl, rfl⟩, ?_⟩
  · exact hkeep.ebp.trans hebp₁
  · intro k h1 hk
    exact (hkeep.kept k h1 (by omega)).trans (hkept₁ k h1 (by omega))

/-- The code of a call, when receiver and arguments are on the stack. -/
theorem Stage.call_given (S : M.Stage known before site V m calls need)
    {cls method owner : String} {result : Ty} {params : List Ty}
    (hr : V.known.resolve cls method = some (owner, .func result params)) {self : Ref}
    {args : List Value} (hn : args.length = params.length)
    (hcode : site.call (some owner) cls method args.length = .ok code)
    (hσ : σ.Typed known) (hself : (Value.object self).Of known σ.roots (.object owner))
    (hargs : List.Forall₂ (Value.Of known σ.roots) args params)
    (hm : M.Mirrors known before σ s) (hat : M.CodeAt s.line code)
    (hesp : s.regs .esp = M.slot (d + (args.length + 1)))
    (hgiven : M.Given known σ.roots self args (d + (args.length + 1)) s)
    (hcall : calls owner method self args σ = .ok (v, σ'))
    (hd : M.HasSlot (d + (args.length + 1) + (need + 1)))
    (hheap : M.heap.low + known.roomOf σ'.roots ≤ M.heap.high) :
    ∃ s', M.Gave known before d code.length v σ' s s' := by
  rw [S.serves.call_eq hr hn] at hcode
  cases hcode
  obtain ⟨t, u, hruns, _, _, hstep, huline, huesp, huebp, hv, hm', hkept⟩ :=
    S.call_returns hr (by simp only [Word.size]; omega) (hat.slice 0 2) hσ hself hargs hm hesp
      hgiven hcall hd hheap
  -- the value goes on the stack
  obtain ⟨s', h'⟩ := push_pushed (p := .reg .eax) (w := u.regs .eax) (d := d) (s := u) S.placed
    (by rw [huline]; exact hat.slice 2 1) rfl huesp (hd.of_le (by omega) (by omega))
  refine ⟨s', (h'.gave S.regular hm' hv).prepend ⟨?_, huebp, hkept⟩ ?_⟩
  · exact hruns.trans (Runs.single hstep)
  · rw [huline]
    rfl

section call

variable {cls method owner : String} {result : Ty} {params : List Ty} {args : List Expr}
  {receiver : Env → Eval Value} {cr ca cc : List Line} {rr ra : Nat}

/-- Receiver and arguments come on the stack. -/
theorem Stage.call_ready (S : M.Stage known before site V m calls need)
    (ha : Expr.Fit Note.Records V args params)
    (hsafe : ∀ ρ σ, ρ.Typed known σ.roots V → σ.Typed known →
      Safe (Gives known σ (.object cls)) (receiver ρ σ))
    (hcr : M.Evaluates known before V m cr rr receiver)
    (hca : M.EvaluatesAll known before V m ca ra (Expr.evalArgs calls V · args))
    (R : M.Running known before V m b ρ σ d s) (hat : M.CodeAt s.line (cr ++ ca))
    {self : Value} {values : List Value} {σ₁ σ₂ : Store}
    (her : receiver ρ σ = .ok (self, σ₁))
    (hea : Expr.evalArgs calls V ρ args σ₁ = .ok (values, σ₂))
    (hd : M.HasSlot (d + max rr (1 + ra)))
    (hheap : M.heap.low + known.roomOf σ₂.roots ≤ M.heap.high) :
    ∃ r t, self = .object r ∧ M.Keeps d s t ∧ t.line = s.line + (cr ++ ca).length ∧
      t.regs .esp = M.slot (d + (values.length + 1)) ∧
      M.Given known σ₂.roots r values (d + (values.length + 1)) t ∧
      M.Mirrors known before σ₂ t := by
  have hgr := (hsafe ρ σ R.env R.store).of_ok her
  have hga := (Expr.evalArgs_safe S.regular S.within S.sound ha (R.env.mono hgr.1.roots)
    hgr.1.typed).of_ok hea
  have hdeep := R.deep
  have hb := R.frame.deep
  obtain ⟨s₁, h₁⟩ := hcr b ρ σ d s self σ₁ R hat.left her (hd.of_le (by omega) (by omega))
    (fits_of_grows hga.1 hheap)
  obtain ⟨s₂, h₂⟩ := hca b ρ σ₁ (d + 1) s₁ values σ₂ (R.after h₁ hgr.1)
    (h₁.line ▸ hat.right) hea (hd.of_le (by omega) (by omega)) hheap
  -- the value of the receiver is a reference
  obtain ⟨_, hself⟩ := hgr
  cases self with
  | object r =>
    refine ⟨r, s₂, rfl, h₁.toKeeps.trans (h₂.toKeeps.of_le (Nat.le_succ d)) (Nat.le_refl d), ?_,
      ?_, ⟨by omega, ?_, ?_⟩, h₂.mirrors⟩
    · rw [h₂.line, h₁.line, List.length_append, Nat.add_assoc]
    · rw [h₂.esp]
      congr 1
      omega
    · have hslot : d + (values.length + 1) - values.length = d + 1 := by omega
      rw [hslot, h₂.kept _ (by omega) (Nat.le_refl _)]
      exact h₁.shows.mono hga.1.roots
    · intro i w hi
      have hslot : d + (values.length + 1) - i = d + 1 + values.length - i := by omega
      rw [hslot]
      exact h₂.shows i w hi
  | _ => cases hself

/-- A call: the receiver, the arguments, and the routine of the method that the
    rules find. -/
theorem Stage.call (S : M.Stage known before site V m calls need)
    (hr : V.known.resolve cls method = some (owner, .func result params))
    (ha : Expr.Fit Note.Records V args params)
    (hsafe : ∀ ρ σ, ρ.Typed known σ.roots V → σ.Typed known →
      Safe (Gives known σ (.object cls)) (receiver ρ σ))
    (hcr : M.Evaluates known before V m cr rr receiver)
    (hca : M.EvaluatesAll known before V m ca ra (Expr.evalArgs calls V · args))
    (hcode : site.call (some owner) cls method args.length = .ok cc)
    (hroom : args.length + need + 1 ≤ ra) :
    M.Evaluates known before V m (cr ++ ca ++ cc) (max rr (1 + ra)) (fun ρ => do
      let self ← receiver ρ
      let values ← Expr.evalArgs calls V ρ args
      V.call calls (some cls) method self values) := by
  intro b ρ σ d s v σ' R hat heval hd hheap
  obtain ⟨self, σ₁, her, heval⟩ := state_bind_ok_iff.mp heval
  obtain ⟨values, σ₂, hea, hcall⟩ := state_bind_ok_iff.mp heval
  have hgr := (hsafe ρ σ R.env R.store).of_ok her
  have hga := (Expr.evalArgs_safe S.regular S.within S.sound ha (R.env.mono hgr.1.roots)
    hgr.1.typed).of_ok hea
  have hself := hgr.2.mono hga.1.roots
  have hgc := (View.call_safe S.within S.regular.wellFormed S.sound hr hga.1.typed hself
    hga.2).of_ok hcall
  have hcount : values.length = args.length := hga.2.length_eq.trans ha.length_eq.symm
  have hdeep := R.deep
  have hb := R.frame.deep
  obtain ⟨r, s₂, rfl, hkeeps, hline, hesp, hgiven, hm⟩ := S.call_ready ha hsafe hcr hca R hat.left
    her hea hd (fits_of_grows hgc.1 hheap)
  have howner := hself.assign S.regular.wellFormed
    (.object (S.within.inherits (Known.inherits_of_resolve hr)))
  have hcall' : calls owner method r values σ₂ = .ok (v, σ') := by
    unfold View.call at hcall
    rw [Option.bind_some, hr] at hcall
    exact hcall
  obtain ⟨s₃, h₃⟩ := S.call_given hr hga.2.length_eq (hcount ▸ hcode) hga.1.typed howner hga.2
    hm (hline ▸ hat.right) hesp hgiven hcall' (hd.of_le (by omega) (by omega)) hheap
  refine ⟨s₃, h₃.prepend hkeeps ?_⟩
  simp only [List.length_append] at hline ⊢
  omega

end call

/-- The receiver of the running method goes on the stack. -/
theorem Stage.push_receiver (S : M.Stage known before site V m calls need) :
    M.Evaluates known before V m (instrs [.push site.receiver]) 1
      (fun ρ => pure (.object ρ.self)) := by
  intro b ρ σ d s v σ' R hat heval hd _
  cases heval
  have hdeep := R.deep
  have hslot := R.frame.hasSlot_self (Nat.le_trans (Nat.le_add_right _ _) hdeep)
    (hd.of_le (by have := R.frame.deep; omega) (Nat.le_succ d))
  rw [S.receiver_eq R.frame.deep] at hat ⊢
  have hvalue := value_frame S.placed R.frame.ebp rfl hslot
  obtain ⟨s', hs'⟩ := push_pushed S.placed hat hvalue R.esp hd
  exact ⟨s', hs'.gave S.regular R.mirrors R.frame.self⟩

end Machine

/-! ## Trees -/

namespace Expr

open Machine

variable {M : Machine} {known : Known} {before : List Int} {site : Site} {V : View} {m : Method}
  {calls : Calls} {need : Nat}

/-- The code of a binary expression is that of its operands and its operator. -/
theorem evaluates_binary (S : M.Stage known before site V m calls need) {note : Note}
    {op : BinaryOp} {left right : Expr} {ta tb : Ty} (hl : left.Elaborated V ta)
    (hr : right.Elaborated V tb)
    (ihl : ∀ {n n' : Nat} {code : List Line}, left.lower site n = .ok (code, n') →
      M.Evaluates known before V m code (left.room + need + 1) (left.eval calls V ·))
    (ihr : ∀ {n n' : Nat} {code : List Line}, right.lower site n = .ok (code, n') →
      M.Evaluates known before V m code (right.room + need + 1) (right.eval calls V ·))
    {n n' : Nat} {code : List Line}
    (h : (binary note op left right).lower site n = .ok (code, n')) :
    M.Evaluates known before V m code ((binary note op left right).room + need + 1)
      ((binary note op left right).eval calls V ·) := by
  obtain ⟨cl, n₁, hcl, h⟩ := state_bind_ok_iff.mp h
  obtain ⟨cr, n₂, hcr, h⟩ := state_bind_ok_iff.mp h
  obtain ⟨co, n₃, hco, h⟩ := state_bind_ok_iff.mp h
  cases h
  have hcombines := BinaryOp.combines S.placed S.distinct hco
  refine (S.binary hl hr (ihl hcl) (ihr hcr) hcombines (Nat.le_add_left 1 _)).mono ?_
  rw [room]
  omega

/-- A call on the value of an expression. -/
theorem evaluates_methodCall (S : M.Stage known before site V m calls need) {note : Note}
    {receiver : Expr} {method cls owner : String} {args : List Expr} {result : Ty}
    {params : List Ty} (hr : receiver.Elaborated V (.object cls))
    (hm : V.known.resolve cls method = some (owner, .func result params))
    (ha : Fit Note.Records V args params) (hnote : note.callee = some owner)
    (ihr : ∀ {n n' : Nat} {code : List Line}, receiver.lower site n = .ok (code, n') →
      M.Evaluates known before V m code (receiver.room + need + 1) (receiver.eval calls V ·))
    (iha : ∀ {n n' : Nat} {code : List Line}, lowerArgs site args n = .ok (code, n') →
      M.EvaluatesAll known before V m code (roomArgs args + need + 1) (evalArgs calls V · args))
    {n n' : Nat} {code : List Line}
    (h : (methodCall note receiver method args).lower site n = .ok (code, n')) :
    M.Evaluates known before V m code ((methodCall note receiver method args).room + need + 1)
      ((methodCall note receiver method args).eval calls V ·) := by
  have hlength := length_le_roomArgs args
  rw [lower, hr.ty?_eq, hnote] at h
  obtain ⟨cr, n₁, hcr, h⟩ := state_bind_ok_iff.mp h
  obtain ⟨ca, n₂, hca, h⟩ := state_bind_ok_iff.mp h
  obtain ⟨cc, n₃, hlift, hpure⟩ := state_bind_ok_iff.mp h
  obtain ⟨hcc, rfl⟩ := state_lift_ok_iff.mp hlift
  cases hpure
  have hsafe : ∀ ρ σ, ρ.Typed known σ.roots V → σ.Typed known →
      Safe (Gives known σ (.object cls)) (receiver.eval calls V ρ σ) :=
    fun ρ σ hρ hσ => eval_safe S.regular S.within S.sound hr hρ hσ
  have hcall := S.call hm ha hsafe (ihr hcr) (iha hca) hcc (by omega)
  have heval : ((methodCall note receiver method args).eval calls V ·) = (fun ρ => do
      let self ← receiver.eval calls V ρ
      let values ← evalArgs calls V ρ args
      V.call calls (some cls) method self values) := by
    funext ρ
    rw [eval, hr.typeIn_eq]
    rfl
  rw [heval]
  refine hcall.mono ?_
  rw [room]
  omega

/-- A call on the object of the running method. -/
theorem evaluates_selfCall (S : M.Stage known before site V m calls need) {note : Note}
    {method owner : String} {args : List Expr} {result : Ty} {params : List Ty}
    (hm : V.known.resolve V.cls method = some (owner, .func result params))
    (ha : Fit Note.Records V args params) (hnote : note.callee = some owner)
    (iha : ∀ {n n' : Nat} {code : List Line}, lowerArgs site args n = .ok (code, n') →
      M.EvaluatesAll known before V m code (roomArgs args + need + 1) (evalArgs calls V · args))
    {n n' : Nat} {code : List Line}
    (h : (selfCall note method args).lower site n = .ok (code, n')) :
    M.Evaluates known before V m code ((selfCall note method args).room + need + 1)
      ((selfCall note method args).eval calls V ·) := by
  have hlength := length_le_roomArgs args
  rw [lower, hnote, S.serves.cls] at h
  obtain ⟨ca, n₁, hca, h⟩ := state_bind_ok_iff.mp h
  obtain ⟨cc, n₂, hlift, hpure⟩ := state_bind_ok_iff.mp h
  obtain ⟨hcc, rfl⟩ := state_lift_ok_iff.mp hlift
  cases hpure
  have hsafe : ∀ (ρ : Env) (σ : Store), ρ.Typed known σ.roots V → σ.Typed known →
      Safe (Gives known σ (.object V.cls)) ((pure (.object ρ.self) : Eval Value) σ) :=
    fun ρ σ hρ hσ => ⟨.refl hσ, hρ.self⟩
  have hcall := S.call hm ha hsafe S.push_receiver (iha hca) hcc (by omega)
  refine hcall.mono ?_
  rw [room]
  omega

mutual

/-- The code of an elaborated expression does what the expression means. -/
theorem evaluates (S : M.Stage known before site V m calls need) : ∀ {e : Expr} {ty : Ty},
    e.Elaborated V ty → ∀ {n n' : Nat} {code : List Line}, e.lower site n = .ok (code, n') →
      M.Evaluates known before V m code (e.room + need + 1) (e.eval calls V ·)
  | _, _, .arith _ hl hr _, _, _, _, h =>
    evaluates_binary S hl hr (evaluates S hl) (evaluates S hr) h
  | _, _, .and hl hr _, _, _, _, h =>
    evaluates_binary S hl hr (evaluates S hl) (evaluates S hr) h
  | _, _, .compare _ hl hr _, _, _, _, h =>
    evaluates_binary S hl hr (evaluates S hl) (evaluates S hr) h
  | _, _, .equate _ _ hl hr _, _, _, _, h =>
    evaluates_binary S hl hr (evaluates S hl) (evaluates S hr) h
  | _, _, .neg ho _, _, _, _, h => by
    obtain ⟨c, n₁, hc, h⟩ := state_bind_ok_iff.mp h
    cases h
    exact S.unary (evaluates S ho hc) (Nat.le_add_left 1 _)
  | _, _, .not ho _, _, _, _, h => by
    obtain ⟨c, n₁, hc, h⟩ := state_bind_ok_iff.mp h
    cases h
    exact S.unary (evaluates S ho hc) (Nat.le_add_left 1 _)
  | _, _, .methodCall hr hm ha hn, _, _, _, h =>
    evaluates_methodCall S hr hm ha hn.2 (evaluates S hr) (evaluatesAll S ha) h
  | _, _, .selfCall hm ha hn, _, _, _, h =>
    evaluates_selfCall S hm ha hn.2 (evaluatesAll S ha) h
  | .var _ _, _, .var hx hs _, _, _, _, h => by
    obtain ⟨hcode, rfl⟩ := state_lift_ok_iff.mp h
    exact (S.load hx hs hcode).mono (Nat.le_add_right_of_le (Nat.le_add_right 1 _))
  | .num _ i, _, .num _, _, _, _, h => by
    cases h
    exact (S.push_imm (v := .int (BitVec.ofInt 32 i)) fun _ => rfl).mono
      (Nat.le_add_right_of_le (Nat.le_add_right 1 _))
  | .bool _ c, _, .bool _, _, _, _, h => by
    cases h
    refine (S.push_imm (v := .bool c) fun _ => ?_).mono
      (Nat.le_add_right_of_le (Nat.le_add_right 1 _))
    cases c <;> rfl
  | .nothing _, _, .nothing _, _, _, _, h => by
    cases h
    exact (S.push_imm (v := .nothing) (i := 0) fun _ => rfl).mono
      (Nat.le_add_right_of_le (Nat.le_add_right 1 _))
  | .new _ cls, _, .new hc _, _, _, _, h => by
    obtain ⟨hcode, rfl⟩ := state_lift_ok_iff.mp h
    exact (S.allocate hc hcode).mono (Nat.le_add_right_of_le (Nat.le_add_right 1 _))

/-- The code of arguments that fit does what the arguments mean. -/
theorem evaluatesAll (S : M.Stage known before site V m calls need) : ∀ {args : List Expr}
    {params : List Ty}, Fit Note.Records V args params → ∀ {n n' : Nat} {code : List Line},
      lowerArgs site args n = .ok (code, n') →
      M.EvaluatesAll known before V m code (roomArgs args + need + 1) (evalArgs calls V · args)
  | _, _, .nil, _, _, _, h => by
    cases h
    exact evaluatesAll_nil
  | e :: rest, _, .cons he _ hr, _, _, _, h => by
    obtain ⟨cr, n₁, hcr, h⟩ := state_bind_ok_iff.mp h
    obtain ⟨ce, n₂, hce, h⟩ := state_bind_ok_iff.mp h
    cases h
    refine (S.evaluatesAll_cons he hr (evaluatesAll S hr hcr) (evaluates S he hce)).mono ?_
    rw [roomArgs]
    omega

end

end Expr

end ClassLang
