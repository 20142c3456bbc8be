import ClassLang.Proofs.Meaning.Breaks
import ClassLang.Proofs.Simulation.Expr

/-! # Divisions without a quotient

    Where the evaluation of an expression breaks off, the machine stands in front
    of a division that it cannot do, and it has printed what was printed.

    * **`Machine.Traps`**: a run comes to such a division.
    * **`Machine.Fails`**: code traps where a run breaks off, and
      **`Machine.CallFails`** says so of routines.
    * **`Expr.fails`**: the code of every elaborated expression does so. -/

namespace ClassLang

namespace Machine

variable {M : Machine} {known : Known} {before out : List Int} {site : Site} {V : View}
  {m : Method} {calls : Calls} {breaking : Breaking} {need b d n n' : Nat} {ρ : Env}
  {σ σ' : Store} {s t : State} {code : List Line} {room room' : Nat}

/-! ## Traps -/

/-- The run comes to a division that has no quotient of 32 bits, when this is
    printed. -/
def Traps (M : Machine) (out : List Int) (s : State) : Prop :=
  ∃ t r, M.Runs s t ∧ M.lines[t.line]? = some (.instr (.idiv r)) ∧ t.divide (t.regs r) = none ∧
    t.output = out

theorem Traps.of_runs (h : M.Traps out t) (hruns : M.Runs s t) : M.Traps out s := by
  obtain ⟨u, r, hu, hline, hdivide, hout⟩ := h
  exact ⟨u, r, hruns.trans hu, hline, hdivide, hout⟩

/-- The code traps where the run breaks off, and it needs this much room on the
    stack. -/
def Fails (M : Machine) (known : Known) (before : List Int) (V : View) (m : Method)
    (code : List Line) (room : Nat) (breaks : Env → Store → Store → Prop) : Prop :=
  ∀ b ρ σ d s σ', M.Running known before V m b ρ σ d s → M.CodeAt s.line code →
    breaks ρ σ σ' → M.HasSlot (d + room) → M.heap.low + known.roomOf σ'.roots ≤ M.heap.high →
    M.Traps (before ++ σ'.printed) s

/-- The routine of a method traps where a call of the method breaks off. -/
def CallFails (M : Machine) (known : Known) (before : List Int) (breaking : Breaking) (room : Nat)
    (owner method : String) (params : List Ty) : Prop :=
  ∃ start, M.find (methodLabel owner method) = some start ∧
    ∀ σ self args d s σ', σ.Typed known → (Value.object self).Of known σ.roots (.object owner) →
      List.Forall₂ (Value.Of known σ.roots) args params →
      M.Mirrors known before σ s → M.Given known σ.roots self args d s →
      s.line = start → s.regs .esp = M.slot (d + 1) → breaking owner method self args σ σ' →
      M.HasSlot (d + 1 + room) → M.heap.low + known.roomOf σ'.roots ≤ M.heap.high →
      M.Traps (before ++ σ'.printed) s

/-- What the code of a method relies on where calls break off. -/
structure Hazards (M : Machine) (known : Known) (before : List Int) (V : View)
    (breaking : Breaking) (need : Nat) : Prop where
  adds : V.CallsAdd known breaking
  fails : ∀ cls method owner result params,
    V.known.resolve cls method = some (owner, .func result params) →
    M.CallFails known before breaking need owner method params

theorem Fails.mono {breaks : Env → Store → Store → Prop}
    (h : M.Fails known before V m code room breaks) (hle : room ≤ room') :
    M.Fails known before V m code room' breaks := by
  intro b ρ σ d s σ' R hat hbreaks hd hheap
  have hdeep := R.deep
  have hb := R.frame.deep
  exact h b ρ σ d s σ' R hat hbreaks (hd.of_le (by omega) (by omega)) hheap

/-- What traps does not depend on the code behind it. -/
theorem Fails.append {breaks : Env → Store → Store → Prop} {rest : List Line}
    (h : M.Fails known before V m code room breaks) :
    M.Fails known before V m (code ++ rest) room breaks :=
  fun b ρ σ d s σ' R hat => h b ρ σ d s σ' R hat.left

/-- Code that gives a value, and then code that traps. -/
theorem Evaluates.then_fails {ty : Ty} {first : Env → Eval Value}
    {breaks : Env → Store → Store → Prop} {rest : List Line}
    (h : M.Evaluates known before V m code room first)
    (hsafe : ∀ ρ σ, ρ.Typed known σ.roots V → σ.Typed known →
      Safe (Gives known σ ty) (first ρ σ))
    (hroots : ∀ ρ σ σ', breaks ρ σ σ' → ρ.Typed known σ.roots V → σ.Typed known →
      σ.roots <+: σ'.roots)
    (hf : M.Fails known before V m rest room' breaks) :
    M.Fails known before V m (code ++ rest) (max room (1 + room')) (fun ρ σ σ' =>
      ∃ v σ₁, first ρ σ = .ok (v, σ₁) ∧ breaks ρ σ₁ σ') := by
  intro b ρ σ d s σ' R hat hbreaks hd hheap
  obtain ⟨v, σ₁, hv, hbreaks⟩ := hbreaks
  have hg := (hsafe ρ σ R.env R.store).of_ok hv
  have hadded := hroots ρ σ₁ σ' hbreaks (R.env.mono hg.1.roots) hg.1.typed
  have hdeep := R.deep
  have hb := R.frame.deep
  -- the word of the value stays on the stack while the rest runs
  obtain ⟨s₁, h₁⟩ := h b ρ σ d s v σ₁ R hat.left hv (hd.of_le (by omega) (by omega))
    (fits_of_roots hadded hheap)
  have htraps := hf b ρ σ₁ (d + 1) s₁ σ' (R.after h₁ hg.1) (h₁.line ▸ hat.right) hbreaks
    (hd.of_le (by omega) (by omega)) hheap
  exact htraps.of_runs h₁.runs

/-! ## Operators -/

/-- The least number has no quotient by -1, and no number has one by zero. -/
theorem divide_eq_none {x y : BitVec 32} (h : y = 0 ∨ x = leastInt ∧ y = -1)
    (hedx : s.regs .edx = if x.toInt < 0 then -1 else 0) (heax : s.regs .eax = x) :
    s.divide y = none := by
  unfold State.divide
  rw [hedx, heax, toInt_sign_append, if_pos]
  rcases h with rfl | ⟨rfl, rfl⟩
  · exact Or.inl rfl
  · have hleast : ¬ Word.Fits (leastInt.toInt.tdiv (-1 : BitVec 32).toInt) := by decide
    exact Or.inr hleast

/-- The code of a division comes to it with its two operands. -/
theorem divide_traps (hM : M.WellPlaced) {x y : BitVec 32}
    (hcode : M.CodeAt s.line (onPair [.cdq, .idiv .ebx])) (hesp : s.regs .esp = M.slot (d + 2))
    (hd : M.HasSlot (d + 2)) (hx : s.memory (M.slot (d + 1)) = x)
    (hy : s.memory (M.slot (d + 2)) = y) (hno : y = 0 ∨ x = leastInt ∧ y = -1) :
    M.Traps s.output s := by
  obtain ⟨t, hpops, heax, hebx, _, _, _, hout⟩ := effects_operands hM hesp hd hx hy
  have hsign : M.effects [.cdq] t =
      some (t.setReg .edx (if x.toInt < 0 then -1 else 0)).next := by
    rw [← heax]
    rfl
  have hfirst : M.CodeAt s.line (instrs [.pop .ebx, .pop .eax, .cdq]) :=
    CodeAt.left (r := instrs [.idiv .ebx, .push (.reg .eax)]) hcode
  obtain ⟨hruns, hline⟩ := runs_of_effects hfirst (effects_append hpops hsign)
  refine ⟨_, .ebx, hruns, ?_, ?_, ?_⟩
  · rw [hline]
    exact hcode 3 _ rfl
  · have hebx' : (t.setReg .edx (if x.toInt < 0 then -1 else 0)).next.regs .ebx = y := by
      simp [hebx]
    rw [hebx']
    exact divide_eq_none hno (by simp) (by simp [heax])
  · exact hout

/-- Both operands, from left to right, and then the operator. -/
theorem Stage.binary_fails (S : M.Stage known before site V m calls need)
    (H : M.Hazards known before V breaking need) {note : Note} {op : BinaryOp} {left right : Expr}
    {ta tb : Ty} {cl cr co : List Line} {rl rr : Nat}
    (hl : left.Elaborated V ta) (hr : right.Elaborated V tb)
    (hcl : M.Evaluates known before V m cl rl (left.eval calls V ·))
    (hcr : M.Evaluates known before V m cr rr (right.eval calls V ·))
    (hfl : M.Fails known before V m cl rl (left.Breaks calls breaking V ·))
    (hfr : M.Fails known before V m cr rr (right.Breaks calls breaking V ·))
    (hco : op.lower n = .ok (co, n')) (hone : 1 ≤ rr) :
    M.Fails known before V m (cl ++ cr ++ co) (max rl (1 + rr))
      ((Expr.binary note op left right).Breaks calls breaking V ·) := by
  intro b ρ σ d s σ' R hat hbreaks hd hheap
  have hdeep := R.deep
  have hb := R.frame.deep
  cases hbreaks with
  | left hbl =>
    exact hfl b ρ σ d s σ' R hat.left.left hbl (hd.of_le (by omega) (by omega)) hheap
  | right hea hbr =>
    have hlater := hcl.then_fails
      (fun ρ σ hρ hσ => Expr.eval_safe S.regular S.within S.sound hl hρ hσ)
      (fun ρ σ σ' hbr hρ hσ => hbr.roots S.regular S.within S.sound H.adds hr hρ hσ) hfr
    exact hlater b ρ σ d s σ' R hat.left ⟨_, _, hea, hbr⟩ hd hheap
  | @divide _ _ _ _ a c _ σ₁ _ hea hec happly =>
    have hga := (Expr.eval_safe S.regular S.within S.sound hl R.env R.store).of_ok hea
    have hgc := (Expr.eval_safe S.regular S.within S.sound hr (R.env.mono hga.1.roots)
      hga.1.typed).of_ok hec
    obtain ⟨s₁, h₁⟩ := hcl b ρ σ d s a σ₁ R hat.left.left hea (hd.of_le (by omega) (by omega))
      (fits_of_grows hgc.1 hheap)
    obtain ⟨s₂, h₂⟩ := hcr b ρ σ₁ (d + 1) s₁ c σ' (R.after h₁ hga.1)
      (h₁.line ▸ hat.left.right) hec (hd.of_le (by omega) (by omega)) hheap
    -- both operands are numbers, and their words are on the stack
    obtain ⟨rfl, x, y, rfl, rfl, hno⟩ := BinaryOp.apply_eq_division happly
    have hx : s₂.memory (M.slot (d + 1)) = x :=
      (h₂.kept _ (by omega) (Nat.le_refl _)).trans h₁.shows
    have hline : s₂.line = s.line + (cl ++ cr).length := by
      rw [h₂.line, h₁.line, List.length_append, Nat.add_assoc]
    cases hco
    have htraps := divide_traps S.placed (hline ▸ hat.right) h₂.esp
      (hd.of_le (by omega) (by omega)) hx h₂.shows hno
    rw [h₂.mirrors.output] at htraps
    exact (htraps.of_runs h₂.runs).of_runs h₁.runs

/-- The operand of a unary operator; the operator itself does not fail. -/
theorem unary_fails {note : Note} {op : UnaryOp} {operand : Expr}
    (h : M.Fails known before V m code room (operand.Breaks calls breaking V ·)) :
    M.Fails known before V m (code ++ op.lower) room
      ((Expr.unary note op operand).Breaks calls breaking V ·) := by
  intro b ρ σ d s σ' R hat hbreaks hd hheap
  cases hbreaks with
  | operand hb => exact h b ρ σ d s σ' R hat.left hb hd hheap

/-! ## Arguments and calls -/

/-- The later arguments, and then the first one. -/
theorem Stage.args_fail_cons (S : M.Stage known before site V m calls need)
    (H : M.Hazards known before V breaking need) {e : Expr} {rest : List Expr} {ty : Ty}
    {params : List Ty} {ce cr : List Line} {re rr : Nat}
    (he : e.Elaborated V ty) (hrest : Expr.Fit Note.Records V rest params)
    (hcr : M.EvaluatesAll known before V m cr rr (Expr.evalArgs calls V · rest))
    (hfr : M.Fails known before V m cr rr (Expr.BreaksAll calls breaking V · rest))
    (hfe : M.Fails known before V m ce re (e.Breaks calls breaking V ·)) :
    M.Fails known before V m (cr ++ ce) (max rr (rest.length + re))
      (Expr.BreaksAll calls breaking V · (e :: rest)) := by
  intro b ρ σ d s σ' R hat hbreaks hd hheap
  have hdeep := R.deep
  have hb := R.frame.deep
  cases hbreaks with
  | later hbr => exact hfr b ρ σ d s σ' R hat.left hbr (hd.of_le (by omega) (by omega)) hheap
  | @first _ _ values _ σ₁ _ her hbe =>
    have hgr := (Expr.evalArgs_safe S.regular S.within S.sound hrest R.env R.store).of_ok her
    have hcount : values.length = rest.length := hgr.2.length_eq.trans hrest.length_eq.symm
    have hroots := hbe.roots S.regular S.within S.sound H.adds he (R.env.mono hgr.1.roots)
      hgr.1.typed
    obtain ⟨s₁, h₁⟩ := hcr b ρ σ d s values σ₁ R hat.left her (hd.of_le (by omega) (by omega))
      (fits_of_roots hroots hheap)
    have htraps := hfe b ρ σ₁ (d + values.length) s₁ σ'
      (R.keep h₁.toKeeps hgr.1 h₁.mirrors h₁.esp) (h₁.line ▸ hat.right) hbe
      (hd.of_le (by omega) (by omega)) hheap
    exact htraps.of_runs h₁.runs

section call

variable {cls method owner : String} {result : Ty} {params : List Ty} {args : List Expr}
  {receiver : Env → Eval Value} {cr ca cc : List Line} {rr ra : Nat}

/-- A call whose receiver and arguments have values. -/
theorem Stage.call_fails (S : M.Stage known before site V m calls need)
    (H : M.Hazards known before V breaking need)
    (hr : V.known.resolve cls method = some (owner, .func result params))
    (ha : Expr.Fit Note.Records V args params)
    (hsafe : ∀ ρ σ, ρ.Typed known σ.roots V → σ.Typed known →
      Safe (Gives known σ (.object cls)) (receiver ρ σ))
    (hcr : M.Evaluates known before V m cr rr receiver)
    (hca : M.EvaluatesAll known before V m ca ra (Expr.evalArgs calls V · args))
    (hcode : site.call (some owner) cls method args.length = .ok cc)
    (hroom : args.length + need + 1 ≤ ra) :
    M.Fails known before V m (cr ++ ca ++ cc) (max rr (1 + ra)) (fun ρ σ σ' =>
      ∃ self values σ₁ σ₂, receiver ρ σ = .ok (self, σ₁) ∧
        Expr.evalArgs calls V ρ args σ₁ = .ok (values, σ₂) ∧
        V.CallBreaks breaking (some cls) method self values σ₂ σ') := by
  intro b ρ σ d s σ' R hat hbreaks hd hheap
  obtain ⟨self, values, σ₁, σ₂, her, hea, hcall⟩ := hbreaks
  have hgr := (hsafe ρ σ R.env R.store).of_ok her
  have hga := (Expr.evalArgs_safe S.regular S.within S.sound ha (R.env.mono hgr.1.roots)
    hgr.1.typed).of_ok hea
  have hself := hgr.2.mono hga.1.roots
  have hroots := hcall.roots S.within S.regular.wellFormed H.adds hr hga.1.typed hself hga.2
  have hcount : values.length = args.length := hga.2.length_eq.trans ha.length_eq.symm
  have hdeep := R.deep
  have hb := R.frame.deep
  obtain ⟨r, s₂, rfl, hkeeps, hline, hesp, hgiven, hm⟩ := S.call_ready ha hsafe hcr hca R hat.left
    her hea hd (fits_of_roots hroots hheap)
  have howner := hself.assign S.regular.wellFormed
    (.object (S.within.inherits (Known.inherits_of_resolve hr)))
  obtain ⟨r', hr', hb'⟩ := hcall.resolved hr
  cases hr'
  obtain ⟨start, hfind, htrap⟩ := H.fails _ _ _ _ _ hr
  -- into the routine
  rw [S.serves.call_eq hr ha.length_eq] at hcode
  cases hcode
  have hat₂ : M.CodeAt s₂.line _ := hline ▸ hat.right
  obtain ⟨s₃, hruns₃, hline₃, hesp₃, _, _, _, hm₃, hgiven₃⟩ := call_enters S.placed S.regular hfind
    hat₂.head hesp (hd.of_le (by omega) (by omega)) hm hgiven
  have htraps := htrap σ₂ r values (d + (values.length + 1)) s₃ σ' hga.1.typed howner hga.2 hm₃
    hgiven₃ hline₃ hesp₃ hb' (hd.of_le (by omega) (by omega)) hheap
  exact htraps.of_runs (hkeeps.runs.trans hruns₃)

end call

end Machine

/-! ## Trees -/

namespace Expr

open Machine

variable {M : Machine} {known : Known} {before : List Int} {site : Site} {V : View} {m : Method}
  {calls : Calls} {breaking : Breaking} {need : Nat}

/-- The code of a binary expression traps where its operands or its operator
    fail. -/
theorem fails_binary (S : M.Stage known before site V m calls need)
    (H : M.Hazards known before V breaking need) {note : Note} {op : BinaryOp} {left right : Expr}
    {ta tb : Ty} (hl : left.Elaborated V ta) (hr : right.Elaborated V tb)
    (ihl : ∀ {n n' : Nat} {code : List Line}, left.lower site n = .ok (code, n') →
      M.Fails known before V m code (left.room + need + 1) (left.Breaks calls breaking V ·))
    (ihr : ∀ {n n' : Nat} {code : List Line}, right.lower site n = .ok (code, n') →
      M.Fails known before V m code (right.room + need + 1) (right.Breaks calls breaking V ·))
    {n n' : Nat} {code : List Line}
    (h : (binary note op left right).lower site n = .ok (code, n')) :
    M.Fails known before V m code ((binary note op left right).room + need + 1)
      ((binary note op left right).Breaks calls breaking V ·) := by
  obtain ⟨cl, n₁, hcl, h⟩ := state_bind_ok_iff.mp h
  obtain ⟨cr, n₂, hcr, h⟩ := state_bind_ok_iff.mp h
  obtain ⟨co, n₃, hco, h⟩ := state_bind_ok_iff.mp h
  cases h
  refine (S.binary_fails H hl hr (evaluates S hl hcl) (evaluates S hr hcr) (ihl hcl) (ihr hcr) hco
    (Nat.le_add_left 1 _)).mono ?_
  rw [room]
  omega

/-- The code of a call traps where its receiver, its arguments or the called
    method break off. -/
theorem fails_methodCall (S : M.Stage known before site V m calls need)
    (H : M.Hazards known before V breaking need) {note : Note} {receiver : Expr}
    {method cls owner : String} {args : List Expr} {result : Ty} {params : List Ty}
    (hr : receiver.Elaborated V (.object cls))
    (hm : V.known.resolve cls method = some (owner, .func result params))
    (ha : Fit Note.Records V args params) (hnote : note.callee = some owner)
    (ihr : ∀ {n n' : Nat} {code : List Line}, receiver.lower site n = .ok (code, n') →
      M.Fails known before V m code (receiver.room + need + 1) (receiver.Breaks calls breaking V ·))
    (iha : ∀ {n n' : Nat} {code : List Line}, lowerArgs site args n = .ok (code, n') →
      M.Fails known before V m code (roomArgs args + need + 1) (BreaksAll calls breaking V · args))
    {n n' : Nat} {code : List Line}
    (h : (methodCall note receiver method args).lower site n = .ok (code, n')) :
    M.Fails known before V m code ((methodCall note receiver method args).room + need + 1)
      ((methodCall note receiver method args).Breaks calls breaking V ·) := by
  have hlength := length_le_roomArgs args
  rw [lower, hr.ty?_eq, hnote] at h
  obtain ⟨cr, n₁, hcr, h⟩ := state_bind_ok_iff.mp h
  obtain ⟨ca, n₂, hca, h⟩ := state_bind_ok_iff.mp h
  obtain ⟨cc, n₃, hlift, hpure⟩ := state_bind_ok_iff.mp h
  obtain ⟨hcc, rfl⟩ := state_lift_ok_iff.mp hlift
  cases hpure
  have hsafe : ∀ ρ σ, ρ.Typed known σ.roots V → σ.Typed known →
      Safe (Gives known σ (.object cls)) (receiver.eval calls V ρ σ) :=
    fun ρ σ hρ hσ => eval_safe S.regular S.within S.sound hr hρ hσ
  have hreceiver := evaluates S hr hcr
  have hargs := hreceiver.then_fails hsafe
    (fun ρ σ σ' hba hρ hσ => hba.roots S.regular S.within S.sound H.adds ha hρ hσ) (iha hca)
  have hcall := S.call_fails H hm ha hsafe hreceiver (evaluatesAll S ha hca) hcc (by omega)
  have hroom : max (receiver.room + need + 1) (1 + (roomArgs args + need + 1)) ≤
      (methodCall note receiver method args).room + need + 1 := by
    rw [room]
    omega
  intro b ρ σ d s σ' R hat hbreaks hd hheap
  cases hbreaks with
  | receiver hbr =>
    have hfirst := (ihr hcr).mono (Nat.le_trans (Nat.le_max_left _ _) hroom)
    exact hfirst b ρ σ d s σ' R hat.left.left hbr hd hheap
  | methodArgs hself hba =>
    exact (hargs.append.mono hroom) b ρ σ d s σ' R hat ⟨_, _, hself, hba⟩ hd hheap
  | methodCall hself hvalues hbc =>
    rw [hr.typeIn_eq] at hbc
    exact (hcall.mono hroom) b ρ σ d s σ' R hat ⟨_, _, _, _, hself, hvalues, hbc⟩ hd hheap

/-- The code of a call on the object of the running method traps where its
    arguments or the called method break off. -/
theorem fails_selfCall (S : M.Stage known before site V m calls need)
    (H : M.Hazards known before V breaking need) {note : Note} {method owner : String}
    {args : List Expr} {result : Ty} {params : List Ty}
    (hm : V.known.resolve V.cls method = some (owner, .func result params))
    (ha : Fit Note.Records V args params) (hnote : note.callee = some owner)
    (iha : ∀ {n n' : Nat} {code : List Line}, lowerArgs site args n = .ok (code, n') →
      M.Fails known before V m code (roomArgs args + need + 1) (BreaksAll calls breaking V · args))
    {n n' : Nat} {code : List Line}
    (h : (selfCall note method args).lower site n = .ok (code, n')) :
    M.Fails known before V m code ((selfCall note method args).room + need + 1)
      ((selfCall note method args).Breaks calls breaking V ·) := by
  have hlength := length_le_roomArgs args
  rw [lower, hnote, S.serves.cls] at h
  obtain ⟨ca, n₁, hca, h⟩ := state_bind_ok_iff.mp h
  obtain ⟨cc, n₂, hlift, hpure⟩ := state_bind_ok_iff.mp h
  obtain ⟨hcc, rfl⟩ := state_lift_ok_iff.mp hlift
  cases hpure
  have hsafe : ∀ (ρ : Env) (σ : Store), ρ.Typed known σ.roots V → σ.Typed known →
      Safe (Gives known σ (.object V.cls)) ((pure (.object ρ.self) : Eval Value) σ) :=
    fun ρ σ hρ hσ => ⟨.refl hσ, hρ.self⟩
  have hargs := S.push_receiver.then_fails hsafe
    (fun ρ σ σ' hba hρ hσ => hba.roots S.regular S.within S.sound H.adds ha hρ hσ) (iha hca)
  have hcall := S.call_fails H hm ha hsafe S.push_receiver (evaluatesAll S ha hca) hcc (by omega)
  have hroom : max 1 (1 + (roomArgs args + need + 1)) ≤
      (selfCall note method args).room + need + 1 := by
    rw [room]
    omega
  intro b ρ σ d s σ' R hat hbreaks hd hheap
  cases hbreaks with
  | selfArgs hba => exact (hargs.append.mono hroom) b ρ σ d s σ' R hat ⟨_, _, rfl, hba⟩ hd hheap
  | selfCall hvalues hbc =>
    exact (hcall.mono hroom) b ρ σ d s σ' R hat ⟨_, _, _, _, rfl, hvalues, hbc⟩ hd hheap

mutual

/-- The code of an elaborated expression traps where the expression breaks
    off. -/
theorem fails (S : M.Stage known before site V m calls need)
    (H : M.Hazards known before V breaking need) : ∀ {e : Expr} {ty : Ty}, e.Elaborated V ty →
      ∀ {n n' : Nat} {code : List Line}, e.lower site n = .ok (code, n') →
        M.Fails known before V m code (e.room + need + 1) (e.Breaks calls breaking V ·)
  | _, _, .arith _ hl hr _, _, _, _, h =>
    fails_binary S H hl hr (fails S H hl) (fails S H hr) h
  | _, _, .and hl hr _, _, _, _, h =>
    fails_binary S H hl hr (fails S H hl) (fails S H hr) h
  | _, _, .compare _ hl hr _, _, _, _, h =>
    fails_binary S H hl hr (fails S H hl) (fails S H hr) h
  | _, _, .equate _ _ hl hr _, _, _, _, h =>
    fails_binary S H hl hr (fails S H hl) (fails S H hr) h
  | _, _, .neg ho _, _, _, _, h => by
    obtain ⟨c, n₁, hc, h⟩ := state_bind_ok_iff.mp h
    cases h
    exact unary_fails (fails S H ho hc)
  | _, _, .not ho _, _, _, _, h => by
    obtain ⟨c, n₁, hc, h⟩ := state_bind_ok_iff.mp h
    cases h
    exact unary_fails (fails S H ho hc)
  | _, _, .methodCall hr hm ha hn, _, _, _, h =>
    fails_methodCall S H hr hm ha hn.2 (fails S H hr) (failsAll S H ha) h
  | _, _, .selfCall hm ha hn, _, _, _, h =>
    fails_selfCall S H hm ha hn.2 (failsAll S H ha) h
  | .var .., _, _, _, _, _, _ | .num .., _, _, _, _, _, _ | .bool .., _, _, _, _, _, _
  | .nothing .., _, _, _, _, _, _ | .new .., _, _, _, _, _, _ => by
    intro b ρ σ d s σ' _ _ hbreaks
    cases hbreaks

/-- The code of arguments that fit traps where the arguments break off. -/
theorem failsAll (S : M.Stage known before site V m calls need)
    (H : M.Hazards known before V breaking need) : ∀ {args : List Expr} {params : List Ty},
      Fit Note.Records V args params → ∀ {n n' : Nat} {code : List Line},
        lowerArgs site args n = .ok (code, n') →
        M.Fails known before V m code (roomArgs args + need + 1)
          (BreaksAll calls breaking V · args)
  | _, _, .nil, _, _, _, _ => by
    intro b ρ σ d s σ' _ _ hbreaks
    cases hbreaks
  | e :: rest, _, .cons he _ hr, _, _, _, h => by
    obtain ⟨cr, n₁, hcr, h⟩ := state_bind_ok_iff.mp h
    obtain ⟨ce, n₂, hce, h⟩ := state_bind_ok_iff.mp h
    cases h
    have hcons := S.args_fail_cons H he hr (evaluatesAll S hr hcr) (failsAll S H hr hcr)
      (fails S H he hce)
    apply hcons.mono
    rw [roomArgs]
    omega

end

end Expr

end ClassLang
