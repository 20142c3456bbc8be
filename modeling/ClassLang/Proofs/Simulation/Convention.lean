import ClassLang.Proofs.Lowering.Dispatch
import ClassLang.Proofs.Lowering.Flow
import ClassLang.Proofs.Lowering.Operands
import ClassLang.Proofs.Simulation.Program

/-! # Caller and callee

    The code of a call and the code of the method that it runs agree on the frame
    of the method.

    * **`Machine.FrameMade`**: the words that were on top of the stack at the call
      are receiver and parameters from the frame pointer that the method sets.
    * **`Expr.Hands`**: what a call hands over.
    * **`FramesAgree`** is the whole agreement, on every way through the code and
      on every machine.
    * **`Program.frames_agree`**: it holds for all calls of accepted programs. -/

namespace ClassLang

/-! ## The frame of a routine -/

namespace Machine

/-- State `t` is that of a routine with its frame made, when it was called in
    state `s` on a stack of `d` words.  Receiver and parameters are the topmost
    words that were there, and nothing that was there has changed. -/
structure FrameMade (M : Machine) (frame : Frame) (room : Int) (d : Nat) (s t : State) : Prop where
  pointer : t.regs .ebp = M.slot (d + 2)
  reserved : t.regs .esp = t.regs .ebp - BitVec.ofInt 32 room
  saved : t.memory (t.regs .ebp) = s.regs .ebp
  back : t.memory (t.regs .ebp + BitVec.ofInt 32 Word.size) = M.place (s.line + 1)
  params : ∀ (i : Nat) slot, frame.params[i]? = some slot →
    t.regs .ebp + BitVec.ofInt 32 slot.offset = s.regs .esp + BitVec.ofInt 32 (Word.size * i)
  receiver : t.regs .ebp + BitVec.ofInt 32 frame.receiver =
    s.regs .esp + BitVec.ofInt 32 (Word.size * frame.params.length)
  kept : ∀ k, 1 ≤ k → k ≤ d → t.memory (M.slot k) = s.memory (M.slot k)

variable {M : Machine} {s : State} {d start : Nat} {label : String}

/-- The words above the return address, from the frame pointer and from the top
    of the stack before the call. -/
theorem slot_above (M : Machine) (d i : Nat) :
    M.slot (d + 2) + BitVec.ofInt 32 (8 + 4 * i) = M.slot d + BitVec.ofInt 32 (4 * i) := by
  have htwo : M.slot d = M.slot (d + 2) + BitVec.ofInt 32 8 :=
    (slot_add (j := 2) (by omega)).symm
  rw [htwo, BitVec.add_assoc, ← BitVec.ofInt_add]

/-- The call of a routine and the first lines of the routine make its frame. -/
theorem frame_made (hM : M.WellPlaced) {m : Method}
    (hcall : M.lines[s.line]? = some (.instr (.call label))) (hne : label ≠ "printf")
    (hfind : M.find label = some start)
    (hat : M.CodeAt start ([.label (.named label)] ++ prologue
      ++ instrs [.arith .sub (.imm (4 * m.localCount)) (.reg .esp)]))
    (hesp : s.regs .esp = M.slot d) (hd : M.HasSlot (d + 2)) :
    ∃ t, M.Runs s t ∧ t.line = start + 4 ∧
      M.FrameMade m.frame (4 * m.localCount) d s t := by
  have hslot : M.HasSlot (d + 1) := hd.of_le (by omega) (by omega)
  have hstep := step_call hM hcall hne hfind hesp hslot
  let s₁ := ((s.setReg .esp (M.slot (d + 1))).setWord (M.slot (d + 1)) (M.place (s.line + 1))).goOn
    start
  obtain ⟨u, hruns, huline, huebp, huesp, _, humem⟩ :=
    enter (s := s₁) (d := d + 1) hM hat.left (by simp [s₁]) hd
  have huline : u.line = start + 3 := huline
  have hreserve := effect_reserve m.localCount huesp
  have hline : M.lines[u.line]? =
      some (.instr (.arith .sub (.imm (4 * m.localCount)) (.reg .esp))) := by
    rw [huline]
    exact hat.right.head
  let t := (u.setReg .esp (M.slot (d + 2 + m.localCount))).forget.next
  have hmem : ∀ a, t.memory a = if a = M.slot (d + 2) then s.regs .ebp
      else if a = M.slot (d + 1) then M.place (s.line + 1) else s.memory a := by
    intro a
    show u.memory a = _
    rw [humem]
    simp [s₁]
  have hne₁ : ∀ k, 1 ≤ k → k ≤ d + 1 → M.slot k ≠ M.slot (d + 2) := by
    intro k h1 hk heq
    have := (slot_inj hM (hd.of_le h1 (by omega)) hd).mp heq
    omega
  have hebp : t.regs .ebp = M.slot (d + 2) := by simpa [t] using huebp
  have hesp' : t.regs .esp = M.slot (d + 2 + m.localCount) := by simp [t]
  refine ⟨t, (Runs.single hstep).trans (hruns.trans (Runs.single (step_of_effect hline hreserve))),
    by simp [t, huline], ?_⟩
  refine ⟨hebp, ?_, ?_, ?_, ?_, ?_, ?_⟩
  · -- the stack grows down
    have hroom : M.slot (d + 2 + m.localCount) + BitVec.ofInt 32 (4 * m.localCount) =
        M.slot (d + 2) := slot_add (by omega)
    rw [hesp', hebp, ← hroom, BitVec.add_sub_cancel]
  · rw [hebp, hmem, if_pos rfl]
  · have hback : M.slot (d + 2) + BitVec.ofInt 32 Word.size = M.slot (d + 1) :=
      slot_add (j := 1) (by omega)
    rw [hebp, hback, hmem, if_neg (hne₁ _ (by omega) (by omega)), if_pos rfl]
  · intro i slot hi
    have hslot' : m.frame.params[i]? = _ := getElem?_wordSlots _ _ _ i
    rw [hi] at hslot'
    obtain ⟨v, _, hv⟩ := Option.map_eq_some_iff.mp hslot'.symm
    rw [hebp, hesp, ← hv]
    exact slot_above M d i
  · have hcount : m.frame.params.length = m.params.length := by simp [Method.frame]
    rw [hebp, hesp, hcount]
    exact slot_above M d m.params.length
  · intro k h1 hk
    rw [hmem, if_neg (hne₁ k h1 (by omega)), if_neg]
    intro heq
    have := (slot_inj hM (hd.of_le h1 (by omega)) hslot).mp heq
    omega

end Machine

/-! ## What a call hands over -/

namespace Expr

variable {V : View} {e : Expr} {cls method : String} {args : List Expr} {ty : Ty}

/-- The receiver of the call `e` is `self` and its arguments are `values`, and
    the store is `σ'` when they are evaluated. -/
inductive Hands (calls : Calls) (V : View) (ρ : Env) :
    Expr → Store → Ref → List Value → Store → Prop where
  | method {n receiver name args σ σ₁ σ' self values} :
      receiver.eval calls V ρ σ = .ok (.object self, σ₁) →
      evalArgs calls V ρ args σ₁ = .ok (values, σ') →
      Hands calls V ρ (.methodCall n receiver name args) σ self values σ'
  | self {n name args σ σ' values} : evalArgs calls V ρ args σ = .ok (values, σ') →
      Hands calls V ρ (.selfCall n name args) σ ρ.self values σ'

/-- An elaborated call records the method that the rules find, and its arguments
    fit. -/
theorem CallsOn.exists_resolved (h : e.CallsOn V cls method args) (he : e.Elaborated V ty) :
    ∃ owner params, V.known.resolve cls method = some (owner, .func ty params) ∧
      Fit Note.Records V args params ∧ e.callee? = some owner ∧
      e.runs? = some (owner, method) := by
  cases h with
  | method hreceiver =>
    cases he with
    | methodCall hr hres hfit hnote =>
      cases Derives.unique hreceiver hr
      exact ⟨_, _, hres, hfit, hnote.2, by rw [runs?, hnote.2]; rfl⟩
  | self =>
    cases he with
    | selfCall hres hfit hnote => exact ⟨_, _, hres, hfit, hnote.2, by rw [runs?, hnote.2]; rfl⟩

/-- There is an operand for the receiver and for each argument. -/
theorem CallsOn.length_operands (h : e.CallsOn V cls method args) :
    e.operands.length = args.length + 1 := by
  cases h <;> simp [operands]

/-- The receiver and the arguments of a call take room on the stack. -/
theorem CallsOn.length_lt_room (h : e.CallsOn V cls method args) : args.length < e.room := by
  have hargs := length_le_roomArgs args
  cases h with
  | method _ | self =>
    rw [room]
    omega

end Expr

namespace Machine

variable {M : Machine} {known : Known} {before : List Int} {site : Site} {V : View} {m : Method}
  {calls : Calls} {need b d n n' : Nat} {ρ : Env} {σ σ' : Store} {s : State} {e : Expr}
  {cls method owner : String} {args : List Expr} {params : List Ty} {ty result : Ty}
  {self : Ref} {values : List Value} {code front cc : List Line}

/-- What is handed over has the types that the method expects. -/
theorem Stage.hands_typed (S : M.Stage known before site V m calls need)
    (hcall : e.CallsOn V cls method args) (he : e.Elaborated V ty)
    (hr : V.known.resolve cls method = some (owner, .func result params))
    (ha : Expr.Fit Note.Records V args params) (hρ : ρ.Typed known σ.roots V) (hσ : σ.Typed known)
    (hands : e.Hands calls V ρ σ self values σ') :
    σ'.Typed known ∧ (Value.object self).Of known σ'.roots (.object owner) ∧
      List.Forall₂ (Value.Of known σ'.roots) values params := by
  -- from the receiver on, both forms of call are alike
  have hrest : ∀ {σ₁ : Store}, Gives known σ (.object cls) (.object self) σ₁ →
      Expr.evalArgs calls V ρ args σ₁ = .ok (values, σ') →
      σ'.Typed known ∧ (Value.object self).Of known σ'.roots (.object owner) ∧
        List.Forall₂ (Value.Of known σ'.roots) values params := by
    intro σ₁ hself hargs
    have hga := (Expr.evalArgs_safe S.regular S.within S.sound ha (hρ.mono hself.1.roots)
      hself.1.typed).of_ok hargs
    have howner := (hself.2.mono hga.1.roots).assign S.regular.wellFormed
      (.object (S.within.inherits (Known.inherits_of_resolve hr)))
    exact ⟨hga.1.typed, howner, hga.2⟩
  cases hcall with
  | method hreceiver =>
    cases he with
    | methodCall hrec _ _ _ =>
      cases Expr.Derives.unique hreceiver hrec
      cases hands with
      | method hself hargs =>
        exact hrest ((Expr.eval_safe S.regular S.within S.sound hrec hρ hσ).of_ok hself) hargs
  | self =>
    cases hands with
    | self hargs => exact hrest ⟨.refl hσ, hρ.self⟩ hargs

/-- The code in front of a call puts receiver and arguments on the stack. -/
theorem Stage.handed (S : M.Stage known before site V m calls need)
    (hcall : e.CallsOn V cls method args) (he : e.Elaborated V ty)
    (ha : Expr.Fit Note.Records V args params) (hlower : e.lower site n = .ok (code, n'))
    (hcode : code = front ++ cc) (hthree : cc.length = 3)
    (R : M.Running known before V m b ρ σ d s) (hat : M.CodeAt s.line front)
    (hands : e.Hands calls V ρ σ self values σ') (hd : M.HasSlot (d + (e.room + need + 1)))
    (hheap : M.heap.low + known.roomOf σ'.roots ≤ M.heap.high) :
    ∃ t, M.Keeps d s t ∧ t.line = s.line + front.length ∧
      t.regs .esp = M.slot (d + (values.length + 1)) ∧
      M.Given known σ'.roots self values (d + (values.length + 1)) t ∧
      M.Mirrors known before σ' t := by
  have hdeep := R.deep
  have hb := R.frame.deep
  have hroom := Expr.length_le_roomArgs args
  -- the three lines of the call are the last ones
  have hfront : ∀ {front' cc' : List Line} {callee : Option String} {cls' : String} {k : Nat},
      site.call callee cls' method k = .ok cc' → code = front' ++ cc' → front = front' := by
    intro front' cc' callee cls' k hc heq
    obtain ⟨_, _, _, rfl⟩ := Site.call_code hc
    exact (List.append_inj' (hcode.symm.trans heq) hthree).1
  cases hcall with
  | method hreceiver =>
    cases he with
    | methodCall hrec hres hfit hnote =>
      cases Expr.Derives.unique hreceiver hrec
      cases hands with
      | method hself hargs =>
        obtain ⟨cls', cr, _, ca, cc', hcr, hca, hcc, heq⟩ := Expr.lower_methodCall_ok hlower
        cases hfront hcc heq
        have hsafe : ∀ (ρ : Env) (σ : Store), ρ.Typed known σ.roots V → σ.Typed known →
            Safe (Gives known σ (.object cls)) (Expr.eval calls V ρ _ σ) :=
          fun ρ σ hρ hσ => Expr.eval_safe S.regular S.within S.sound hrec hρ hσ
        obtain ⟨_, t, hobject, hready⟩ := S.call_ready ha hsafe (Expr.evaluates S hrec hcr)
          (Expr.evaluatesAll S ha hca) R hat hself hargs
          (hd.of_le (by omega) (by rw [Expr.room]; omega)) hheap
        cases hobject
        exact ⟨t, hready⟩
  | self =>
    cases he with
    | selfCall hres hfit hnote =>
      cases hands with
      | self hargs =>
        obtain ⟨ca, cc', hca, hcc, heq⟩ := Expr.lower_selfCall_ok hlower
        cases hfront hcc heq
        have hsafe : ∀ (ρ : Env) (σ : Store), ρ.Typed known σ.roots V → σ.Typed known →
            Safe (Gives known σ (.object V.cls)) ((pure (.object ρ.self) : Eval Value) σ) :=
          fun ρ σ hρ hσ => ⟨.refl hσ, hρ.self⟩
        obtain ⟨_, t, hobject, hready⟩ := S.call_ready ha hsafe S.push_receiver
          (Expr.evaluatesAll S ha hca) R hat rfl hargs
          (hd.of_le (by omega) (by rw [Expr.room]; omega)) hheap
        cases hobject
        exact ⟨t, hready⟩

end Machine

/-! ## All methods of a program -/

/-- A method takes room on the stack. -/
theorem Routine.one_le_room {rs : List Routine} {r : Routine} (h : r ∈ rs) : 1 ≤ room rs := by
  cases rs with
  | nil => cases h
  | cons r' rest =>
    rw [room_cons, Method.room]
    omega

namespace Program

variable {p : Program} {older : List ClassDecl} {c : ClassDecl} {before : List Method} {m : Method}
  {M : Machine}

/-- A method that the rules find is a method of the program. -/
theorem Elaborated.exists_called (h : p.Elaborated) (hat : p.At older c before m)
    {cls method owner : String} {result : Ty} {params : List Ty}
    (hr : (c.viewAt older before m).known.resolve cls method =
      some (owner, .func result params)) :
    ∃ r ∈ p.routines, r.Answers owner method result params := by
  have hlinked := h.linked.2
  obtain ⟨_, r, _, hr', hanswers⟩ := Routine.Linked.exists_earlier hlinked hat.getElem?_allRoutines hr
  exact ⟨r, List.mem_reverse.mpr (List.mem_of_getElem? hr'), hanswers⟩

/-- No call in a program of representable size has too many arguments: the frame
    of its method has a slot for each of them. -/
theorem Elaborated.fewArgs (h : p.Elaborated) (hr : p.Representable)
    (hat : p.At older c before m) : m.FewArgs := by
  have hcalls : ∀ {e : Expr} {ty : Ty} {cls method : String} {args : List Expr},
      e.CallsOn (c.viewAt older before m) cls method args →
      e.Elaborated (c.viewAt older before m) ty → args.length < argLimit := by
    intro e ty cls method args hcall hty
    obtain ⟨owner, params, hres, hfit, _⟩ := hcall.exists_resolved hty
    obtain ⟨r, hr', hans⟩ := h.exists_called hat hres
    obtain ⟨_, _, _, rfl⟩ := hans.parts
    obtain ⟨older', c', before', m', ⟨⟨_, hc'⟩, _, hm'⟩, rfl⟩ := exists_at_of_mem_routines hr'
    have hframe : m'.FrameFits := hr.frames c' (hc' ▸ List.mem_append_right _ List.mem_cons_self) m'
      (hm' ▸ List.mem_append_right _ List.mem_cons_self)
    have hparams := hframe.params
    rw [hfit.length_eq, List.length_map]
    simp only [Word.Fits, Word.size, argLimit] at hparams ⊢
    omega
  intro e hu
  obtain ⟨ty, hty⟩ := h.exists_type hat hu
  cases e with
  | methodCall note receiver method args =>
    cases hty with
    | methodCall hrec hres hfit hnote =>
      exact hcalls (.method hrec.hasType) (.methodCall hrec hres hfit hnote)
  | selfCall note method args => exact hcalls .self hty
  | _ => exact Nat.zero_lt_of_ne_zero (by decide)

/-- What the code of a method of a loaded program relies on. -/
theorem Elaborated.stage (h : p.Elaborated) (hl : p.LoadedOn M) (printed : List Int)
    (hat : p.At older c before m) {site : Site}
    (hserves : site.Serves (c.viewAt older before m) m) :
    M.Stage p.known printed site (c.viewAt older before m) m (Routine.calls p.routines)
      (Routine.room p.routines) := by
  have hmem : (⟨c.viewAt older before m, m⟩ : Routine) ∈ p.routines :=
    List.mem_reverse.mpr (List.mem_of_getElem? hat.getElem?_allRoutines)
  have hsized := h.sized_of_mem hmem
  have hanswers : ∀ r ∈ p.routines, M.Answers p.known printed (Routine.calls p.routines)
      (Routine.room p.routines) r.view.cls r.method.name
      (r.method.params.map (Ty.ofName ·.ty)) :=
    Routine.answers hl.placed hl.distinct h.regular hl.print hl.format h.linked.2
      (fun r hr => h.typed_of_mem hr) (fun r hr => h.sized_of_mem hr) hl.routines
  have hsafe := Routine.calls_safe h.regular h.linked.2 fun r hr => h.typed_of_mem hr
  refine ⟨hl.placed, hl.distinct, h.regular, h.within_at hat, hserves, hsized.sizes, hsized.slots,
    ?_, ?_, hl.print, hl.format⟩
  · intro cls method owner result params hres
    obtain ⟨r, hr, hans⟩ := h.exists_called hat hres
    obtain ⟨rfl, rfl, rfl, rfl⟩ := hans.parts
    exact hsafe r hr
  · intro cls method owner result params hres
    obtain ⟨r, hr, hans⟩ := h.exists_called hat hres
    obtain ⟨rfl, rfl, _, rfl⟩ := hans.parts
    exact hanswers r hr

end Program

/-! ## The agreement -/

/-- The block of method `m` stands in the lines, and it is the code of the method
    at the site that a new generator has there. -/
structure Generator.BlockIn (classes : Hierarchy) (p : Program) (lines : List Line)
    (older : List ClassDecl) (c : ClassDecl) (before : List Method) (m : Method) (site : Site)
    (block : List Line) : Prop where
  reached : SiteAt classes p older c before m site
  lowered : ∃ n n', m.lower site n = .ok (block, n')
  placed : block <:+: lines

/-- In the frame at the frame pointer of state `t` the receiver is `self` and the
    parameters are `values`. -/
structure Machine.HandedOver (M : Machine) (known : Known) (roots : List String) (frame : Frame)
    (self : Ref) (values : List Value) (t : State) : Prop where
  count : values.length = frame.params.length
  receiver : M.Shows known roots (.object self)
    (t.memory (t.regs .ebp + BitVec.ofInt 32 frame.receiver))
  params : ∀ (i : Nat) v slot, values[i]? = some v → frame.params[i]? = some slot →
    M.Shows known roots v (t.memory (t.regs .ebp + BitVec.ofInt 32 slot.offset))

/-- The call `e` in method `m`, of the operands `operands`, and method `m'` of
    class `owner`, whose body stands in `block`, agree on the frame of `m'`. -/
structure FramesAgree (p : Program) (lines : List Line) (V : View) (m : Method) (e : Expr)
    (operands : List (List Line)) (code : List Line) (owner : String) (m' : Method) (frame : Frame)
    (body block : List Line) : Prop where
  call : code = operands.flatten ++ instrs [.call (methodLabel owner m'.name),
    .arith .add (.imm (Word.size * operands.length)) (.reg .esp), .push (.reg .eax)]
  /-- There is a word for the receiver and one for each parameter. -/
  count : operands.length = frame.params.length + 1
  stacked : Stacks operands code
  routine : block = [.label (.named (methodLabel owner m'.name))] ++ prologue
    ++ instrs [.arith .sub (.imm (Word.size * m'.localCount)) (.reg .esp)]
    ++ body ++ instrs [.pop .eax] ++ epilogue
  apart : frame.Apart (Word.size * m'.localCount)
  /-- On no way through the body, which starts below the locals, is a word pushed
      that overlaps one of the frame: at depth `x` it ends at `-4 * x`. -/
  below : ∀ i x, Way body m'.localCount i x → ∀ o ∈ frame.words, -(Word.size * x) ≤ o
  /-- Whatever the state at the call, the topmost words become the frame. -/
  made : ∀ (M : Machine) start d s, M.WellPlaced →
    M.find (methodLabel owner m'.name) = some start → M.CodeAt start block →
    M.lines[s.line]? = some (.instr (.call (methodLabel owner m'.name))) →
    s.regs .esp = M.slot d → M.HasSlot (d + 2) →
    ∃ t, M.Runs s t ∧ t.line = start + 4 ∧ M.FrameMade frame (Word.size * m'.localCount) d s t
  /-- When receiver and arguments have values, these are in the frame as the body
      starts. -/
  handed : ∀ M : Machine, M.lines = lines → M.WellPlaced →
    ∀ printed b ρ σ d s self values σ', M.Running p.known printed V m b ρ σ d s →
    M.CodeAt s.line code → e.Hands (Routine.calls p.routines) V ρ σ self values σ' →
    M.HasSlot (d + (e.room + Routine.room p.routines + 1)) →
    M.heap.low + p.known.roomOf σ'.roots ≤ M.heap.high →
    ∃ start t, M.find (methodLabel owner m'.name) = some start ∧ M.CodeAt start block ∧
      M.Runs s t ∧ t.line = start + 4 ∧ t.regs .ebp = M.slot (d + operands.length + 2) ∧
      M.HandedOver p.known σ'.roots frame self values t
  /-- When the method returns, exactly these words leave the stack. -/
  back : ∀ M : Machine, M.lines = lines → M.WellPlaced →
    ∀ printed b ρ σ d s self values σ' v σ'', M.Running p.known printed V m b ρ σ d s →
    M.CodeAt s.line code → e.Hands (Routine.calls p.routines) V ρ σ self values σ' →
    Routine.calls p.routines owner m'.name self values σ' = .ok (v, σ'') →
    M.HasSlot (d + (e.room + Routine.room p.routines + 1)) →
    M.heap.low + p.known.roomOf σ''.roots ≤ M.heap.high →
    ∃ t u, M.Runs s t ∧ t.line = s.line + operands.flatten.length + 1 ∧
      t.regs .esp = M.slot (d + operands.length) ∧ M.step t = some u ∧
      u.regs .esp = M.slot d ∧ M.Shows p.known σ''.roots v (u.regs .eax) ∧
      ∀ k, 1 ≤ k → k ≤ d → u.memory (M.slot k) = s.memory (M.slot k)

namespace Machine

variable {M : Machine} {known : Known} {roots : List String} {m : Method} {room : Int} {d : Nat}
  {s t : State} {self : Ref} {values : List Value}

/-- What is given on top of the stack is handed over in the frame. -/
theorem FrameMade.handedOver (h : M.FrameMade m.frame room d s t) (hesp : s.regs .esp = M.slot d)
    (hgiven : M.Given known roots self values d s) (hn : values.length = m.params.length) :
    M.HandedOver known roots m.frame self values t := by
  have hdeep := hgiven.deep
  have hcount : m.frame.params.length = m.params.length := by simp [Method.frame]
  refine ⟨hn.trans hcount.symm, ?_, ?_⟩
  · have hslot : M.slot d + BitVec.ofInt 32 (Word.size * m.frame.params.length) =
        M.slot (d - values.length) := slot_add (by omega)
    rw [h.receiver, hesp, hslot, h.kept _ (by omega) (by omega)]
    exact hgiven.self
  · intro i v slot hv hslot
    have hlt := (List.getElem?_eq_some_iff.mp hv).1
    have hword : M.slot d + BitVec.ofInt 32 (Word.size * i) = M.slot (d - i) :=
      slot_add (by omega)
    rw [h.params i slot hslot, hesp, hword, h.kept _ (by omega) (by omega)]
    exact hgiven.args i v hv

end Machine

namespace Program

section

variable {p : Program} {lines : List Line} {older : List ClassDecl} {c : ClassDecl}
  {before : List Method} {m m' : Method} {V : View} {e : Expr} {cls owner : String}
  {args : List Expr} {ty : Ty} {params : List Ty} {site site' : Site} {n n' : Nat}
  {operands : List (List Line)} {code body block : List Line}

/-- A call whose method the rules find agrees with the block of this method. -/
theorem Elaborated.framesAgree (h : p.Elaborated)
    (hloaded : ∀ M : Machine, M.lines = lines → M.WellPlaced → p.LoadedOn M)
    (hfew : e.FewArgs) (hat : p.At older c before m) (hserves : site.Serves (c.viewAt older before m) m)
    (he : e.Elaborated (c.viewAt older before m) ty)
    (hcall : e.CallsOn (c.viewAt older before m) cls m'.name args)
    (hres : (c.viewAt older before m).known.resolve cls m'.name =
      some (owner, .func ty (m'.params.map (Ty.ofName ·.ty))))
    (hfit : Expr.Fit Note.Records (c.viewAt older before m) args
      (m'.params.map (Ty.ofName ·.ty)))
    (hlower : e.lower site n = .ok (code, n'))
    (hoperands : Chain (Expr.OperandCode site) e.operands n operands n')
    (hcode : code = operands.flatten ++ instrs [.call (methodLabel owner m'.name),
      .arith .add (.imm (4 * operands.length)) (.reg .esp), .push (.reg .eax)])
    (hfits : m'.FrameFits) (hbody : Raises body m'.localCount m'.localCount (m'.localCount + 1))
    (hblock : block = [.label (.named (methodLabel owner m'.name))] ++ prologue
      ++ instrs [.arith .sub (.imm (4 * m'.localCount)) (.reg .esp)]
      ++ body ++ instrs [.pop .eax] ++ epilogue)
    (hin : block <:+: lines) (hneed : 1 ≤ Routine.room p.routines) :
    FramesAgree p lines (c.viewAt older before m) m e operands code owner m' m'.frame body
      block := by
  have hparams : m'.frame.params.length = m'.params.length := by simp [Method.frame]
  have hargs : m'.params.length = args.length := by
    rw [hfit.length_eq, List.length_map]
  have hcount : operands.length = m'.params.length + 1 := by
    rw [hoperands.length_eq, hcall.length_operands, hargs]
  have hapart := Method.frame_apart hfits
  -- the head of the block makes the frame
  have hmade : ∀ (M : Machine) start d s, M.WellPlaced →
      M.find (methodLabel owner m'.name) = some start → M.CodeAt start block →
      M.lines[s.line]? = some (.instr (.call (methodLabel owner m'.name))) →
      s.regs .esp = M.slot d → M.HasSlot (d + 2) →
      ∃ t, M.Runs s t ∧ t.line = start + 4 ∧ M.FrameMade m'.frame (4 * m'.localCount) d s t := by
    intro M start d s hM hfind hblockAt hline hesp hd
    rw [hblock] at hblockAt
    exact Machine.frame_made hM hline (Machine.methodLabel_ne_printf _ _) hfind
      hblockAt.left.left.left hesp hd
  have hfound : ∀ M : Machine, M.lines = lines → M.WellPlaced →
      ∃ start, M.find (methodLabel owner m'.name) = some start ∧ M.CodeAt start block := by
    intro M hlines hM
    have hdist := (hloaded M hlines hM).distinct
    rw [← hlines, hblock] at hin
    rw [hblock]
    exact Listing.find_of_infix (l := .named (methodLabel owner m'.name)) hdist hin
  refine ⟨hcode, by rw [hcount, hparams], Expr.operands_stack hfew hoperands hlower hcode, hblock,
    hapart, ?_, hmade, ?_, ?_⟩
  · -- the body never goes above the locals, and no word of the frame is below them
    intro i x hx o ho
    have hdeep := (hbody.way hx).1
    have hlow := hapart.low o ho
    simp only [Method.localCount] at hdeep
    simp only [Word.size]
    omega
  · intro M hlines hM printed b ρ σ d s self values σ' R hcodeAt hands hd hheap
    have S := h.stage (hloaded M hlines hM) printed hat hserves
    rw [hcode] at hcodeAt
    obtain ⟨_, _, hvalues⟩ := S.hands_typed hcall he hres hfit R.env R.store hands
    obtain ⟨t₁, hkeeps, hline, hesp, hgiven, _⟩ := S.handed hcall he hfit hlower hcode rfl R
      hcodeAt.left hands hd hheap
    have hlength : values.length = m'.params.length := by
      rw [hvalues.length_eq, List.length_map]
    have hwords : values.length + 1 = operands.length := by omega
    have hroom := hcall.length_lt_room
    obtain ⟨start, hfind, hblockAt⟩ := hfound M hlines hM
    have hcallAt := hcodeAt.right
    rw [← hline] at hcallAt
    obtain ⟨t, hruns, htline, hframe⟩ := hmade M start _ t₁ hM hfind hblockAt hcallAt.head hesp
      (hd.of_le (by omega) (by omega))
    refine ⟨start, t, hfind, hblockAt, hkeeps.runs.trans hruns, htline, ?_,
      hframe.handedOver hesp hgiven hlength⟩
    rw [hframe.pointer, hwords]
  · intro M hlines hM printed b ρ σ d s self values σ' v σ'' R hcodeAt hands hcalls hd hheap
    have S := h.stage (hloaded M hlines hM) printed hat hserves
    have hroom := hcall.length_lt_room
    rw [hcode] at hcodeAt
    obtain ⟨hσ, hself, hvalues⟩ := S.hands_typed hcall he hres hfit R.env R.store hands
    -- what fits after the call fitted before it
    have hgrows := ((S.sound _ _ _ _ _ hres σ' self values hσ hself hvalues).of_ok hcalls).1
    obtain ⟨t₁, hkeeps, hline, hesp, hgiven, hm⟩ := S.handed hcall he hfit hlower hcode rfl R
      hcodeAt.left hands hd (Machine.fits_of_grows hgrows hheap)
    have hlength : values.length = m'.params.length := by
      rw [hvalues.length_eq, List.length_map]
    have hwords : values.length + 1 = operands.length := by omega
    have hcallAt := hcodeAt.right
    rw [← hline] at hcallAt
    obtain ⟨t, u, hruns, htline, htesp, hstep, _, huesp, _, hv, _, hkept⟩ := S.call_returns hres
      (by omega) (hcallAt.slice 0 2) hσ hself hvalues hm hesp hgiven hcalls
      (hd.of_le (by omega) (by omega)) hheap
    refine ⟨t, u, hkeeps.runs.trans hruns, by rw [htline, hline], by rw [htesp, hwords], hstep, huesp,
      hv, ?_⟩
    intro k h1 hk
    rw [hkept k h1 hk, hkeeps.kept k h1 hk]

end

/-- In the text of an accepted program of representable size every call agrees
    with the method that it runs on the frame of that method. -/
theorem frames_agree {source : String} {a : Analysis} (h : analyze source = .ok a)
    (hr : a.program.Representable) :
    ∃ text lines, compile source = .ok text ∧ Line.readAll text = some lines ∧
      ∀ older c before m, a.program.At older c before m → ∀ e, m.Uses e → ∀ cls method args,
        e.CallsOn (c.viewAt older before m) cls method args →
        ∃ older' c' before' m' site block site' block' n operands code n' body,
          a.program.At older' c' before' m' ∧ e.callee? = some c'.name ∧ m'.name = method ∧
          m'.params.length = args.length ∧
          Generator.BlockIn a.tables.classes a.program lines older c before m site block ∧
          Generator.BlockIn a.tables.classes a.program lines older' c' before' m' site' block' ∧
          e.lower site n = .ok (code, n') ∧ code <:+: block ∧
          Chain (Expr.OperandCode site) e.operands n operands n' ∧
          FramesAgree a.program lines (c.viewAt older before m) m e operands code c'.name m'
            site'.frame body block' := by
  obtain ⟨he, hclasses⟩ := elaborated_of_analyze h
  obtain ⟨t, g, hgen, ht, hsize, hc⟩ := he.exists_coded hr hclasses
  have htext : Generator.text a.tables.classes a.program {} = .ok (Line.renderAll t.lines) g :=
    estate_bind_ok_iff.mpr ⟨_, g, hgen, rfl⟩
  have hloaded : ∀ M : Machine, M.lines = t.lines → M.WellPlaced → a.program.LoadedOn M := by
    intro M hlines hM
    refine .of_lines hM ?_ hlines hsize hc
    rw [Machine.Distinct, hlines]
    exact ht.nodup_labels hr.labels
  refine ⟨_, t.lines, compile_of_text h htext, readAll_of_analyze h ht, ?_⟩
  intro older c before m hat e hu cls method args hcall
  have hfew : ∀ {older c before m}, a.program.At older c before m → m.FewArgs :=
    fun hat => he.fewArgs hr hat
  have hblock : ∀ {older c before m}, a.program.At older c before m → ∃ site block,
      Generator.BlockIn a.tables.classes a.program t.lines older c before m site block ∧
      site.Serves (c.viewAt older before m) m := by
    intro older c before m hat
    obtain ⟨site, n, block, n', hsite, hlower, hin⟩ := Generator.exists_block hgen hat
    obtain ⟨site', hsite', hserves⟩ := Generator.exists_siteAt he hr hclasses hat
    cases hsite.unique hsite'
    exact ⟨site, block, ⟨hsite, ⟨n, n', hlower⟩, hin⟩, hserves⟩
  -- the method that is called
  obtain ⟨ty, hty⟩ := he.exists_type hat hu
  obtain ⟨owner, params, hres, hfit, hcallee, hruns⟩ := hcall.exists_resolved hty
  obtain ⟨r, hr', hans⟩ := he.exists_called hat hres
  obtain ⟨older', c', before', m', hat', rfl⟩ := exists_at_of_mem_routines hr'
  obtain ⟨rfl, rfl, _, hparams⟩ := hans.parts
  have hcount : m'.params.length = args.length := by
    rw [hfit.length_eq, ← hparams, List.length_map]
  -- both blocks
  obtain ⟨site, block, hin, hserves⟩ := hblock hat
  obtain ⟨site', block', hin', hserves'⟩ := hblock hat'
  obtain ⟨k, k', hlower⟩ := hin.lowered
  obtain ⟨n, code, n', hpart, hinfix⟩ := Method.lowered_of_uses hu hlower
  obtain ⟨operands, hoperands, hcode⟩ := Expr.lower_call hruns (hfew hat e hu) hpart
  obtain ⟨j, j', hlower'⟩ := hin'.lowered
  obtain ⟨stmts, value, i, hstmts, hvalue, hblock'⟩ := Method.lower_ok hserves' hlower'
  refine ⟨older', c', before', m', site, block, site', block', n, operands, code, n',
    stmts ++ value, hat', hcallee, rfl, hcount, hin, hin', hpart, hinfix, hoperands, ?_⟩
  have hstmtsUp : Raises stmts m'.localCount m'.localCount m'.localCount :=
    Stmt.levelAll _ (hfew hat').body hstmts
  have hbody : Raises (stmts ++ value) m'.localCount m'.localCount (m'.localCount + 1) :=
    hstmtsUp.append (m'.value.raises (hfew hat').value hvalue) (Stmt.labelledAll _ hstmts)
      (m'.value.labelled hvalue)
  -- the rules and the method that they found agree on the parameters
  subst hparams
  rw [hserves'.frame]
  exact he.framesAgree hloaded ((hfew hat).of_uses hu) hat hserves hty hcall hres hfit hpart
    hoperands hcode hserves'.frameFits hbody
    (by rw [hblock', List.append_assoc _ stmts value]; rfl) hin'.placed (Routine.one_le_room hr')

end Program

/-! ## A call -/

/-- Does the statement do no more than print the value of a call, if its test
    holds? -/
def Stmt.printsCall : Stmt → Bool
  | .cond _ _ [.print _ (.methodCall ..)] => true
  | _ => false

theorem Stmt.exists_call_of_printsCall {s : Stmt} (h : s.printsCall = true) :
    ∃ n receiver method args, s.Uses (.methodCall n receiver method args) := by
  unfold printsCall at h
  split at h
  · next n receiver method args => exact ⟨n, receiver, method, args, .body List.mem_cons_self (.print .self)⟩
  · cases h

namespace Program

set_option maxRecDepth 4096 in
/-- A method of the sample calls another. -/
theorem sample_calls :
    ∃ a older c before m e cls method args, analyze sample = .ok a ∧ a.program.Representable ∧
      a.program.At older c before m ∧ m.Uses e ∧
      e.CallsOn (c.viewAt older before m) cls method args := by
  have h : (match analyze sample with
      | .ok a => decide a.program.Representable &&
          a.program.classes.any fun c => c.methods.any fun m => m.body.any Stmt.printsCall
      | .error _ => false) = true := by cbv
  split at h
  · next a ha =>
    simp only [Bool.and_eq_true, List.any_eq_true, decide_eq_true_eq] at h
    obtain ⟨hr, c, hc, m, hm, s, hs, hcalls⟩ := h
    obtain ⟨older, newer, hclasses⟩ := List.append_of_mem hc
    obtain ⟨before, after, hmethods⟩ := List.append_of_mem hm
    have hat : a.program.At older c before m := ⟨⟨newer, hclasses⟩, after, hmethods⟩
    obtain ⟨n, receiver, method, args, huses⟩ := Stmt.exists_call_of_printsCall hcalls
    have hu : m.Uses (.methodCall n receiver method args) := Or.inl ⟨s, hs, huses⟩
    -- the rules give its receiver a class
    obtain ⟨ty, hty⟩ := (elaborated_of_analyze ha).1.exists_type hat hu
    cases hty with
    | methodCall hreceiver _ _ _ =>
      exact ⟨a, older, c, before, m, _, _, _, _, ha, hr, hat, hu, .method hreceiver.hasType⟩
  · cases h

theorem frames_agree_sample :
    ∃ a text lines older c before m e cls method args, analyze sample = .ok a ∧
      a.program.Representable ∧ compile sample = .ok text ∧ Line.readAll text = some lines ∧
      a.program.At older c before m ∧ m.Uses e ∧
      e.CallsOn (c.viewAt older before m) cls method args ∧
      ∃ older' c' before' m' site block site' block' n operands code n' body,
        a.program.At older' c' before' m' ∧ e.callee? = some c'.name ∧ m'.name = method ∧
        m'.params.length = args.length ∧
        Generator.BlockIn a.tables.classes a.program lines older c before m site block ∧
        Generator.BlockIn a.tables.classes a.program lines older' c' before' m' site' block' ∧
        e.lower site n = .ok (code, n') ∧ code <:+: block ∧
        Chain (Expr.OperandCode site) e.operands n operands n' ∧
        FramesAgree a.program lines (c.viewAt older before m) m e operands code c'.name m'
          site'.frame body block' := by
  obtain ⟨a, older, c, before, m, e, cls, method, args, ha, hr, hat, hu, hcall⟩ := sample_calls
  obtain ⟨text, lines, hcompile, hread, hagree⟩ := frames_agree ha hr
  exact ⟨a, text, lines, older, c, before, m, e, cls, method, args, ha, hr, hcompile, hread, hat, hu,
    hcall, hagree older c before m hat e hu cls method args hcall⟩

end Program

end ClassLang
