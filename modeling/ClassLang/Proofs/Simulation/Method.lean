import ClassLang.Proofs.Simulation.Stmt

/-! # Methods on the machine

    The routine of a method does what a call of the method means.

    * **`Method.lower_ok`**: the parts of the code of a method.
    * **`Method.hasFrame`**: on entry the frame stands for receiver, arguments
      and locals without values.
    * **`Stage.routine_answers`**: the routine takes receiver and arguments from the
      stack of its caller, and returns with the value in `eax`. -/

namespace ClassLang

namespace Method

variable {m : Method} {site : Site} {V : View} {n n' : Nat} {code : List Line}

/-- How much of the stack the code of a method takes behind the return address,
    apart from what its calls take. -/
def room (m : Method) : Nat := m.localCount + max (Stmt.roomAll m.body) m.value.room + 2

/-- The code of a method between its label and its end. -/
theorem lower_ok (hs : site.Serves V m) (h : m.lower site n = .ok (code, n')) :
    ∃ body value k, Stmt.lowerAll site m.body n = .ok (body, k) ∧
      m.value.lower site k = .ok (value, n') ∧
      code = [.label (.named (methodLabel V.cls m.name))] ++ prologue
        ++ instrs [.arith .sub (.imm (4 * m.localCount)) (.reg .esp)]
        ++ body ++ value ++ instrs [.pop .eax] ++ epilogue := by
  obtain ⟨size, k₀, hlift, hrest⟩ := state_bind_ok_iff.mp h
  obtain ⟨body, k, hbody, hrest⟩ := state_bind_ok_iff.mp hrest
  obtain ⟨value, k', hvalue, hpure⟩ := state_bind_ok_iff.mp hrest
  obtain ⟨hsize, rfl⟩ := state_lift_ok_iff.mp hlift
  cases hpure
  rw [hs.frame, localsSize_frame hs.frameFits] at hsize
  cases hsize
  rw [hs.cls]
  exact ⟨body, value, k, hbody, hvalue, rfl⟩

/-- Only parameters have values on entry: their arguments. -/
theorem getElem?_args (hd : (m.variables.map (·.1)).Nodup) {self : Ref} {args : List Value}
    {k : Nat} {x : String} {ty : Ty} {v : Value} (hk : m.variables[k]? = some (x, ty))
    (hv : (m.env self args).vars x = some v) : k < m.params.length ∧ args[k]? = some v := by
  have hv : ((m.params.map (·.name)).zip args).lookup x = some v := hv
  obtain ⟨j, hj⟩ := List.mem_iff_getElem?.mp (mem_of_lookup hv)
  rw [List.getElem?_zip_eq_some] at hj
  obtain ⟨hname, harg⟩ := hj
  have hlt : j < m.params.length := by
    have := (List.getElem?_eq_some_iff.mp hname).1
    simpa using this
  have hj' : (m.variables.map (·.1))[j]? = some x := by
    simp only [Method.variables, Param.variables, List.map_append, List.map_map]
    rw [List.getElem?_append_left (by simpa using hlt)]
    exact hname
  have hk' : (m.variables.map (·.1))[k]? = some x := by
    rw [List.getElem?_map, hk]
    rfl
  -- the names are distinct, so this is the same variable
  have hlen := (List.getElem?_eq_some_iff.mp hj').1
  have heq := (List.getElem?_inj hlen hd).mp (hj'.trans hk'.symm)
  subst heq
  exact ⟨hlt, harg⟩

end Method

namespace Machine

variable {M : Machine} {known : Known} {before : List Int} {site : Site} {V : View} {m : Method}
  {calls : Calls} {need d n n' start ret : Nat} {σ σ' : Store} {s s' : State} {self : Ref}
  {args : List Value} {v : Value} {code : List Line} {roots : List String}

/-- On entry the frame stands for what the method starts with. -/
theorem Given.hasFrame (h : M.Given known roots self args d s)
    (hn : args.length = m.params.length) (hd : (m.variables.map (·.1)).Nodup)
    (hebp : s.regs .ebp = M.slot (d + 2)) :
    M.HasFrame known roots m (d + 2) (m.env self args) s where
  ebp := hebp
  deep := by
    have hdeep := h.deep
    omega
  self := by
    have hslot : m.selfSlot (d + 2) = d - args.length := by
      unfold Method.selfSlot
      omega
    rw [hslot]
    exact h.self
  vars := by
    intro k x ty v hk hv
    obtain ⟨hlt, harg⟩ := Method.getElem?_args hd hk hv
    have hslot : m.slotOf (d + 2) k = d - k := by
      rw [Method.slotOf, if_pos hlt]
      omega
    rw [hslot]
    exact h.args k v harg

/-- The lines between the label of a method and its body make the frame. -/
theorem Stage.begin (S : M.Stage known before site V m calls need)
    (hat : M.CodeAt s.line ([.label (.named (methodLabel V.cls m.name))] ++ prologue
      ++ instrs [.arith .sub (.imm (4 * m.localCount)) (.reg .esp)]))
    (hesp : s.regs .esp = M.slot (d + 1)) (hd : M.HasSlot (d + 2))
    (hn : args.length = m.params.length)
    (hgiven : M.Given known σ.roots self args d s) (hm : M.Mirrors known before σ s)
    (hσ : σ.Typed known) (hself : (Value.object self).Of known σ.roots (.object V.cls))
    (hargs : List.Forall₂ (Value.Of known σ.roots) args (m.params.map (Ty.ofName ·.ty))) :
    ∃ t, M.Runs s t ∧ t.line = s.line + 4 ∧
      M.Running known before V m (d + 2) (m.env self args) σ (d + 2 + m.localCount) t ∧
      t.memory (M.slot (d + 2)) = s.regs .ebp ∧
      ∀ k, 1 ≤ k → k ≤ d + 1 → t.memory (M.slot k) = s.memory (M.slot k) := by
  obtain ⟨u, hruns, huline, huebp, huesp, huout, humem⟩ := enter S.placed hat.left hesp hd
  have hreserve := effect_reserve m.localCount huesp
  have hline : M.lines[u.line]? =
      some (.instr (.arith .sub (.imm (4 * m.localCount)) (.reg .esp))) := by
    rw [huline]
    exact hat.right.head
  have hstep := step_of_effect hline hreserve
  let t := (u.setReg .esp (M.slot (d + 2 + m.localCount))).forget.next
  have hother : ∀ a, a ≠ M.slot (d + 2) → t.memory a = s.memory a := by
    intro a ha
    show u.memory a = _
    rw [humem, State.setWord_memory, if_neg ha]
  have hkept : ∀ k, 1 ≤ k → k ≤ d + 1 → t.memory (M.slot k) = s.memory (M.slot k) := by
    intro k hone hk
    refine hother _ fun heq => ?_
    have := (slot_inj S.placed (hd.of_le hone (by omega)) hd).mp heq
    omega
  have hdistinct : (m.variables.map (·.1)).Nodup := S.serves.vars ▸ S.serves.distinct
  have hgiven' : M.Given known σ.roots self args d t :=
    hgiven.of_kept fun k hone hk => hkept k hone (by omega)
  refine ⟨t, hruns.trans (Runs.single hstep), ?_, ⟨?_, hσ, ?_, ?_, ?_, Nat.le_refl _⟩, ?_, hkept⟩
  · simp [t, huline]
  · exact Method.env_typed S.serves.vars hself hargs
  · exact hm.of_same S.regular (.of_slot S.placed hd hother huout)
  · exact hgiven'.hasFrame hn hdistinct (by simpa [t] using huebp)
  · simp [t]
  · show u.memory _ = _
    rw [humem, State.setWord_memory, if_pos rfl]

/-- The lines behind the value of a method leave the frame and return. -/
theorem Stage.finish (S : M.Stage known before site V m calls need) {w p : BitVec 32}
    (hat : M.CodeAt s.line (instrs [.pop .eax] ++ epilogue)) {top : Nat}
    (hesp : s.regs .esp = M.slot (top + 1)) (hd : M.HasSlot (top + 1))
    (hword : s.memory (M.slot (top + 1)) = w) (hebp : s.regs .ebp = M.slot (d + 2))
    (hle : d + 2 ≤ top) (hsaved : s.memory (M.slot (d + 2)) = p)
    (hret : s.memory (M.slot (d + 1)) = M.place ret) (hcode : M.isCode ret = true) :
    ∃ t, M.Runs s t ∧ t.line = ret ∧ t.regs .esp = M.slot d ∧ t.regs .ebp = p ∧
      t.regs .eax = w ∧ t.memory = s.memory ∧ t.output = s.output := by
  have hpop := effect_pop S.placed .eax hesp hd
  have hline : M.lines[s.line]? = some (.instr (.pop .eax)) := hat.head
  have hstep := step_of_effect hline hpop
  rw [hword] at hstep
  let u := ((s.setReg .esp (M.slot top)).setReg .eax w).next
  obtain ⟨t, hruns, htline, htesp, htebp, hteax, htmem, htout⟩ := leave (s := u) (d := d) (n := ret)
    (p := p) S.placed hat.right (by simpa [u] using hebp) hsaved hret hcode
    (hd.of_le (by omega) (by omega))
  refine ⟨t, (Runs.single hstep).trans hruns, htline, htesp, htebp, ?_, htmem, htout⟩
  rw [hteax]
  simp [u]

/-- The routine of a method does what running the method means. -/
theorem Stage.routine_answers (S : M.Stage known before site V m calls need) {cls : String}
    {seen : Known} (hV : V = m.view seen cls) (hm : m.Derives Note.Records seen cls)
    (hlower : m.lower site n = .ok (code, n')) (hat : M.CodeAt start code)
    (hfind : M.find (methodLabel cls m.name) = some start) {calls' : Calls}
    (hcalls : ∀ self args, calls' cls m.name self args = m.run calls V self args) :
    M.Answers known before calls' (m.room + need) cls m.name
      (m.params.map (Ty.ofName ·.ty)) := by
  subst hV
  obtain ⟨body, value, k, hbody, hvalue, rfl⟩ := Method.lower_ok S.serves hlower
  refine ⟨start, hfind, ?_⟩
  intro σ self args d s v σ' ret hσ hself hargs hmirrors hgiven hline hesp hret hcode hcall hd hheap
  subst hline
  have hn : args.length = m.params.length := by
    have := hargs.length_eq
    simpa using this
  have hdeep := hgiven.deep
  unfold Method.room at hd
  -- what the method means
  rw [hcalls] at hcall
  obtain ⟨ρ₁, σ₁, hexec, heval⟩ := state_bind_ok_iff.mp hcall
  have henv := Method.env_typed (V := m.view seen cls) rfl hself hargs
  have hg := (Stmt.execAll_safe_of_forall (fun s hs => Stmt.exec_safe S.regular S.within S.sound
    (hm.body s hs)) henv hσ).of_ok hexec
  obtain ⟨ty, htyped, _⟩ := hm.value
  have hg' := (Expr.eval_safe S.regular S.within S.sound htyped hg.2 hg.1.typed).of_ok heval
  -- frame, body and value
  obtain ⟨s₀, hruns₀, hline₀, R₀, hsaved₀, hkept₀⟩ := S.begin hat.left.left.left.left hesp
    (hd.of_le (by omega) (by omega)) hn hgiven hmirrors hσ hself hargs
  have hexecutes := Stmt.executesAll_of_forall S hm.body
    (fun s hs => Stmt.executes S (hm.body s hs)) hbody
  obtain ⟨s₁, h₁, R₁⟩ := hexecutes _ _ _ _ s₀ _ _ R₀ (hline₀ ▸ hat.left.left.left.right) hexec
    (hd.of_le (by omega) (by omega)) (fits_of_grows hg'.1 hheap)
  have hline₁ : s₁.line = s.line + (4 + body.length) := by
    rw [h₁.line, hline₀, Nat.add_assoc]
  have hlength : ([.label (.named (methodLabel cls m.name))] ++ prologue
      ++ instrs [.arith .sub (.imm (4 * m.localCount)) (.reg .esp)] : List Line).length = 4 := rfl
  obtain ⟨s₂, h₂⟩ := Expr.evaluates S htyped hvalue _ _ _ _ s₁ _ _ R₁ (by
    have hcode := hat.left.left.right
    rw [List.length_append] at hcode
    rw [hline₁]
    exact hcode) heval (hd.of_le (by omega) (by omega)) hheap
  have hline₂ : s₂.line = s.line + (4 + body.length + value.length) := by
    rw [h₂.line, hline₁, Nat.add_assoc]
  have hspared : ∀ k, m.Spares (d + 2) k → s₂.memory (M.slot k) = s₀.memory (M.slot k) := by
    intro k hk
    exact ((h₁.trans (h₂.went (by omega))).kept k hk)
  -- back to the caller
  have hebp₂ : s₂.regs .ebp = M.slot (d + 2) := h₂.ebp.trans R₁.frame.ebp
  obtain ⟨s₃, hruns₃, hline₃, hesp₃, hebp₃, heax₃, hmem₃, hout₃⟩ := S.finish (d := d)
    (p := s.regs .ebp) (s := s₂) (w := s₂.memory (M.slot (d + 2 + m.localCount + 1)))
    (by
      have hcode := hat
      rw [List.append_assoc] at hcode
      have hend := hcode.right
      rw [List.length_append, List.length_append] at hend
      rw [hline₂]
      exact hend)
    h₂.esp (hd.of_le (by omega) (by omega)) rfl hebp₂ (by omega)
    ((hspared _ ⟨by omega, Or.inr (Or.inr rfl)⟩).trans hsaved₀)
    ((hspared _ ⟨by omega, Or.inr (Or.inl rfl)⟩).trans ((hkept₀ _ (by omega) (by omega)).trans
      hret)) hcode
  refine ⟨s₃, ⟨?_, hebp₃, ?_⟩, hline₃, hesp₃, ?_, ?_⟩
  · exact hruns₀.trans (h₁.runs.trans (h₂.runs.trans hruns₃))
  · intro j hone hj
    have hspare : m.Spares (d + 2) j := by
      refine ⟨hone, Or.inl ?_⟩
      unfold Method.selfSlot
      omega
    rw [hmem₃, hspared j hspare]
    exact hkept₀ j hone (by omega)
  · rw [heax₃]
    exact h₂.shows
  · exact h₂.mirrors.of_same S.regular ⟨fun _ _ => by rw [hmem₃], by rw [hmem₃], hout₃⟩

end Machine

end ClassLang
