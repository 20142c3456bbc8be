import ClassLang.Proofs.Simulation.Routines
import ClassLang.Proofs.Simulation.Trap.Expr

/-! # Methods that break off

    Statements, methods and calls trap where they break off, as expressions do.

    * **`Stmt.fails`**: the code of every elaborated statement does so.
    * **`Stage.routine_fails`**: so does the routine of a method.
    * **`Routine.callFails`**: of linked methods each does, by induction in the
      order in which calls can reach them. -/

namespace ClassLang

namespace Machine

variable {M : Machine} {known : Known} {before : List Int} {site : Site} {V : View} {m : Method}
  {calls : Calls} {breaking : Breaking} {need line room : Nat} {code : List Line}

/-! ## Statements -/

/-- The value that is assigned breaks off. -/
theorem assign_fails {x : String} {value : Expr} {cs : List Line}
    (h : M.Fails known before V m code room (value.Breaks calls breaking V ·)) :
    M.Fails known before V m (code ++ cs) room
      (Stmt.Breaks calls breaking V (.assign line x value)) := by
  intro b ρ σ d s σ' R hat hbreaks hd hheap
  cases hbreaks with
  | assign hb => exact h.append b ρ σ d s σ' R hat hb hd hheap

/-- The value that is printed breaks off. -/
theorem print_fails {value : Expr} {cs : List Line}
    (h : M.Fails known before V m code room (value.Breaks calls breaking V ·)) :
    M.Fails known before V m (code ++ cs) room
      (Stmt.Breaks calls breaking V (.print line value)) := by
  intro b ρ σ d s σ' R hat hbreaks hd hheap
  cases hbreaks with
  | print hb => exact h.append b ρ σ d s σ' R hat hb hd hheap

/-- The test of a condition breaks off, or its body does when the test is
    true. -/
theorem Stage.cond_fails (S : M.Stage known before site V m calls need)
    (H : M.Hazards known before V breaking need) {test : Expr} {body : List Stmt}
    {ct cb : List Line} {rt rb : Nat} {finish : Label} (ht : test.Elaborated V .bool)
    (hbody : ∀ s ∈ body, s.Derives Note.Records V)
    (hct : M.Evaluates known before V m ct rt (test.eval calls V ·)) (hone : 1 ≤ rt)
    (hft : M.Fails known before V m ct rt (test.Breaks calls breaking V ·))
    (hfb : M.Fails known before V m cb rb (Stmt.BreaksAll calls breaking V body)) :
    M.Fails known before V m
      (ct ++ instrs [.pop .eax, .cmp (.imm 1) (.reg .eax), .jumpIf .notEqual finish]
        ++ cb ++ [.label finish])
      (max rt rb) (Stmt.Breaks calls breaking V (.cond line test body)) := by
  intro b ρ σ d s σ' R hat hbreaks hd hheap
  have hdeep := R.deep
  have hb := R.frame.deep
  cases hbreaks with
  | test hbt =>
    exact hft b ρ σ d s σ' R hat.left.left.left hbt (hd.of_le (by omega) (by omega)) hheap
  | @body _ _ _ _ _ σ₁ _ htest hbb =>
    have hg := (Expr.eval_safe S.regular S.within S.sound ht R.env R.store).of_ok htest
    have hroots := hbb.roots S.regular S.within S.sound H.adds hbody (R.env.mono hg.1.roots)
      hg.1.typed
    obtain ⟨s₁, t, h₁, hruns, hline, _, R₁⟩ := S.branched ht hct hone R hat htest
      (hd.of_le (by omega) (by omega)) (fits_of_roots hroots hheap)
    -- the test left 1, so the run goes on with the body
    have hword : s₁.memory (M.slot (d + 1)) = 1 := h₁.shows
    rw [if_pos hword] at hline
    have htraps := hfb b ρ σ₁ d t σ' R₁ (hat.body_of_cond hline) hbb
      (hd.of_le (by omega) (by omega)) hheap
    exact htraps.of_runs (h₁.runs.trans hruns)

/-- One statement breaks off, or the others do after it. -/
theorem Stage.stmts_fail_cons (S : M.Stage known before site V m calls need)
    (H : M.Hazards known before V breaking need) {stmt : Stmt} {rest : List Stmt}
    {cs cr : List Line} {rs rr : Nat} (hall : ∀ s ∈ stmt :: rest, s.Derives Note.Records V)
    (hcs : M.Executes known before V m cs rs (Stmt.exec calls V stmt))
    (hfs : M.Fails known before V m cs rs (Stmt.Breaks calls breaking V stmt))
    (hfr : M.Fails known before V m cr rr (Stmt.BreaksAll calls breaking V rest)) :
    M.Fails known before V m (cs ++ cr) (max rs rr)
      (Stmt.BreaksAll calls breaking V (stmt :: rest)) := by
  intro b ρ σ d s σ' R hat hbreaks hd hheap
  have hdeep := R.deep
  have hb := R.frame.deep
  cases hbreaks with
  | first hbs => exact hfs b ρ σ d s σ' R hat.left hbs (hd.of_le (by omega) (by omega)) hheap
  | @later _ _ _ ρ₁ _ σ₁ _ hexec hbr =>
    have hg := (Stmt.exec_safe S.regular S.within S.sound (hall stmt List.mem_cons_self) ρ σ R.env
      R.store).of_ok hexec
    -- what is made until then bounds the heap that the first statement needs
    have hroots := hbr.roots S.regular S.within S.sound H.adds
      (fun s hs => hall s (List.mem_cons_of_mem _ hs)) hg.2 hg.1.typed
    obtain ⟨s₁, h₁, R₁⟩ := hcs b ρ σ d s ρ₁ σ₁ R hat.left hexec (hd.of_le (by omega) (by omega))
      (fits_of_roots hroots hheap)
    have htraps := hfr b ρ₁ σ₁ d s₁ σ' R₁ (h₁.line ▸ hat.right) hbr
      (hd.of_le (by omega) (by omega)) hheap
    exact htraps.of_runs h₁.runs

end Machine

namespace Stmt

open Machine

variable {M : Machine} {known : Known} {before : List Int} {site : Site} {V : View} {m : Method}
  {calls : Calls} {breaking : Breaking} {need : Nat}

/-- The code of statements traps where they break off if the code of each of
    them does. -/
theorem failsAll_of_forall (S : M.Stage known before site V m calls need)
    (H : M.Hazards known before V breaking need) {body : List Stmt}
    (hbody : ∀ s ∈ body, s.Derives Note.Records V)
    (ih : ∀ s ∈ body, ∀ {n n' : Nat} {code : List Line}, s.lower site n = .ok (code, n') →
      M.Fails known before V m code (s.room + need + 1) (Breaks calls breaking V s))
    {n n' : Nat} {code : List Line} (h : lowerAll site body n = .ok (code, n')) :
    M.Fails known before V m code (roomAll body + need + 1) (BreaksAll calls breaking V body) := by
  induction body generalizing n code with
  | nil =>
    intro b ρ σ d s σ' _ _ hbreaks
    cases hbreaks
  | cons s rest ihrest =>
    obtain ⟨cs, n₁, hcs, h⟩ := state_bind_ok_iff.mp h
    obtain ⟨cr, n₂, hcr, h⟩ := state_bind_ok_iff.mp h
    cases h
    have hlater := ihrest (fun s hs => hbody s (List.mem_cons_of_mem _ hs))
      (fun s hs => ih s (List.mem_cons_of_mem _ hs)) hcr
    have hcons := S.stmts_fail_cons H hbody (executes S (hbody s List.mem_cons_self) hcs)
      (ih s List.mem_cons_self hcs) hlater
    apply hcons.mono
    rw [roomAll]
    omega

/-- The code of an elaborated statement traps where the statement breaks off. -/
theorem fails (S : M.Stage known before site V m calls need)
    (H : M.Hazards known before V breaking need) {s : Stmt} (h : s.Derives Note.Records V)
    {n n' : Nat} {code : List Line} (hcode : s.lower site n = .ok (code, n')) :
    M.Fails known before V m code (s.room + need + 1) (Breaks calls breaking V s) := by
  induction h generalizing n n' code with
  | assign hv _ _ _ =>
    obtain ⟨cv, n₁, hcv, hrest⟩ := state_bind_ok_iff.mp hcode
    obtain ⟨cs, n₂, _, hpure⟩ := state_bind_ok_iff.mp hrest
    cases hpure
    exact assign_fails (Expr.fails S H hv hcv)
  | cond ht hbody ih =>
    obtain ⟨finish, n₀, hfresh, hrest⟩ := state_bind_ok_iff.mp hcode
    obtain ⟨ct, n₁, hct, hrest⟩ := state_bind_ok_iff.mp hrest
    obtain ⟨cb, n₂, hcb, hpure⟩ := state_bind_ok_iff.mp hrest
    cases hpure
    have hall := failsAll_of_forall S H hbody (fun s hs => ih s hs) hcb
    refine (S.cond_fails H ht hbody (Expr.evaluates S ht hct) (Nat.le_add_left 1 _)
      (Expr.fails S H ht hct) hall).mono ?_
    rw [room]
    omega
  | print hv _ =>
    obtain ⟨cv, n₁, hcv, hpure⟩ := state_bind_ok_iff.mp hcode
    cases hpure
    refine (print_fails (Expr.fails S H hv hcv)).mono ?_
    rw [room]
    omega

end Stmt

namespace Machine

variable {M : Machine} {known : Known} {before : List Int} {site : Site} {V : View} {m : Method}
  {calls : Calls} {breaking breaking' : Breaking} {need n n' start : Nat} {code : List Line}
  {room room' : Nat} {owner method : String} {params : List Ty}

/-! ## Methods -/

/-- The routine of a method traps where running the method breaks off. -/
theorem Stage.routine_fails (S : M.Stage known before site V m calls need)
    (H : M.Hazards known before V breaking need) {cls : String} {seen : Known}
    (hV : V = m.view seen cls) (hm : m.Derives Note.Records seen cls)
    (hlower : m.lower site n = .ok (code, n')) (hat : M.CodeAt start code)
    (hfind : M.find (methodLabel cls m.name) = some start)
    (hbreaking : ∀ self args,
      breaking' cls m.name self args = m.Breaks calls breaking V self args) :
    M.CallFails known before breaking' (m.room + need) cls m.name
      (m.params.map (Ty.ofName ·.ty)) := by
  subst hV
  obtain ⟨body, value, k, hbody, hvalue, rfl⟩ := Method.lower_ok S.serves hlower
  refine ⟨start, hfind, ?_⟩
  intro σ self args d s σ' hσ hself hargs hmirrors hgiven hline hesp hbreaks hd hheap
  subst hline
  have hn : args.length = m.params.length := by
    have := hargs.length_eq
    simpa using this
  have hdeep := hgiven.deep
  unfold Method.room at hd
  -- the frame is made
  obtain ⟨s₀, hruns₀, hline₀, R₀, _, _⟩ := S.begin hat.left.left.left.left hesp
    (hd.of_le (by omega) (by omega)) hn hgiven hmirrors hσ hself hargs
  have hatb : M.CodeAt s₀.line body := hline₀ ▸ hat.left.left.left.right
  rw [hbreaking] at hbreaks
  cases hbreaks with
  | body hb =>
    have hfails := Stmt.failsAll_of_forall S H hm.body
      (fun s hs => Stmt.fails S H (hm.body s hs)) hbody
    have htraps := hfails _ _ _ _ s₀ _ R₀ hatb hb (hd.of_le (by omega) (by omega)) hheap
    exact htraps.of_runs hruns₀
  | @value ρ₁ σ₁ hexec hb =>
    obtain ⟨ty, htyped, _⟩ := hm.value
    have hg := (Stmt.execAll_safe_of_forall (fun s hs => Stmt.exec_safe S.regular S.within S.sound
      (hm.body s hs)) R₀.env R₀.store).of_ok hexec
    have hroots := hb.roots S.regular S.within S.sound H.adds htyped hg.2 hg.1.typed
    have hexecutes := Stmt.executesAll_of_forall S hm.body
      (fun s hs => Stmt.executes S (hm.body s hs)) hbody
    obtain ⟨s₁, h₁, R₁⟩ := hexecutes _ _ _ _ s₀ _ _ R₀ hatb hexec
      (hd.of_le (by omega) (by omega)) (fits_of_roots hroots hheap)
    -- the code of the value follows
    have hline₁ : s₁.line = s.line + (4 + body.length) := by
      rw [h₁.line, hline₀, Nat.add_assoc]
    have hatv : M.CodeAt s₁.line value := by
      have hcode := hat.left.left.right
      rw [List.length_append] at hcode
      rw [hline₁]
      exact hcode
    have htraps := Expr.fails S H htyped hvalue _ _ _ _ s₁ _ R₁ hatv hb
      (hd.of_le (by omega) (by omega)) hheap
    exact htraps.of_runs (hruns₀.trans h₁.runs)

/-! ## Calls -/

theorem CallFails.mono (h : M.CallFails known before breaking room owner method params)
    (hle : room ≤ room') : M.CallFails known before breaking room' owner method params := by
  obtain ⟨start, hfind, hfails⟩ := h
  refine ⟨start, hfind, ?_⟩
  intro σ self args d s σ' hσ hself hargs hm hgiven hline hesp hbreaks hd hheap
  exact hfails σ self args d s σ' hσ hself hargs hm hgiven hline hesp hbreaks
    (hd.of_le (by omega) (by omega)) hheap

theorem CallFails.congr (h : M.CallFails known before breaking room owner method params)
    (hbreaking : ∀ self args, breaking' owner method self args = breaking owner method self args) :
    M.CallFails known before breaking' room owner method params := by
  obtain ⟨start, hfind, hfails⟩ := h
  refine ⟨start, hfind, ?_⟩
  intro σ self args d s σ' hσ hself hargs hm hgiven hline hesp hbreaks
  rw [hbreaking] at hbreaks
  exact hfails σ self args d s σ' hσ hself hargs hm hgiven hline hesp hbreaks

end Machine

namespace Routine

variable {M : Machine} {known : Known} {before : List Int}

/-- Of linked methods each traps where it breaks off: what it calls is older, and
    does so by induction. -/
theorem callFails (hM : M.WellPlaced) (hdist : M.Distinct) (hk : known.Regular)
    (hprint : ∃ i, M.find printRoutine = some i ∧ M.CodeAt i Machine.printCode)
    (hformat : M.text? printFormat = some "%d\\n") {rs : List Routine} (hl : Linked rs)
    (ht : ∀ r ∈ rs, r.Typed Note.Records known) (hs : ∀ r ∈ rs, r.Sized known)
    (hload : ∀ r ∈ rs, r.Loaded M) : ∀ r ∈ rs,
    M.CallFails known before (breaks rs) (room rs) r.view.cls r.method.name
      (r.method.params.map (Ty.ofName ·.ty)) := by
  induction rs with
  | nil => simp
  | cons r earlier ih =>
    have htyped : ∀ r ∈ earlier, r.Typed Note.Records known :=
      fun r' hr' => ht r' (List.mem_cons_of_mem _ hr')
    have hsized : ∀ r ∈ earlier, r.Sized known := fun r' hr' => hs r' (List.mem_cons_of_mem _ hr')
    have hloaded : ∀ r ∈ earlier, r.Loaded M :=
      fun r' hr' => hload r' (List.mem_cons_of_mem _ hr')
    have ih := ih hl.2.2 htyped hsized hloaded
    intro r' hr'
    rcases List.mem_cons.mp hr' with rfl | hr'
    · obtain ⟨n, code, n', start, ⟨site, hserves, hlower⟩, hfind, hat⟩ :=
        hload r' List.mem_cons_self
      have hr := ht r' List.mem_cons_self
      -- the earlier methods answer calls that have results, and trap on those that have none
      have S : M.Stage known before site r'.view r'.method (calls earlier) (room earlier) :=
        stage hM hdist hk hprint hformat hl ht (hs r' List.mem_cons_self) hserves
          (answers hM hdist hk hprint hformat hl.2.2 htyped hsized hloaded)
      have H : M.Hazards known before r'.view (breaks earlier) (room earlier) := {
        adds := by
          intro cls method owner result params hres
          obtain ⟨r'', hmem, rfl, rfl, rfl, rfl⟩ := hl.called hres
          exact breaks_roots hk hl.2.2 htyped r'' hmem
        fails := by
          intro cls method owner result params hres
          obtain ⟨r'', hmem, rfl, rfl, rfl, rfl⟩ := hl.called hres
          exact ih r'' hmem }
      rw [room_cons]
      exact S.routine_fails H hr.view hr.derives hlower hat hfind fun self args =>
        breaks_self r' earlier self args
    · have holder := (ih r' hr').mono (room_le_cons r earlier)
      exact holder.congr fun self args => breaks_of_ne earlier (hl.2.1 r' hr') self args

end Routine

end ClassLang
