import ClassLang.Proofs.Simulation.Assign
import ClassLang.Proofs.Simulation.Expr

/-! # Statements on the machine

    The code of a statement does on the machine what the statement does to
    variables, objects and output.

    * **`Stmt.room`**: how much of the stack the code of a statement takes, apart
      from what its calls take.
    * **`Machine.Executes`**: code goes from one state between statements to the
      next one.
    * **`Stmt.executes`**: the code of every elaborated statement does so. -/

namespace ClassLang

namespace Stmt

mutual

/-- How many words the code puts on the stack at most. -/
def room : Stmt → Nat
  | assign _ _ value => value.room
  | cond _ test body => max test.room (roomAll body)
  | print _ value => max value.room 5

/-- How many words the code of statements puts on the stack at most. -/
def roomAll : List Stmt → Nat
  | [] => 0
  | s :: rest => max s.room (roomAll rest)

end

end Stmt

namespace Machine

variable {M : Machine} {known : Known} {before : List Int} {site : Site} {V : View} {m : Method}
  {calls : Calls} {need b d n : Nat} {ρ ρ' : Env} {σ σ' : Store} {s s' t : State}
  {v : Value} {w : BitVec 32} {code : List Line} {room room' : Nat} {exec : Env → Eval Env}

/-- The code does what statements mean, and it needs this much room on the
    stack. -/
def Executes (M : Machine) (known : Known) (before : List Int) (V : View) (m : Method)
    (code : List Line) (room : Nat) (exec : Env → Eval Env) : Prop :=
  ∀ b ρ σ d s ρ' σ', M.Running known before V m b ρ σ d s → M.CodeAt s.line code →
    exec ρ σ = .ok (ρ', σ') → M.HasSlot (d + room) →
    M.heap.low + known.roomOf σ'.roots ≤ M.heap.high →
    ∃ s', M.Went m b code.length s s' ∧ M.Running known before V m b ρ' σ' d s'

theorem Executes.mono (h : M.Executes known before V m code room exec) (hle : room ≤ room') :
    M.Executes known before V m code room' exec := by
  intro b ρ σ d s ρ' σ' R hat hexec hd hheap
  have hdeep := R.deep
  have hb := R.frame.deep
  exact h b ρ σ d s ρ' σ' R hat hexec (hd.of_le (by omega) (by omega)) hheap

/-- The topmost word leaves the stack, and nothing else changes. -/
theorem Running.drop (hk : known.Regular) (R : M.Running known before V m b ρ σ (d + 1) s)
    (hdeep : b + m.localCount ≤ d) (hmem : t.memory = s.memory) (hout : t.output = s.output)
    (hebp : t.regs .ebp = s.regs .ebp) (hesp : t.regs .esp = M.slot d) :
    M.Running known before V m b ρ σ d t where
  env := R.env
  store := R.store
  mirrors := R.mirrors.of_same hk ⟨fun _ _ => by rw [hmem], by rw [hmem], hout⟩
  frame := R.frame.keep hebp (fun _ _ _ => by rw [hmem]) hdeep List.prefix_rfl
  esp := hesp
  deep := hdeep

/-! ## Simple statements -/

/-- The value of an expression goes to a variable. -/
theorem Stage.assign (S : M.Stage known before site V m calls need) {line : Nat} {x : String}
    {value : Expr} {left right : Ty} {cv cs : List Line} (hv : value.Elaborated V right)
    (hx : V.varTy? x = some left) (hst : left.Storable) (ha : V.known.Assignable right left)
    (hcv : M.Evaluates known before V m cv room (value.eval calls V ·))
    (hcs : site.store x = .ok cs) (hone : 1 ≤ room) :
    M.Executes known before V m (cv ++ cs) room (Stmt.exec calls V (.assign line x value)) := by
  intro b ρ σ d s ρ' σ' R hat hexec hd hheap
  rw [Stmt.exec] at hexec
  obtain ⟨v, σ₁, heval, hassign⟩ := state_bind_ok_iff.mp hexec
  have hg := (Expr.eval_safe S.regular S.within S.sound hv R.env R.store).of_ok heval
  have hof := hg.2.assign S.regular.wellFormed (S.within.assignable ha)
  have hg' := (View.assign_safe S.regular S.within (R.env.mono hg.1.roots) hg.1.typed hx hst
    hof).of_ok hassign
  have hdeep := R.deep
  have hb := R.frame.deep
  obtain ⟨s₁, h₁⟩ := hcv b ρ σ d s v σ₁ R hat.left heval hd (fits_of_grows hg'.1 hheap)
  obtain ⟨s₂, h₂, R₂⟩ := S.store hx hst hcs (R.after h₁ hg.1) hdeep h₁.shows hof hassign
    (h₁.line ▸ hat.right) (hd.of_le (by omega) (by omega))
  refine ⟨s₂, ?_, R₂⟩
  rw [List.length_append]
  exact (h₁.went (by omega)).trans h₂

/-- The word of a value that can be printed is the printed number. -/
theorem Shows.shown {roots : List String} {i : Int} (h : M.Shows known roots v w)
    (hv : v.shown = some i) : w.toInt = i := by
  cases v with
  | int a =>
    cases hv
    cases h
    rfl
  | bool c =>
    cases hv
    cases h
    cases c <;> rfl
  | nothing => cases hv
  | object r => cases hv

/-- The value of an expression is printed. -/
theorem Stage.printed (S : M.Stage known before site V m calls need) {line : Nat} {value : Expr}
    {ty : Ty} {cv : List Line} (hv : value.Elaborated V ty)
    (hcv : M.Evaluates known before V m cv room (value.eval calls V ·)) (hroom : 5 ≤ room) :
    M.Executes known before V m
      (cv ++ instrs [.call printRoutine, .arith .add (.imm Word.size) (.reg .esp)]) room
      (Stmt.exec calls V (.print line value)) := by
  intro b ρ σ d s ρ' σ' R hat hexec hd hheap
  rw [Stmt.exec] at hexec
  obtain ⟨v, σ₁, heval, hprint⟩ := state_bind_ok_iff.mp hexec
  have hg := (Expr.eval_safe S.regular S.within S.sound hv R.env R.store).of_ok heval
  cases hshown : v.shown with
  | none =>
    simp only [Store.print, hshown] at hprint
    cases hprint
  | some i =>
    simp only [Store.print, hshown] at hprint
    cases hprint
    have hdeep := R.deep
    have hb := R.frame.deep
    obtain ⟨s₁, h₁⟩ := hcv b ρ σ d s v σ₁ R hat.left heval hd hheap
    have R₁ := R.after h₁ hg.1
    obtain ⟨start, hfind, hcode⟩ := S.print
    obtain ⟨s₂, hruns, hline, hesp, hebp, hout, hslots, hwords, htop⟩ :=
      print_call S.placed hcode hfind S.format (h₁.line ▸ hat.right) h₁.esp
        (hd.of_le (by omega) (by omega)) rfl
    rw [h₁.shows.shown hshown] at hout
    have hgrows := hg.1.typed.print (σ₁.printed ++ [i])
    refine ⟨s₂, ?_, R₁.env.mono hgrows.roots, hgrows.typed,
      h₁.mirrors.print S.regular hwords htop hout, ?_, hesp, hdeep⟩
    · rw [List.length_append]
      refine (h₁.went (by omega)).trans ⟨hruns, hline, ?_⟩
      intro k hk
      obtain ⟨hone, hk⟩ := hk
      refine hslots k hone ?_
      unfold Method.selfSlot at hk
      omega
    · exact R₁.frame.keep (d := d) hebp (fun k hone hk => hslots k hone (by omega)) hdeep
        hgrows.roots

/-! ## Sequences and conditions -/

/-- No statements take no code. -/
theorem executes_nil : M.Executes known before V m [] room (fun ρ => pure ρ) := by
  intro b ρ σ d s ρ' σ' R _ hexec _ _
  cases hexec
  exact ⟨s, .refl s, R⟩

/-- One statement, and then the others. -/
theorem Stage.executes_cons (S : M.Stage known before site V m calls need) {stmt : Stmt}
    {rest : List Stmt} {cs cr : List Line} {rs rr : Nat}
    (hall : ∀ s ∈ stmt :: rest, s.Derives Note.Records V)
    (hcs : M.Executes known before V m cs rs (Stmt.exec calls V stmt))
    (hcr : M.Executes known before V m cr rr (Stmt.execAll calls V rest)) :
    M.Executes known before V m (cs ++ cr) (max rs rr) (Stmt.execAll calls V (stmt :: rest)) := by
  intro b ρ σ d s ρ' σ' R hat hexec hd hheap
  rw [Stmt.execAll] at hexec
  obtain ⟨ρ₁, σ₁, hfirst, hlater⟩ := state_bind_ok_iff.mp hexec
  have hg := (Stmt.exec_safe S.regular S.within S.sound (hall stmt List.mem_cons_self) ρ σ R.env
    R.store).of_ok hfirst
  have hg' := (Stmt.execAll_safe_of_forall (fun s hs => Stmt.exec_safe S.regular S.within S.sound
    (hall s (List.mem_cons_of_mem _ hs))) hg.2 hg.1.typed).of_ok hlater
  have hdeep := R.deep
  have hb := R.frame.deep
  obtain ⟨s₁, h₁, R₁⟩ := hcs b ρ σ d s ρ₁ σ₁ R hat.left hfirst (hd.of_le (by omega) (by omega))
    (fits_of_grows hg'.1 hheap)
  obtain ⟨s₂, h₂, R₂⟩ := hcr b ρ₁ σ₁ d s₁ ρ' σ' R₁ (h₁.line ▸ hat.right) hlater
    (hd.of_le (by omega) (by omega)) hheap
  refine ⟨s₂, ?_, R₂⟩
  rw [List.length_append]
  exact h₁.trans h₂

/-- The body of a condition stands behind its test. -/
theorem CodeAt.body_of_cond {k : Nat} {ct cb : List Line} {finish : Label}
    (hat : M.CodeAt n (ct ++ instrs [.pop .eax, .cmp (.imm 1) (.reg .eax),
      .jumpIf .notEqual finish] ++ cb ++ [.label finish])) (hk : k = n + ct.length + 3) :
    M.CodeAt k cb := by
  have hcode := hat.left.right
  rw [List.length_append] at hcode
  rw [hk]
  simpa [instrs, Nat.add_assoc] using hcode

/-- The label of a condition stands behind its body. -/
theorem CodeAt.finish_of_cond {ct cb : List Line} {finish : Label}
    (hat : M.CodeAt n (ct ++ instrs [.pop .eax, .cmp (.imm 1) (.reg .eax),
      .jumpIf .notEqual finish] ++ cb ++ [.label finish])) :
    M.lines[n + ct.length + 3 + cb.length]? = some (.label finish) := by
  have hlabel := hat.right.head
  rw [List.length_append, List.length_append] at hlabel
  simpa [instrs, Nat.add_assoc] using hlabel

section cond

variable {test : Expr} {body : List Stmt} {ct cb : List Line} {rt rb : Nat} {finish : Label}

/-- The code of a condition goes on with the body if the test gives true, and
    else behind it. -/
theorem Stage.branched (S : M.Stage known before site V m calls need)
    (ht : test.Elaborated V .bool)
    (hct : M.Evaluates known before V m ct rt (test.eval calls V ·)) (hone : 1 ≤ rt)
    (R : M.Running known before V m b ρ σ d s)
    (hat : M.CodeAt s.line (ct ++ instrs [.pop .eax, .cmp (.imm 1) (.reg .eax),
      .jumpIf .notEqual finish] ++ cb ++ [.label finish]))
    (heval : test.eval calls V ρ σ = .ok (v, σ')) (hd : M.HasSlot (d + rt))
    (hheap : M.heap.low + known.roomOf σ'.roots ≤ M.heap.high) :
    ∃ s₁ t, M.Gave known before d ct.length v σ' s s₁ ∧ M.Runs s₁ t ∧
      t.line = (if s₁.memory (M.slot (d + 1)) = 1 then s.line + ct.length + 3
        else s.line + ct.length + 3 + cb.length + 1) ∧
      t.memory = s₁.memory ∧ M.Running known before V m b ρ σ' d t := by
  have hg := (Expr.eval_safe S.regular S.within S.sound ht R.env R.store).of_ok heval
  obtain ⟨s₁, h₁⟩ := hct b ρ σ d s v σ' R hat.left.left.left heval hd hheap
  obtain ⟨t, hruns, hline, hesp, hebp, hmem, hout⟩ := branch S.placed S.distinct
    (h₁.line ▸ hat.left.left.right) hat.finish_of_cond h₁.esp (hd.of_le (by omega) (by omega)) rfl
  rw [h₁.line] at hline
  exact ⟨s₁, t, h₁, hruns, hline, hmem,
    (R.after h₁ hg.1).drop S.regular R.deep hmem hout hebp hesp⟩

/-- Statements that are run under a condition. -/
theorem Stage.cond (S : M.Stage known before site V m calls need) {line : Nat}
    (ht : test.Elaborated V .bool) (hbody : ∀ s ∈ body, s.Derives Note.Records V)
    (hct : M.Evaluates known before V m ct rt (test.eval calls V ·))
    (hcb : M.Executes known before V m cb rb (Stmt.execAll calls V body)) (hone : 1 ≤ rt) :
    M.Executes known before V m
      (ct ++ instrs [.pop .eax, .cmp (.imm 1) (.reg .eax), .jumpIf .notEqual finish]
        ++ cb ++ [.label finish])
      (max rt rb) (Stmt.exec calls V (.cond line test body)) := by
  intro b ρ σ d s ρ' σ' R hat hexec hd hheap
  rw [Stmt.exec] at hexec
  obtain ⟨v, σ₁, heval, hexec⟩ := state_bind_ok_iff.mp hexec
  have hg := (Expr.eval_safe S.regular S.within S.sound ht R.env R.store).of_ok heval
  have hdeep := R.deep
  have hb := R.frame.deep
  have hbranch := S.branched ht hct hone R hat heval (hd.of_le (by omega) (by omega))
  have hlength : (ct ++ instrs [.pop .eax, .cmp (.imm 1) (.reg .eax), .jumpIf .notEqual finish]
      ++ cb ++ [Line.label finish]).length = ct.length + 3 + cb.length + 1 := by
    simp only [instrs, List.length_append, List.length_map, List.length_cons, List.length_nil]
  rw [hlength]
  cases v with
  | bool c =>
    cases c with
    | true =>
      have hg' := (Stmt.execAll_safe_of_forall (fun s hs => Stmt.exec_safe S.regular S.within
        S.sound (hbody s hs)) (R.env.mono hg.1.roots) hg.1.typed).of_ok hexec
      obtain ⟨s₁, t, h₁, hruns, hline, hmem, R₁⟩ := hbranch (fits_of_grows hg'.1 hheap)
      have hword : s₁.memory (M.slot (d + 1)) = 1 := h₁.shows
      rw [if_pos hword] at hline
      obtain ⟨s₂, h₂, R₂⟩ := hcb b ρ σ₁ d t ρ' σ' R₁ (hat.body_of_cond hline) hexec
        (hd.of_le (by omega) (by omega)) hheap
      have hline₂ : s₂.line = s.line + ct.length + 3 + cb.length := by rw [h₂.line, hline]
      have hstep := step_label (hline₂ ▸ hat.finish_of_cond)
      refine ⟨s₂.next, ⟨?_, ?_, ?_⟩, ?_⟩
      · exact h₁.runs.trans (hruns.trans (h₂.runs.trans (Runs.single hstep)))
      · rw [State.next_line, hline₂]
        omega
      · intro k hk
        have hkept := (h₂.kept k hk).trans (by rw [hmem])
        exact hkept.trans ((h₁.went (by omega)).kept k hk)
      · exact ⟨R₂.env, R₂.store, R₂.mirrors.of_same S.regular ⟨fun _ _ => rfl, rfl, rfl⟩,
          R₂.frame.keep rfl (fun _ _ _ => rfl) R₂.deep List.prefix_rfl, R₂.esp, R₂.deep⟩
    | false =>
      cases hexec
      obtain ⟨s₁, t, h₁, hruns, hline, hmem, R₁⟩ := hbranch hheap
      have hword : s₁.memory (M.slot (d + 1)) = 0 := h₁.shows
      rw [hword, if_neg (by decide)] at hline
      refine ⟨t, ⟨h₁.runs.trans hruns, ?_, ?_⟩, R₁⟩
      · rw [hline]
        omega
      · intro k hk
        rw [hmem]
        exact (h₁.went (by omega)).kept k hk
  | _ => cases hexec

end cond

end Machine

/-! ## Trees -/

namespace Stmt

open Machine

variable {M : Machine} {known : Known} {before : List Int} {site : Site} {V : View} {m : Method}
  {calls : Calls} {need : Nat}

/-- The code of statements does what they mean if the code of each of them
    does. -/
theorem executesAll_of_forall (S : M.Stage known before site V m calls need) {body : List Stmt}
    (hbody : ∀ s ∈ body, s.Derives Note.Records V)
    (ih : ∀ s ∈ body, ∀ {n n' : Nat} {code : List Line}, s.lower site n = .ok (code, n') →
      M.Executes known before V m code (s.room + need + 1) (exec calls V s))
    {n n' : Nat} {code : List Line} (h : lowerAll site body n = .ok (code, n')) :
    M.Executes known before V m code (roomAll body + need + 1) (execAll calls V body) := by
  induction body generalizing n code with
  | nil =>
    cases h
    exact executes_nil
  | cons s rest ihrest =>
    obtain ⟨cs, n₁, hcs, h⟩ := state_bind_ok_iff.mp h
    obtain ⟨cr, n₂, hcr, h⟩ := state_bind_ok_iff.mp h
    cases h
    have hlater := ihrest (fun s hs => hbody s (List.mem_cons_of_mem _ hs))
      (fun s hs => ih s (List.mem_cons_of_mem _ hs)) hcr
    refine (S.executes_cons hbody (ih s List.mem_cons_self hcs) hlater).mono ?_
    rw [roomAll]
    omega

/-- The code of an elaborated statement does what the statement means. -/
theorem executes (S : M.Stage known before site V m calls need) {s : Stmt}
    (h : s.Derives Note.Records V) {n n' : Nat} {code : List Line}
    (hcode : s.lower site n = .ok (code, n')) :
    M.Executes known before V m code (s.room + need + 1) (exec calls V s) := by
  induction h generalizing n n' code with
  | assign hv hx hst ha =>
    obtain ⟨cv, n₁, hcv, hrest⟩ := state_bind_ok_iff.mp hcode
    obtain ⟨cs, n₂, hlift, hpure⟩ := state_bind_ok_iff.mp hrest
    obtain ⟨hcs, rfl⟩ := state_lift_ok_iff.mp hlift
    cases hpure
    exact S.assign hv hx hst ha (Expr.evaluates S hv hcv) hcs (Nat.le_add_left 1 _)
  | cond ht hbody ih =>
    obtain ⟨finish, n₀, hfresh, hrest⟩ := state_bind_ok_iff.mp hcode
    obtain ⟨ct, n₁, hct, hrest⟩ := state_bind_ok_iff.mp hrest
    obtain ⟨cb, n₂, hcb, hpure⟩ := state_bind_ok_iff.mp hrest
    cases hpure
    have hall := executesAll_of_forall S hbody (fun s hs => ih s hs) hcb
    refine (S.cond ht hbody (Expr.evaluates S ht hct) hall (Nat.le_add_left 1 _)).mono ?_
    rw [room]
    omega
  | print hv hty =>
    obtain ⟨cv, n₁, hcv, hpure⟩ := state_bind_ok_iff.mp hcode
    cases hpure
    rw [room]
    exact S.printed hv ((Expr.evaluates S hv hcv).mono (by omega)) (by omega)

end Stmt

end ClassLang
