import ClassLang.Proofs.Simulation.Program
import ClassLang.Proofs.Simulation.Trap.Routines

/-! # What a program prints is determined by the program

    Two runs of the text of a program do the same, whatever else is in memory and
    wherever the text, the stack and the heap are.

    * **`Machine.Returns`** and **`Machine.Traps`** are the two ways in which a
      run ends.
    * **`Machine.Ready`**: somebody has called the text, and there is room enough.
      The fields of the program's own object have the values that a store gives
      them, if it gives them any.
    * **`Program.Elaborated.outcome`**: how a run from there ends, and what it
      prints, does not depend on the machine.
    * **`Program.output_determined`**: two runs of the text of an accepted
      program.

    Locals and the program's own object are not cleared by the text, so a program
    that reads them before it assigns to them is not determined:
    **`Program.unset_differs`**. -/

namespace ClassLang

namespace Machine

variable {M : Machine} {known : Known} {breaking : Breaking} {s : State} {d ret need : Nat}
  {σ σ' : Store}

/-! ## Ends of runs -/

/-- The run returns to its caller, stack and frame pointer are as they were
    before the call, and it has printed this. -/
def Returns (M : Machine) (d ret : Nat) (out : List Int) (s : State) : Prop :=
  ∃ s', M.Runs s s' ∧ s'.line = ret ∧ s'.regs .esp = M.slot d ∧ s'.regs .ebp = s.regs .ebp ∧
    s'.output = s.output ++ out

/-- Where the call of `start` breaks off, the routine that starts the program
    traps. -/
theorem startup_traps (hM : M.WellPlaced) (hk : known.Regular) {start : Nat}
    (hfind : M.find startRoutine = some start)
    (hat : M.CodeAt start (startCode (known.objectSize "Program"))) (hs : M.Begins d ret s)
    (hσ : Program.Initial known σ) (hholds : M.Holds known σ s)
    (hobject : (Value.object ⟨0, []⟩).Of known σ.roots (.object "Program"))
    (hfails : M.CallFails known s.output breaking need "Program" "start" [])
    (hbreaks : breaking "Program" "start" ⟨0, []⟩ [] σ σ') (hgrows : σ.roots <+: σ'.roots)
    (hd : M.HasSlot (d + 4 + need)) (hheap : M.heap.low + known.roomOf σ'.roots ≤ M.heap.high) :
    M.Traps (s.output ++ σ'.printed) s := by
  obtain ⟨entry, hentry, htrap⟩ := hfails
  obtain ⟨s₁, hruns₁, hline₁, hesp₁, _, _, _, _, hmirrors₁, hgiven₁⟩ :=
    startup_enters hM hk hfind hat hs hσ hholds rfl hentry (hd.of_le (by omega) (by omega))
      (fits_of_roots hgrows hheap)
  have htraps := htrap σ ⟨0, []⟩ [] (d + 3) s₁ σ' hσ.typed hobject .nil hmirrors₁ hgiven₁ hline₁
    hesp₁ hbreaks hd hheap
  exact htraps.of_runs hruns₁

/-! ## Starts of runs -/

/-- The text of the program has just been called.  Where the store knows the
    value of a field of the program's own object, the word of the field stands for
    it.  The stack has room for all methods, and the heap for so many bytes. -/
structure Ready (M : Machine) (p : Program) (σ : Store) (bytes : Int) (d ret : Nat) (s : State) :
    Prop where
  placed : M.WellPlaced
  begins : M.Begins d ret s
  holds : M.Holds p.known σ s
  stack : M.HasSlot (d + 4 + Routine.room p.routines)
  heap : M.heap.low + bytes ≤ M.heap.high

end Machine

namespace Program

open Machine

variable {p : Program} {M : Machine} {σ σ' : Store} {d ret : Nat} {s : State}

/-- A loaded program whose evaluation breaks off traps, and prints what was
    printed until then. -/
theorem Elaborated.traps (h : p.Elaborated) (hl : p.LoadedOn M) (hσ : Initial p.known σ)
    (hbreaks : Routine.breaks p.routines "Program" "start" ⟨0, []⟩ [] σ σ')
    (hs : M.Ready p σ (p.known.roomOf σ'.roots) d ret s) :
    M.Traps (s.output ++ σ'.printed) s := by
  obtain ⟨r, hr, hcls, hname, hparams, _⟩ := h.exists_entry
  have htyped : ∀ r ∈ p.routines, r.Typed Note.Records p.known := fun r hr => h.typed_of_mem hr
  have hall : ∀ r ∈ p.routines, M.CallFails p.known s.output (Routine.breaks p.routines)
      (Routine.room p.routines) r.view.cls r.method.name
      (r.method.params.map (Ty.ofName ·.ty)) :=
    Routine.callFails hl.placed hl.distinct h.regular hl.print hl.format h.linked.2 htyped
      (fun r hr => h.sized_of_mem hr) hl.routines
  have hfails := hall r hr
  have hadds := Routine.breaks_roots h.regular h.linked.2 htyped r hr
  rw [hcls, hname, hparams] at hfails hadds
  have hobject := h.own_object hσ
  have hgrows := hadds σ ⟨0, []⟩ [] σ' hσ.typed hobject .nil hbreaks
  obtain ⟨start, hfind, hat⟩ := hl.start
  exact startup_traps hl.placed h.regular hfind hat hs.begins hσ hs.holds hobject hfails hbreaks
    hgrows hs.stack hs.heap

/-- The evaluation of the program from the first store ends in the second one: it
    gives it, or it breaks off there. -/
def EndsIn (p : Program) (σ σ' : Store) : Prop :=
  p.evaluateOn σ = .ok σ' ∨
    p.evaluateOn σ = .error .division ∧
      Routine.breaks p.routines "Program" "start" ⟨0, []⟩ [] σ σ'

/-- Either every run of a loaded program returns, or every run traps, and all
    print the same numbers. -/
theorem Elaborated.outcome (h : p.Elaborated) (hσ : Initial p.known σ)
    (hassigned : ∀ x, p.evaluateOn σ ≠ .error (.unassigned x))
    (hset : ∀ x, p.evaluateOn σ ≠ .error (.unset x)) :
    ∃ σ', p.EndsIn σ σ' ∧
      ((p.evaluateOn σ = .ok σ' ∧ ∀ M d ret s, p.LoadedOn M →
          M.Ready p σ (p.known.roomOf σ'.roots) d ret s → M.Returns d ret σ'.printed s) ∨
        p.evaluateOn σ = .error .division ∧ ∀ M d ret s, p.LoadedOn M →
          M.Ready p σ (p.known.roomOf σ'.roots) d ret s → M.Traps (s.output ++ σ'.printed) s) := by
  cases heval : p.evaluateOn σ with
  | ok σ' =>
    refine ⟨σ', Or.inl heval, Or.inl ⟨rfl, ?_⟩⟩
    intro M d ret s hl hs
    exact h.returns hl hσ heval hs.begins hs.holds hs.stack hs.heap
  | error t =>
    cases t with
    | division =>
      -- an evaluation without a result still has a store in which it breaks off
      obtain ⟨σ', hbreaks⟩ := Routine.exists_breaks p.routines _ _ _ _ _
        (evaluateOn_eq_error_iff.mp heval)
      refine ⟨σ', Or.inr ⟨heval, hbreaks⟩, Or.inr ⟨rfl, ?_⟩⟩
      intro M d ret s hl hs
      exact h.traps hl hσ hbreaks hs
    | unassigned x => exact absurd heval (hassigned x)
    | unset x => exact absurd heval (hset x)
    | stuck => exact absurd heval (h.evaluateOn_ne_stuck hσ)

/-! ## Two runs -/

/-- Two runs of the text of an accepted program print the same numbers, and
    either both return or both trap, if the program reads no local and no field of
    its own object before it is assigned to, except fields whose values are the
    same at both starts.  Which of the two it is depends on the program and on
    these values alone. -/
theorem output_determined {source : String} {a : Analysis} (h : analyze source = .ok a)
    (hr : a.program.Representable) (hσ : Initial a.program.known σ)
    (hassigned : ∀ x, a.program.evaluateOn σ ≠ .error (.unassigned x))
    (hset : ∀ x, a.program.evaluateOn σ ≠ .error (.unset x)) :
    ∃ text lines σ', compile source = .ok text ∧ Line.readAll text = some lines ∧
      a.program.EndsIn σ σ' ∧
      ∀ (M₁ M₂ : Machine) (d₁ d₂ ret₁ ret₂ : Nat) (s₁ s₂ : State),
        M₁.Loaded text → M₂.Loaded text →
        M₁.Ready a.program σ (a.program.known.roomOf σ'.roots) d₁ ret₁ s₁ →
        M₂.Ready a.program σ (a.program.known.roomOf σ'.roots) d₂ ret₂ s₂ →
        (a.program.evaluateOn σ = .ok σ' ∧
            M₁.Returns d₁ ret₁ σ'.printed s₁ ∧ M₂.Returns d₂ ret₂ σ'.printed s₂) ∨
          (a.program.evaluateOn σ = .error .division ∧
            M₁.Traps (s₁.output ++ σ'.printed) s₁ ∧ M₂.Traps (s₂.output ++ σ'.printed) s₂) := by
  obtain ⟨he, _⟩ := elaborated_of_analyze h
  obtain ⟨text, lines, g, _, hcompile, hread, hloaded⟩ := loadedOn_of_analyze h hr
  obtain ⟨σ', hends, houtcome⟩ := he.outcome hσ hassigned hset
  refine ⟨text, lines, σ', hcompile, hread, hends, ?_⟩
  intro M₁ M₂ d₁ d₂ ret₁ ret₂ s₁ s₂ hM₁ hM₂ hs₁ hs₂
  have hl₁ := hloaded M₁ (Option.some.inj (hM₁.symm.trans hread)) hs₁.placed
  have hl₂ := hloaded M₂ (Option.some.inj (hM₂.symm.trans hread)) hs₂.placed
  rcases houtcome with ⟨heval, hreturns⟩ | ⟨heval, htraps⟩
  · exact Or.inl ⟨heval, hreturns M₁ d₁ ret₁ s₁ hl₁ hs₁, hreturns M₂ d₂ ret₂ s₂ hl₂ hs₂⟩
  · exact Or.inr ⟨heval, htraps M₁ d₁ ret₁ s₁ hl₁ hs₁, htraps M₂ d₂ ret₂ s₂ hl₂ hs₂⟩

end Program

/-! ## Memory that is not in use -/

namespace Machine

variable {M : Machine} {s s' : State} {d ret : Nat}

/-- A call is made by its argument and its return address. -/
theorem Begins.of_same (h : M.Begins d ret s) (hline : s'.line = s.line)
    (hesp : s'.regs .esp = s.regs .esp) (harg : s'.memory (M.slot d) = s.memory (M.slot d))
    (hback : s'.memory (M.slot (d + 1)) = s.memory (M.slot (d + 1))) : M.Begins d ret s' where
  line := hline ▸ h.line
  deep := h.deep
  esp := hesp.trans h.esp
  arg := harg.trans h.arg
  code := h.code
  back := hback.trans h.back

/-- Any words stand for fields whose values are not known. -/
theorem holds_untouched {known : Known} : M.Holds known Program.untouched s := by
  intro r u a v hlies _ hv
  obtain ⟨root, k, hroot, _⟩ := hlies
  have hlt : r.root < 1 := (List.getElem?_eq_some_iff.mp hroot).1
  have hunset : Program.untouched.cells r = .unset := if_pos (by omega)
  rw [hunset] at hv
  cases hv

/-- The slots with these numbers are in the stack, and they are different
    words. -/
theorem slot_ne_slot_flat {lines : List Line} (hM : (flat lines).WellPlaced) {k j : Nat}
    (hk : 1 ≤ k ∧ k < 1024) (hj : 1 ≤ j ∧ j < 1024) (hne : k ≠ j) :
    (flat lines).slot k ≠ (flat lines).slot j := by
  have hslot : ∀ i, 1 ≤ i ∧ i < 1024 → (flat lines).HasSlot i :=
    fun i hi => ⟨hi.1, by simp only [flat]; omega⟩
  exact fun heq => hne ((slot_inj hM (hslot k hk) (hslot j hj)).mp heq)

/-- A state that differs in a word of the stack that is not in use, and in the
    first word of the heap. -/
def littered (M : Machine) (s : State) : State :=
  (s.setWord (M.slot 7) 7).setWord (M.word 0) 9

/-- Neither of the two words belongs to a call. -/
theorem Begins.littered {lines : List Line} (hM : (flat lines).WellPlaced)
    (h : (flat lines).Begins 1 ret s) : (flat lines).Begins 1 ret ((flat lines).littered s) := by
  have hslot : ∀ k, 1 ≤ k → k ≤ 2 → (flat lines).slot k ≠ (flat lines).slot 7 :=
    fun k h1 hk => slot_ne_slot_flat hM (by omega) (by omega) (by omega)
  have hword : ∀ k, 1 ≤ k → k ≤ 2 → (flat lines).slot k ≠ (flat lines).word 0 := by
    intro k h1 hk
    refine (word_ne_slot hM ⟨by omega, by omega, ?_⟩ ⟨h1, ?_⟩).symm <;> simp only [flat] <;> omega
  exact h.of_same rfl rfl (by simp [Machine.littered, hslot 1, hword 1])
    (by simp [Machine.littered, hslot 2, hword 2])

end Machine

namespace Program

open Machine

set_option maxRecDepth 8192 in
/-- The sample assigns to all fields before it reads them. -/
theorem sample_untouched :
    ∃ a σ, analyze sample = .ok a ∧ a.program.evaluateOn untouched = .ok σ ∧
      a.program.known.roomOf σ.roots < 1024 ∧ σ.printed = [3] := by
  have h : (match analyze sample with
      | .ok a =>
        match a.program.evaluateOn untouched with
        | .ok σ => decide (a.program.known.roomOf σ.roots < 1024 ∧ σ.printed = [3])
        | .error _ => false
      | .error _ => false) = true := by
    cbv
  split at h
  · next a ha =>
    split at h
    · next σ hσ => exact ⟨a, σ, ha, hσ, of_decide_eq_true h⟩
    · cases h
  · cases h

/-- The sample on a machine, once with zero and once with other numbers in a word
    of the stack that is not in use and in the first word of the program's own
    object: both runs print 3 and return. -/
theorem output_determined_sample :
    ∃ (a : Analysis) (text : String) (M : Machine) (σ' : Store) (ret : Nat) (s t : State),
      analyze sample = .ok a ∧ a.program.Representable ∧ Initial a.program.known untouched ∧
      (∀ x, a.program.evaluateOn untouched ≠ .error (.unassigned x)) ∧
      (∀ x, a.program.evaluateOn untouched ≠ .error (.unset x)) ∧
      compile sample = .ok text ∧ M.Loaded text ∧
      M.Ready a.program untouched (a.program.known.roomOf σ'.roots) 1 ret s ∧
      M.Ready a.program untouched (a.program.known.roomOf σ'.roots) 1 ret t ∧
      t = (s.setWord (M.slot 7) 7).setWord (M.word 0) 9 ∧
      M.Returns 1 ret [3] s ∧ M.Returns 1 ret [3] t := by
  obtain ⟨a, lines, g, _, start, ha, hg, _, hstart, hr, hlength, hroom, hsize, _, _⟩ :=
    sample_evaluates
  obtain ⟨a', τ, ha', hτ, hroots, hprinted⟩ := sample_untouched
  cases ha.symm.trans ha'
  have hσ := initial_untouched a.program.known
  have hassigned : ∀ x, a.program.evaluateOn untouched ≠ .error (.unassigned x) := by
    intro x hx
    cases hτ.symm.trans hx
  have hset : ∀ x, a.program.evaluateOn untouched ≠ .error (.unset x) := by
    intro x hx
    cases hτ.symm.trans hx
  obtain ⟨text, lines', σ', hcompile, hread, hends, hruns⟩ :=
    output_determined ha hr hσ hassigned hset
  -- the listing that is read is the one that is made, and the evaluation has one end
  obtain ⟨_, _, _, hg', hcompile', hread', _⟩ := loadedOn_of_analyze ha hr
  cases hg.symm.trans hg'
  cases hcompile.symm.trans hcompile'
  cases hread.symm.trans hread'
  have hend : σ' = τ := by
    rcases hends with hok | ⟨herr, _⟩
    · exact Except.ok.inj (hok.symm.trans hτ)
    · cases herr.symm.trans hτ
  subst hend
  have hM : (flat lines).WellPlaced := wellPlaced_flat (by omega)
  have hstarts : (flat lines).Starts a.program.known 1 lines.length ((flat lines).called start) :=
    starts_called (by omega) (by omega) hstart
  have hs := hstarts.begins
  have hready : ∀ {s : State}, (flat lines).Begins 1 lines.length s →
      (flat lines).Ready a.program untouched (a.program.known.roomOf σ'.roots) 1 lines.length s :=
    fun hs => ⟨hM, hs, holds_untouched, ⟨by omega, by simp only [flat]; omega⟩,
      by simp only [flat]; omega⟩
  have ht := hs.littered hM
  have hboth := hruns (flat lines) (flat lines) 1 1 lines.length lines.length _ _ hread hread
    (hready hs) (hready ht)
  rw [hprinted] at hboth
  rcases hboth with ⟨_, hreturns, hreturns'⟩ | ⟨herr, _⟩
  · exact ⟨a, text, flat lines, σ', lines.length, _, _, ha, hr, hσ, hassigned, hset, hcompile, hread,
      hready hs, hready ht, rfl, hreturns, hreturns'⟩
  · cases herr.symm.trans hτ

end Program

/-! ## Memory that is not cleared -/

namespace Machine

/-- A run of so many steps returns, and prints this. -/
def returnsAfter (M : Machine) (n d ret : Nat) (out : List Int) (s : State) : Bool :=
  (M.steps n s).any fun t => t.line = ret ∧ t.regs .esp = M.slot d ∧
    t.regs .ebp = s.regs .ebp ∧ t.output = s.output ++ out

theorem Returns.of_after {M : Machine} {n d ret : Nat} {out : List Int} {s : State}
    (h : M.returnsAfter n d ret out s = true) : M.Returns d ret out s := by
  obtain ⟨t, hsteps, ht⟩ := (Option.any_eq_true _ _).mp h
  obtain ⟨hline, hesp, hebp, hout⟩ := of_decide_eq_true ht
  exact ⟨t, .of_steps hsteps, hline, hesp, hebp, hout⟩

end Machine

namespace Program

open Machine

/-- A program that reads a local and a field to which nothing was assigned. -/
def unset : String :=
  "class Program { int f; nothing start() { int x; print(x); print(f); return nothing; } }"

/-- This holds of what becomes of this program: its analysis, its text and the
    line at which the text starts. -/
def unsetHas (check : Analysis → List Line → Nat → Bool) : Bool :=
  (analyze unset).toOption.any fun a =>
    ((Generator.generate a.tables.classes a.program).run' {}).any fun lines =>
      (lines.findIdx? (·.isLabel startRoutine)).any (check a lines)

/-- The parts of which it holds. -/
theorem exists_of_unsetHas {check : Analysis → List Line → Nat → Bool} (h : unsetHas check = true) :
    ∃ a lines g start, analyze unset = .ok a ∧
      Generator.generate a.tables.classes a.program {} = .ok lines g ∧
      lines.findIdx? (·.isLabel startRoutine) = some start ∧
      ∀ check', unsetHas check' = check' a lines start := by
  unfold unsetHas at h
  obtain ⟨a, ha, h⟩ := (Option.any_eq_true _ _).mp h
  obtain ⟨lines, hlines, h⟩ := (Option.any_eq_true _ _).mp h
  obtain ⟨start, hstart, _⟩ := (Option.any_eq_true _ _).mp h
  have hcheck : ∀ check', unsetHas check' = check' a lines start := by
    intro check'
    unfold unsetHas
    rw [ha, Option.any_some, hlines, Option.any_some, hstart, Option.any_some]
  cases ha' : analyze unset with
  | error e =>
    rw [ha'] at ha
    cases ha
  | ok a' =>
    rw [ha'] at ha
    cases ha
    delta EStateM.run' EStateM.run at hlines
    cases hg : Generator.generate a.tables.classes a.program {} with
    | error f g =>
      rw [hg] at hlines
      cases hlines
    | ok lines' g =>
      rw [hg] at hlines
      cases hlines
      exact ⟨a, lines, g, start, rfl, hg, hstart, hcheck⟩

set_option maxRecDepth 8192 in
theorem unset_accepted :
    unsetHas (fun a lines _ => decide (a.program.Representable ∧ lines.length < 1024 ∧
      a.program.known.objectSize "Program" < 1024)) = true := by cbv

set_option maxRecDepth 8192 in
theorem unset_prints_zero :
    unsetHas (fun _ lines start => (flat lines).returnsAfter 51 1 lines.length [0, 0]
      ((flat lines).called start)) = true := by cbv

set_option maxRecDepth 8192 in
theorem unset_prints_litter :
    unsetHas (fun _ lines start => (flat lines).returnsAfter 51 1 lines.length [7, 9]
      ((flat lines).littered ((flat lines).called start))) = true := by cbv

/-- Two starts of the text of an accepted program that differ in a word of the
    stack that is not in use and in a word of the program's own object: the one
    run prints 0 and 0, and the other one prints 7 and 9. -/
theorem unset_differs :
    ∃ (a : Analysis) (text : String) (M : Machine) (ret : Nat) (s t : State),
      analyze unset = .ok a ∧ a.program.Representable ∧ compile unset = .ok text ∧
      M.Loaded text ∧ M.WellPlaced ∧ M.Begins 1 ret s ∧ M.Begins 1 ret t ∧
      s.memory (M.slot 7) = 0 ∧ s.memory (M.word 0) = 0 ∧
      t = (s.setWord (M.slot 7) 7).setWord (M.word 0) 9 ∧
      M.Returns 1 ret [0, 0] s ∧ M.Returns 1 ret [7, 9] t := by
  obtain ⟨a, lines, g, start, ha, hg, hstart, hcheck⟩ := exists_of_unsetHas unset_accepted
  have haccepted := (hcheck _).symm.trans unset_accepted
  have hfirst := (hcheck _).symm.trans unset_prints_zero
  have hsecond := (hcheck _).symm.trans unset_prints_litter
  obtain ⟨hr, hlength, hsize⟩ := of_decide_eq_true haccepted
  obtain ⟨text, lines', g', hg', hcompile, hread, _⟩ := loadedOn_of_analyze ha hr
  cases hg.symm.trans hg'
  have hM : (flat lines).WellPlaced := wellPlaced_flat (by omega)
  have hstarts : (flat lines).Starts a.program.known 1 lines.length ((flat lines).called start) :=
    starts_called (by omega) (by omega) hstart
  have hs := hstarts.begins
  refine ⟨a, text, flat lines, lines.length, _, _, ha, hr, hcompile, hread, hM, hs, hs.littered hM,
    ?_, ?_, rfl, .of_after hfirst, .of_after hsecond⟩
  · have hslot : ∀ k, 1 ≤ k → k ≤ 2 → (flat lines).slot 7 ≠ (flat lines).slot k :=
      fun k h1 hk => slot_ne_slot_flat hM (by omega) (by omega) (by omega)
    simp only [called, if_neg (hslot 1 (by omega) (by omega)), if_neg (hslot 2 (by omega) (by omega))]
  · have hword : ∀ k, 1 ≤ k → k ≤ 2 → (flat lines).word 0 ≠ (flat lines).slot k := by
      intro k h1 hk
      refine word_ne_slot hM ⟨by omega, by omega, ?_⟩ ⟨h1, ?_⟩ <;> simp only [flat] <;> omega
    simp only [called, if_neg (hword 1 (by omega) (by omega)), if_neg (hword 2 (by omega) (by omega))]

end Program

end ClassLang
