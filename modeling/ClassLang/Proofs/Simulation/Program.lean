import ClassLang.Proofs.Lowering.Loading
import ClassLang.Proofs.Meaning.Cleared
import ClassLang.Proofs.Simulation.Routines
import Mathlib

/-! # Programs on the machine

    The text of an accepted program does on the machine what the program means.

    * **`Machine.Starts`**: somebody has just called the text with the address
      of the heap, and the program's own object is zero.  **`Machine.Begins`**
      and **`Machine.Holds`** are for an object with any values.
    * **`Program.LoadedOn`**: what stands where in a text that is loaded.
    * **`Machine.startup_runs`**: the routine that starts the program, once the
      methods answer.
    * **`Program.compile_correct`**: the whole way from the source text. -/

namespace ClassLang

/-! ## Loaded listings -/

/-- The routine that starts the program, from its label on. -/
def startCode (size : Int) : List Line :=
  [.label (.named startRoutine)] ++ prologue
  ++ instrs [.mov (.mem 8 .ebp) (.reg .ecx), .mov (.reg .ecx) (.cell heapBase),
    .mov (.reg .ecx) (.cell heapTop), .arith .add (.imm size) (.cell heapTop),
    .push (.cell heapBase)]
  ++ instrs [.call (methodLabel "Program" "start"), .arith .add (.imm Word.size) (.reg .esp)]
  ++ epilogue

namespace Listing

variable {M : Machine} {t : Listing} {p : Program} {n n' : Nat}

/-- What the machine finds in a listing. -/
structure Loads (M : Machine) (t : Listing) : Prop where
  print : ∃ i, M.find printRoutine = some i ∧ M.CodeAt i Machine.printCode
  format : M.text? printFormat = some "%d\\n"
  start : ∃ i, M.find startRoutine = some i ∧ M.CodeAt i (startCode t.size)

/-- Code that begins with a label is found where it stands. -/
theorem find_of_infix (hd : M.Distinct) {l : Label} {rest : List Line}
    (h : (.label l :: rest) <:+: M.lines) :
    ∃ i, M.find l.render = some i ∧ M.CodeAt i (.label l :: rest) := by
  obtain ⟨before, after, hlines⟩ := h
  have hat : M.CodeAt before.length (.label l :: rest) := .of_lines hlines.symm
  exact ⟨before.length, Machine.find_eq hd hat.head, hat⟩

/-- The fixed routines are found. -/
theorem loads (hd : M.Distinct) (h : M.lines = t.lines) : t.Loads M where
  print := by
    refine find_of_infix (l := .named printRoutine) hd ?_
    rw [h, lines]
    exact ⟨preamble.take 9, t.sections.flatMap sectionLines ++ startup t.size,
      (List.append_assoc _ _ _).symm⟩
  format := by
    -- the string stands right behind its label
    have hlines : M.lines =
        preamble.take 4 ++ [.label (.named printFormat), .directive (.string "%d\\n")] ++
          (preamble.drop 6 ++ t.sections.flatMap sectionLines ++ startup t.size) := by
      rw [h, lines, List.append_assoc]
      rfl
    have hat := Machine.CodeAt.of_lines hlines
    have hfind := Machine.find_eq hd hat.head
    rw [Machine.text?, show printFormat = (Label.named printFormat).render from rfl, hfind,
      Option.bind_some, hat.tail.head]
  start := by
    refine find_of_infix (l := .named startRoutine) hd ?_
    rw [h, lines]
    exact ⟨preamble ++ t.sections.flatMap sectionLines ++
      directives [.globalSymbol startRoutine, .functionType startRoutine], [], by
        rw [List.append_nil, List.append_assoc]
        rfl⟩

/-- The methods are found. -/
theorem loaded_of_mem (hd : M.Distinct) (h : M.lines = t.lines) {rs : List Routine}
    (hc : Chain Routine.Coded rs n t.blocks n') {r : Routine} (hr : r ∈ rs) : r.Loaded M := by
  obtain ⟨i, hi⟩ := List.mem_iff_getElem?.mp hr
  obtain ⟨code, k, k', hcode, hcoded⟩ := hc.get hi
  obtain ⟨rest, rfl, _⟩ := hcoded.made.exists_rest
  have hinfix := infix_lines (List.mem_of_getElem? hcode)
  rw [← h] at hinfix
  obtain ⟨start, hfind, hat⟩ := find_of_infix hd hinfix
  exact ⟨k, _, k', start, hcoded, hfind, hat⟩

end Listing

/-! ## The start of a program -/

namespace Machine

/-- Somebody has called the text with the address of the heap, and the words of
    the program's own object are zero.  The stack has `d` words with the
    argument, and below them is the address at which the run goes on. -/
structure Starts (M : Machine) (known : Known) (d ret : Nat) (s : State) : Prop where
  line : M.find startRoutine = some s.line
  deep : 1 ≤ d
  esp : s.regs .esp = M.slot (d + 1)
  arg : s.memory (M.slot d) = M.word 0
  code : M.isCode ret = true
  back : s.memory (M.slot (d + 1)) = M.place ret
  zero : ∀ i : Nat, 4 * (i : Int) < known.objectSize "Program" → s.memory (M.word (4 * i)) = 0

/-- Somebody has called the text with the address of the heap, whatever the heap
    holds. -/
structure Begins (M : Machine) (d ret : Nat) (s : State) : Prop where
  line : M.find startRoutine = some s.line
  deep : 1 ≤ d
  esp : s.regs .esp = M.slot (d + 1)
  arg : s.memory (M.slot d) = M.word 0
  code : M.isCode ret = true
  back : s.memory (M.slot (d + 1)) = M.place ret

/-- The words of the objects stand for the values of their fields, where these
    are known. -/
def Holds (M : Machine) (known : Known) (σ : Store) (s : State) : Prop :=
  ∀ r u a v, known.Lies σ.roots r u a → (∀ c, u ≠ .object c) →
    (σ.cells r).value? u = some v → M.Shows known σ.roots v (s.memory (M.word a))

variable {M : Machine} {known : Known} {calls : Calls} {s : State} {d ret need : Nat} {σ σ' : Store}

theorem Starts.begins (h : M.Starts known d ret s) : M.Begins d ret s :=
  ⟨h.line, h.deep, h.esp, h.arg, h.code, h.back⟩

/-- Words that are zero stand for the values of the fields of a new object. -/
theorem Starts.holds (hk : known.Regular) (h : M.Starts known d ret s) :
    M.Holds known (Store.make {} "Program").2 s := by
  rintro r u a v hlies hu hv
  have hv : Cell.cleared.value? u = some v := hv
  cases hv
  obtain ⟨h0, hend, i, rfl⟩ := hlies.bounds hk
  have hroom : known.roomOf (Store.make {} "Program").2.roots = known.objectSize "Program" := by
    simp [Store.make]
  rw [Known.room_eq_four hu, hroom] at hend
  have hzero := h.zero i.toNat (by omega)
  rw [Int.toNat_of_nonneg (by omega)] at hzero
  rw [hzero]
  exact shows_zero hu

/-- The program's own object gets its place at the start of the heap, and its
    address goes on the stack. -/
theorem effects_setup (hM : M.WellPlaced) (size : Int) (hebp : s.regs .ebp = M.slot (d + 2))
    (hesp : s.regs .esp = M.slot (d + 2)) (hdeep : 1 ≤ d) (hd : M.HasSlot (d + 3))
    (harg : s.memory (M.slot d) = M.word 0) :
    ∃ t, M.effects [.mov (.mem 8 .ebp) (.reg .ecx), .mov (.reg .ecx) (.cell heapBase),
        .mov (.reg .ecx) (.cell heapTop), .arith .add (.imm size) (.cell heapTop),
        .push (.cell heapBase)] s = some t ∧
      t.regs .esp = M.slot (d + 3) ∧ t.regs .ebp = M.slot (d + 2) ∧ t.output = s.output ∧
      t.memory (M.slot (d + 3)) = M.word 0 ∧ t.memory (M.symbol heapTop) = M.word size ∧
      ∀ a, a ≠ M.slot (d + 3) → a ≠ M.symbol heapBase → a ≠ M.symbol heapTop →
        t.memory a = s.memory a := by
  have hargument : M.effect s (.mov (.mem 8 .ebp) (.reg .ecx)) =
      some (s.setReg .ecx (M.word 0)) := by
    rw [← harg]
    exact effect_mov rfl (value_frame (o := 8) (j := d) hM hebp (by omega)
      (hd.of_le hdeep (by omega))) rfl
  let s₁ := (s.setReg .ecx (M.word 0)).next
  have hbase : M.effect s₁ (.mov (.reg .ecx) (.cell heapBase)) =
      some (s₁.setWord (M.symbol heapBase) (M.word 0)) :=
    effect_mov rfl (by simp [value, s₁]) (store_of_usable (usable_heapBase hM))
  let s₂ := (s₁.setWord (M.symbol heapBase) (M.word 0)).next
  have htop : M.effect s₂ (.mov (.reg .ecx) (.cell heapTop)) =
      some (s₂.setWord (M.symbol heapTop) (M.word 0)) :=
    effect_mov rfl (by simp [value, s₂, s₁]) (store_of_usable (usable_heapTop hM))
  let s₃ := (s₂.setWord (M.symbol heapTop) (M.word 0)).next
  have hadd : M.effect s₃ (.arith .add (.imm size) (.cell heapTop)) =
      some (s₃.setWord (M.symbol heapTop) (M.word size)).forget := by
    simp [effect, Operand.inMemory, value, put, load_of_usable (usable_heapTop hM),
      store_of_usable (usable_heapTop hM), ArithOp.apply, word_add, s₃]
  let s₄ := (s₃.setWord (M.symbol heapTop) (M.word size)).forget.next
  have hself : M.value s₄ (.cell heapBase) = some (M.word 0) := by
    rw [value, load_of_usable (usable_heapBase hM)]
    simp [s₄, s₃, s₂, hM.symbolsApart]
  have hpush := effect_push hM hself (show s₄.regs .esp = M.slot (d + 2) from hesp) hd
  have hne : M.symbol heapTop ≠ M.slot (d + 3) := symbol_ne_slot hM (by simp) hd
  refine ⟨_, effects_cons hargument (effects_cons hbase (effects_cons htop (effects_cons hadd
    (effects_cons hpush rfl)))), ?_, ?_, rfl, ?_, ?_, ?_⟩
  · simp
  · exact hebp
  · simp
  · simp [hne, s₄]
  · intro a hslot hb ht
    simp [hslot, hb, ht, s₄, s₃, s₂, s₁]

/-- The program's own object is the receiver of the first call. -/
theorem given_start {roots : List String} (hroots : roots = ["Program"]) {t : State} {top : Nat}
    (htop : 1 ≤ top) (hself : t.memory (M.slot top) = M.word 0) :
    M.Given known roots ⟨0, []⟩ [] top t where
  deep := htop
  self := ⟨.object "Program", 0, ⟨"Program", 0, by rw [hroots]; rfl, .here, rfl⟩, hself⟩
  args := fun _ _ h => by cases h

section startup

variable (hM : M.WellPlaced) (hk : known.Regular) {before : List Int} {start : Nat}
  (hfind : M.find startRoutine = some start)
  (hat : M.CodeAt start (startCode (known.objectSize "Program"))) (hs : M.Begins d ret s)
  (hσ : Program.Initial known σ) (hholds : M.Holds known σ s) (hout : s.output = before)

include hM hk hfind hat hs hσ hholds hout

/-- The routine that starts the program makes a frame and calls its `start` on
    the object at the start of the heap. -/
theorem startup_enters {entry : Nat} (hentry : M.find (methodLabel "Program" "start") = some entry)
    (hd : M.HasSlot (d + 4)) (hfits : M.heap.low + known.roomOf σ.roots ≤ M.heap.high) :
    ∃ t, M.Runs s t ∧ t.line = entry ∧ t.regs .esp = M.slot (d + 4) ∧
      t.regs .ebp = M.slot (d + 2) ∧ t.memory (M.slot (d + 4)) = M.place (s.line + 9) ∧
      t.memory (M.slot (d + 2)) = s.regs .ebp ∧ t.memory (M.slot (d + 1)) = M.place ret ∧
      M.Mirrors known before σ t ∧ M.Given known σ.roots ⟨0, []⟩ [] (d + 3) t := by
  have hline : s.line = start := Option.some.inj (hs.line.symm.trans hfind)
  rw [← hline] at hat
  have hslot : ∀ {k}, 1 ≤ k → k ≤ d + 4 → M.HasSlot k := fun h1 hk => hd.of_le h1 hk
  have hinj : ∀ {k j}, 1 ≤ k → k ≤ d + 4 → 1 ≤ j → j ≤ d + 4 → k ≠ j → M.slot k ≠ M.slot j :=
    fun h1 hk h1' hk' hne heq => hne ((slot_inj hM (hslot h1 hk) (hslot h1' hk')).mp heq)
  have hdeep := hs.deep
  have hroom : known.roomOf σ.roots = known.objectSize "Program" := by simp [hσ.roots]
  -- a frame is made
  obtain ⟨s₁, hruns₁, hline₁, hebp₁, hesp₁, hout₁, hmem₁⟩ := enter (d := d + 1) hM
    hat.left.left.left hs.esp (hslot (by omega) (by omega))
  have hkept₁ : ∀ a, a ≠ M.slot (d + 2) → s₁.memory a = s.memory a := by
    intro a ha
    rw [hmem₁, State.setWord_memory, if_neg ha]
  -- the object gets its place
  obtain ⟨s₂, heffects, hesp₂, hebp₂, hout₂, hself₂, htop₂, hkept₂⟩ := effects_setup (d := d) hM
    (known.objectSize "Program") hebp₁ hesp₁ hdeep (hslot (by omega) (by omega)) (by
      rw [hkept₁ _ (hinj (by omega) (by omega) (by omega) (by omega) (by omega))]
      exact hs.arg)
  obtain ⟨hruns₂, hline₂⟩ := runs_of_effects (hline₁ ▸ hat.left.left.right) heffects
  have hline₂ : s₂.line = s.line + 8 := by
    rw [hline₂, hline₁]
    rfl
  have hslot₂ : ∀ k, 1 ≤ k → k ≤ d + 2 → s₂.memory (M.slot k) = s₁.memory (M.slot k) := by
    intro k h1 hk
    refine hkept₂ _ (hinj h1 (by omega) (by omega) (by omega) (by omega)) ?_ ?_
    · exact (symbol_ne_slot hM (by simp) (hslot h1 (by omega))).symm
    · exact (symbol_ne_slot hM (by simp) (hslot h1 (by omega))).symm
  have hwords₂ : ∀ k, M.HasWord k → s₂.memory (M.word k) = s.memory (M.word k) := by
    intro k hk
    rw [hkept₂ _ (word_ne_slot hM hk (hslot (by omega) (by omega)))
      (symbol_ne_word hM (by simp) hk).symm (symbol_ne_word hM (by simp) hk).symm]
    exact hkept₁ _ (word_ne_slot hM hk (hslot (by omega) (by omega)))
  have hmirrors₂ : M.Mirrors known before σ s₂ := {
    cells := by
      intro r u a v hlies hu hv
      obtain ⟨h0, hend, hdvd⟩ := hlies.bounds hk
      rw [Known.room_eq_four hu] at hend
      rw [hwords₂ a ⟨h0, hdvd, by omega⟩]
      exact hholds r u a v hlies hu hv
    top := by rw [htop₂, hroom]
    output := by rw [hout₂, hout₁, hout, hσ.printed, List.append_nil]
    fits := hfits }
  -- the method is called
  have hcode₂ : M.CodeAt s₂.line (instrs [.call (methodLabel "Program" "start"),
      .arith .add (.imm Word.size) (.reg .esp)]) := hline₂ ▸ hat.left.right
  have hgiven₂ : M.Given known σ.roots ⟨0, []⟩ [] (d + 3) s₂ :=
    given_start hσ.roots (by omega) hself₂
  obtain ⟨s₃, hruns₃, hline₃, hesp₃, hebp₃, hback₃, hkept₃, hmirrors₃, hgiven₃⟩ :=
    call_enters hM hk hentry hcode₂.head hesp₂ (hslot (by omega) (by omega)) hmirrors₂ hgiven₂
  have hslot₃ : ∀ k, 1 ≤ k → k ≤ d + 2 → s₃.memory (M.slot k) = s₁.memory (M.slot k) := by
    intro k h1 hk
    rw [hkept₃ k h1 (by omega), hslot₂ k h1 hk]
  refine ⟨s₃, hruns₁.trans (hruns₂.trans hruns₃), hline₃, hesp₃, hebp₃.trans hebp₂, ?_, ?_, ?_,
    hmirrors₃, hgiven₃⟩
  · rw [hback₃, hline₂]
  · rw [hslot₃ _ (by omega) (Nat.le_refl _), hmem₁]
    simp
  · rw [hslot₃ _ (by omega) (by omega),
      hkept₁ _ (hinj (by omega) (by omega) (by omega) (by omega) (by omega))]
    exact hs.back

/-- The routine that starts the program calls its `start`, and returns when this
    does. -/
theorem startup_runs (hobject : (Value.object ⟨0, []⟩).Of known σ.roots (.object "Program"))
    (hanswers : M.Answers known before calls need "Program" "start" []) {v : Value}
    (hcall : calls "Program" "start" ⟨0, []⟩ [] σ = .ok (v, σ'))
    (hgrows : σ.roots <+: σ'.roots) (hd : M.HasSlot (d + 4 + need))
    (hheap : M.heap.low + known.roomOf σ'.roots ≤ M.heap.high) :
    ∃ t, M.Runs s t ∧ t.line = ret ∧ t.regs .esp = M.slot d ∧ t.regs .ebp = s.regs .ebp ∧
      t.output = s.output ++ σ'.printed := by
  obtain ⟨entry, hentry, hbody⟩ := hanswers
  obtain ⟨s₁, hruns₁, hline₁, hesp₁, hebp₁, hback₁, hsaved₁, hret₁, hmirrors₁, hgiven₁⟩ :=
    startup_enters hM hk hfind hat hs hσ hholds hout hentry (hd.of_le (by omega) (by omega))
      (fits_of_roots hgrows hheap)
  have hline : s.line = start := Option.some.inj (hs.line.symm.trans hfind)
  rw [← hline] at hat
  have hdrop : M.lines[s.line + 9]? = some (.instr (.arith .add (.imm Word.size) (.reg .esp))) :=
    hat 9 _ rfl
  obtain ⟨s₂, hkeeps₂, hline₂, hesp₂, _, hmirrors₂⟩ := hbody σ ⟨0, []⟩ [] (d + 3) s₁ v σ'
    (s.line + 9) hσ.typed hobject .nil hmirrors₁ hgiven₁ hline₁ hesp₁ hback₁
    (by simp [isCode, hdrop]) hcall hd hheap
  -- the frame is taken away
  have hstep₃ := step_of_effect (by rw [hline₂]; exact hdrop)
    (effect_drop (o := Word.size) (d := d + 2) 1 rfl hesp₂)
  have hslot₂ : ∀ k, 1 ≤ k → k ≤ d + 2 → s₂.memory (M.slot k) = s₁.memory (M.slot k) := hkeeps₂.kept
  obtain ⟨t, hruns, htline, htesp, htebp, _, _, htout⟩ := leave (d := d) (n := ret)
    (s := (s₂.setReg .esp (M.slot (d + 2))).forget.next) (p := s.regs .ebp) hM
    (by
      rw [State.next_line, State.forget_line, State.setReg_line, hline₂]
      exact hat.right)
    (hkeeps₂.ebp.trans hebp₁) ((hslot₂ _ (by omega) (Nat.le_refl _)).trans hsaved₁)
    ((hslot₂ _ (by omega) (by omega)).trans hret₁) hs.code (hd.of_le (by omega) (by omega))
  refine ⟨t, ?_, htline, htesp, htebp, ?_⟩
  · exact hruns₁.trans (hkeeps₂.runs.trans ((Runs.single hstep₃).trans hruns))
  · rw [htout, hout]
    exact hmirrors₂.output

end startup

end Machine

/-! ## Whole programs -/

namespace Program

/-- The text of the program is loaded. -/
structure LoadedOn (p : Program) (M : Machine) : Prop where
  placed : M.WellPlaced
  distinct : M.Distinct
  print : ∃ i, M.find printRoutine = some i ∧ M.CodeAt i Machine.printCode
  format : M.text? printFormat = some "%d\\n"
  start : ∃ i, M.find startRoutine = some i ∧
    M.CodeAt i (startCode (p.known.objectSize "Program"))
  routines : ∀ r ∈ p.routines, r.Loaded M

variable {p : Program} {M : Machine}

/-- A machine that has the listing of a program has its text. -/
theorem LoadedOn.of_lines (hM : M.WellPlaced) (hd : M.Distinct) {t : Listing}
    (hlines : M.lines = t.lines) (hsize : t.size = p.known.objectSize "Program") {n : Nat}
    (hc : Chain Routine.Coded (ClassDecl.allRoutines [] p.classes) 0 t.blocks n) :
    p.LoadedOn M where
  placed := hM
  distinct := hd
  print := (Listing.loads hd hlines).print
  format := (Listing.loads hd hlines).format
  start := hsize ▸ (Listing.loads hd hlines).start
  routines := fun _ hr => Listing.loaded_of_mem hd hlines hc (List.mem_reverse.mp hr)

/-- The method at which a loaded program starts answers. -/
theorem Elaborated.answers (h : p.Elaborated) (hl : p.LoadedOn M) (before : List Int) :
    M.Answers p.known before (Routine.calls p.routines) (Routine.room p.routines) "Program"
      "start" [] := by
  obtain ⟨r, hr, hcls, hname, hparams, _⟩ := h.exists_entry
  have hall : ∀ r ∈ p.routines, M.Answers p.known before (Routine.calls p.routines)
      (Routine.room p.routines) r.view.cls r.method.name
      (r.method.params.map (Ty.ofName ·.ty)) :=
    Routine.answers hl.placed hl.distinct h.regular hl.print hl.format h.linked.2
      (fun r hr => h.typed_of_mem hr) (fun r hr => h.sized_of_mem hr) hl.routines
  have hanswers := hall r hr
  rw [hcls, hname, hparams] at hanswers
  exact hanswers

/-- A loaded program whose evaluation gives a store prints what this has printed,
    and returns. -/
theorem Elaborated.returns (h : p.Elaborated) (hl : p.LoadedOn M) {σ σ' : Store}
    (hσ : Initial p.known σ) (heval : p.evaluateOn σ = .ok σ') {d ret : Nat} {s : State}
    (hs : M.Begins d ret s) (hholds : M.Holds p.known σ s)
    (hslot : M.HasSlot (d + 4 + Routine.room p.routines))
    (hheap : M.heap.low + p.known.roomOf σ'.roots ≤ M.heap.high) :
    ∃ s', M.Runs s s' ∧ s'.line = ret ∧ s'.regs .esp = M.slot d ∧
      s'.regs .ebp = s.regs .ebp ∧ s'.output = s.output ++ σ'.printed := by
  obtain ⟨start, hfind, hat⟩ := hl.start
  -- evaluating the program is calling its `start`
  obtain ⟨v, hcall⟩ := evaluateOn_eq_ok_iff.mp heval
  have hgrows := ((h.start_safe hσ).of_ok hcall).1.roots
  exact Machine.startup_runs hl.placed h.regular hfind hat hs hσ hholds rfl (h.own_object hσ)
    (h.answers hl s.output) hcall hgrows hslot hheap

/-- An accepted program has a text, from which its listing is read, and a machine
    with this listing has loaded the program. -/
theorem loadedOn_of_analyze {source : String} {a : Analysis} (h : analyze source = .ok a)
    (hr : a.program.Representable) :
    ∃ text lines g, Generator.generate a.tables.classes a.program {} = .ok lines g ∧
      compile source = .ok text ∧ Line.readAll text = some lines ∧
      ∀ M : Machine, M.lines = lines → M.WellPlaced → a.program.LoadedOn M := by
  obtain ⟨he, hclasses⟩ := elaborated_of_analyze h
  obtain ⟨t, g, hgen, ht, hsize, hc⟩ := he.exists_coded hr hclasses
  have htext : Generator.text a.tables.classes a.program {} = .ok (Line.renderAll t.lines) g :=
    estate_bind_ok_iff.mpr ⟨_, g, hgen, rfl⟩
  refine ⟨_, t.lines, g, hgen, compile_of_text h htext, readAll_of_analyze h ht, ?_⟩
  intro M hlines hM
  have hd : M.Distinct := by
    rw [Machine.Distinct, hlines]
    exact ht.nodup_labels hr.labels
  exact .of_lines hM hd hlines hsize hc

end Program

/-! ## A machine that runs programs -/

namespace Machine

/-- A machine whose instructions are counted, with its symbols, its stack and its
    heap one behind the other. -/
def flat (lines : List Line) : Machine where
  lines
  place := fun n => BitVec.ofNat 32 n
  symbol := fun x => if x = heapBase then 0 else if x = heapTop then 4 else 8
  stack := ⟨16, 65536⟩
  heap := ⟨65536, 131072⟩
  usedRegs := fun s => s.regs
  usedStack := fun s => s.memory

/-- Its state when the text was just called, and the run goes on behind the text
    afterwards. -/
def called (M : Machine) (start : Nat) : State where
  line := start
  regs := fun _ => M.slot 2
  memory := fun a =>
    if a = M.slot 1 then M.word 0 else if a = M.slot 2 then M.place M.lines.length else 0
  compared := none
  output := []

variable {lines : List Line}

theorem wellPlaced_flat (h : lines.length < 2 ^ 32) : (flat lines).WellPlaced where
  stackWhole := by simp [flat]
  stackEnd := by simp [flat]
  heapWhole := by simp [flat]
  heapEnd := by simp [flat]
  apart := Or.inl (Nat.le_refl _)
  symbolsWhole := by simp [flat, heapBase, heapTop]
  symbolsApart := by simp [flat, heapBase, heapTop]
  symbolsOutside := by simp [flat, heapBase, heapTop, Area.Holds]
  places := by
    have hle : ∀ {n}, (flat lines).isCode n = true → n ≤ lines.length := by
      intro n hn
      unfold isCode at hn
      split at hn
      · next hline => exact Nat.le_of_lt (List.getElem?_eq_some_iff.mp hline).1
      · cases hn
      · exact Nat.le_of_eq (beq_iff_eq.mp hn)
    intro i j hi hj heq
    have hi := hle hi
    have hj := hle hj
    have hnat := congrArg BitVec.toNat heq
    simp only [flat, BitVec.toNat_ofNat] at hnat
    omega

theorem starts_called (h : lines.length < 2 ^ 32) {known : Known}
    (hsize : known.objectSize "Program" ≤ 65536) {start : Nat}
    (hstart : (flat lines).find startRoutine = some start) :
    (flat lines).Starts known 1 lines.length ((flat lines).called start) where
  line := hstart
  deep := Nat.le_refl 1
  esp := rfl
  arg := by simp [called]
  code := by simp [isCode, flat]
  back := by
    have hslots : (flat lines).slot 2 ≠ (flat lines).slot 1 := by
      intro heq
      have := (slot_inj (wellPlaced_flat h) ⟨by omega, by simp [flat]⟩ ⟨by omega, by simp [flat]⟩).mp heq
      omega
    simp only [called, if_neg hslots, if_true]
    rfl
  zero := by
    intro i hi
    have hM := wellPlaced_flat h
    obtain ⟨j, hj⟩ := known.objectSize_dvd "Program"
    have hword : (flat lines).HasWord (4 * i) := by
      refine ⟨by omega, ⟨i, rfl⟩, ?_⟩
      simp only [flat]
      omega
    have hslot : ∀ d, 1 ≤ d → d ≤ 2 → (flat lines).word (4 * i) ≠ (flat lines).slot d := by
      intro d h1 h2
      refine word_ne_slot hM hword ⟨h1, ?_⟩
      simp only [flat]
      omega
    simp only [called, if_neg (hslot 1 (Nat.le_refl 1) (by omega)),
      if_neg (hslot 2 (by omega) (Nat.le_refl 2))]

end Machine

namespace Program

set_option maxRecDepth 8192 in
/-- What becomes of the sample. -/
theorem sample_evaluates :
    ∃ a lines g σ start, analyze sample = .ok a ∧
      Generator.generate a.tables.classes a.program {} = .ok lines g ∧
      a.program.evaluate = .ok σ ∧ lines.findIdx? (·.isLabel startRoutine) = some start ∧
      a.program.Representable ∧ lines.length < 1024 ∧ Routine.room a.program.routines < 1024 ∧
      a.program.known.objectSize "Program" < 1024 ∧
      a.program.known.roomOf σ.roots < 1024 ∧ σ.printed = [3] := by
  have h : (match analyze sample with
      | .ok a =>
        match Generator.generate a.tables.classes a.program {}, a.program.evaluate with
        | .ok lines _, .ok σ =>
          (lines.findIdx? (·.isLabel startRoutine)).isSome &&
            decide (a.program.Representable ∧ lines.length < 1024 ∧
              Routine.room a.program.routines < 1024 ∧
              a.program.known.objectSize "Program" < 1024 ∧
              a.program.known.roomOf σ.roots < 1024 ∧ σ.printed = [3])
        | _, _ => false
      | .error _ => false) = true := by
    cbv
  split at h
  · next a ha =>
    split at h
    · next lines g σ hg hσ =>
      rw [Bool.and_eq_true, Option.isSome_iff_exists] at h
      obtain ⟨⟨start, hstart⟩, hrest⟩ := h
      exact ⟨a, lines, g, σ, start, ha, hg, hσ, hstart, of_decide_eq_true hrest⟩
    · cases h
  · cases h

end Program

end ClassLang
