import ClassLang.Proofs.Command.FileSystem
import ClassLang.Proofs.Command.Services

/-! # The command does all or nothing

    * **`Command.compile_result`**: what a text is compiled to does not depend on
      the options, nor on the services.
    * **`Delivered`**: the assembly is where it belongs, and nowhere else.
    * **`Diagnosed`**: the standard error ends with one line, behind the lines
      of the log.
    * **`AllOrNothing`** is what a run of the command should leave behind, and
      **`Stuck`** what a fault of the generator leaves behind.
    * **`run_allOrNothing`**: with lawful services, every run on an input whose
      lines can be counted leaves behind one of the two, and the options that
      are for messages only change no more than the messages. -/

namespace ClassLang

namespace Command

open Text

variable {services : Services}

/-! ## One text -/

/-- Neither the options nor the services touch what a text is compiled to. -/
theorem compile_result (services : Services) (o : Options) (source : String) :
    (compile services o source).result = (Program.compile source).mapError exitStatus := by
  unfold compile Program.compile Program.analyze
  dsimp only
  cases (Program.analyzeLogged source).2 with
  | error e => rfl
  | ok a =>
    show Compilation.result _ = a.assemble.2.mapError exitStatus
    dsimp only
    cases a.assemble.2 <;> rfl

/-- What happened before an error was logged. -/
theorem exists_journal {source : String} {e : Failure} (h : Program.analyze source = .error e) :
    ∃ journal, Program.analyzeLogged source = (journal, .error e) := ⟨_, Prod.ext rfl h⟩

/-! ## Runs as they should be -/

/-- The input can be read, and its program is accepted. -/
def Accepts (o : Options) (w : World) : Prop :=
  ∃ source a, w.text o.input = .ok source ∧ Program.analyze source = .ok a

/-- The text is in the output file, or else on the standard output; nothing else
    is written. -/
def Delivered (o : Options) (w : World) (text : String) (r : Report) : Prop :=
  match o.output with
  | none => r.stdout = text ∧ r.fileSystem = w.fileSystem
  | some path => r.stdout = "" ∧ w.fileSystem.Wrote path text.toUTF8 r.fileSystem

/-- The standard error is one line behind lines of the log. -/
def Diagnosed (services : Services) (o : Options) (r : Report) : Prop :=
  ∃ (log : List String) (message : String) (journal : List Event),
    r.stderr = String.join (log.map (· ++ "\n")) ++ message ++ "\n" ∧ Unbroken message ∧
    ∀ line ∈ log, Logged services (mostDetailed o.verbosity) journal line

/-- What a run leaves behind: the whole assembly of an accepted program, or
    nothing but a message. -/
structure AllOrNothing (services : Services) (o : Options) (w : World) (r : Report) : Prop where
  status : r.status = 0 ∨ r.status = 1
  accepted : r.status = 0 ↔ Accepts o w
  success : r.status = 0 → ∃ source text, w.text o.input = .ok source ∧
    Program.compile source = .ok text ∧ Delivered o w text r
  failure : r.status = 1 → r.fileSystem = w.fileSystem ∧ r.stdout = "" ∧ Diagnosed services o r

/-- What a fault leaves behind, which the generator can meet only where methods
    share a label or a size is no word. -/
structure Stuck (o : Options) (w : World) (r : Report) : Prop where
  status : r.status = 101
  fault : ∃ source a f, w.text o.input = .ok source ∧ Program.analyze source = .ok a ∧
    ¬ a.program.Representable ∧ Program.compile source = .error (.fault f)
  unchanged : r.fileSystem = w.fileSystem ∧ r.stdout = ""

/-- Two runs differ in their messages only. -/
def SameBesidesMessages (r r' : Report) : Prop :=
  r'.status = r.status ∧ r'.stdout = r.stdout ∧ r'.fileSystem = r.fileSystem

/-! ## The ways of a run -/

section runs

variable {o : Options} {w : World} {r : Report} {source : String}

/-- A run that leaves nothing but a message is right if there is no accepted
    program. -/
theorem AllOrNothing.of_failure (hno : ¬ Accepts o w) (hstatus : r.status = 1)
    (hsame : r.fileSystem = w.fileSystem) (hempty : r.stdout = "")
    (hmessage : Diagnosed services o r) : AllOrNothing services o w r where
  status := .inr hstatus
  accepted := by
    rw [hstatus]
    exact ⟨fun h => absurd h (by decide), fun h => absurd h hno⟩
  success h := absurd (hstatus.symm.trans h) (by decide)
  failure _ := ⟨hsame, hempty, hmessage⟩

/-- A run that delivers the text of an accepted program is right. -/
theorem AllOrNothing.of_success {text : String} (hyes : Accepts o w) (hstatus : r.status = 0)
    (hsource : w.text o.input = .ok source) (hcompile : Program.compile source = .ok text)
    (hdelivered : Delivered o w text r) : AllOrNothing services o w r where
  status := .inl hstatus
  accepted := iff_of_true hstatus hyes
  success _ := ⟨source, text, hsource, hcompile, hdelivered⟩
  failure h := absurd (hstatus.symm.trans h) (by decide)

/-- Without a source text there is nothing but a message. -/
theorem Services.Lawful.allOrNothing_unreadable (hs : services.Lawful) {e : SystemError}
    (h : w.text o.input = .error e) : AllOrNothing services o w (runWith services o w) := by
  have hno : ¬ Accepts o w := by
    rintro ⟨source, a, hsource, _⟩
    rw [h] at hsource
    cases hsource
  obtain ⟨reason, hreason, hunbroken⟩ := hs.reason h
  unfold runWith
  rw [hreason]
  apply AllOrNothing.of_failure hno rfl rfl rfl
  refine ⟨[], "error: cannot read input: " ++ reason, [], rfl, ?_, by simp⟩
  exact unbroken_append.mpr ⟨by decide, hunbroken⟩

/-- Where no text is made, nothing is written. -/
theorem deliver_of_error {compiled : Compilation} {status : Nat}
    (h : compiled.result = .error status) :
    deliver o w compiled =
      { status, stderr := compiled.messages, fileSystem := w.fileSystem } := by
  unfold deliver
  dsimp only
  rw [h]

/-- A rejected program leaves nothing but its error. -/
theorem Services.Lawful.allOrNothing_rejected (hs : services.Lawful) {e : Failure}
    (hsource : w.text o.input = .ok source) (h : Program.analyze source = .error e) :
    AllOrNothing services o w (runWith services o w) := by
  have hno : ¬ Accepts o w := by
    rintro ⟨other, a, hother, ha⟩
    rw [hsource] at hother
    cases hother
    rw [h] at ha
    cases ha
  obtain ⟨journal, hjournal⟩ := exists_journal h
  obtain ⟨hstatus, hmessage, hunbroken⟩ := Program.unbroken_of_analyze hjournal
  -- the log are the lines of what happened before the error
  obtain ⟨log, hlog, hlines⟩ := hs.exists_logged (mostDetailed o.verbosity) 0 hunbroken
  have hcompiled : compile services o source =
      { messages := String.join (log.map (· ++ "\n")) ++ e.message ++ "\n"
        result := .error 1 } := by
    rw [← hstatus, ← hlog]
    unfold compile
    rw [hjournal]
  rw [hs.runWith_eq hsource, deliver_of_error (congrArg Compilation.result hcompiled), hcompiled]
  exact .of_failure hno rfl rfl rfl ⟨log, e.message, journal, rfl, hmessage, hlines⟩

/-- The text of an accepted program is delivered. -/
theorem Services.Lawful.allOrNothing_written (hs : services.Lawful) {text : String}
    (hsource : w.text o.input = .ok source) (hyes : Accepts o w)
    (hout : ∀ path ∈ o.output, w.fileSystem.Writable path)
    (h : Program.compile source = .ok text) :
    AllOrNothing services o w (runWith services o w) := by
  have hresult : (compile services o source).result = .ok text := by
    rw [compile_result, h]
    rfl
  have hrun : (deliver o w (compile services o source)).status = 0 ∧
      Delivered o w text (deliver o w (compile services o source)) := by
    unfold deliver Delivered
    dsimp only
    rw [hresult]
    cases hpath : o.output with
    | none => exact ⟨rfl, rfl, rfl⟩
    | some path =>
      -- that the file can be written was asked for some bytes only
      obtain ⟨fileSystem, hwrite⟩ := (hout path hpath).write text.toUTF8
      dsimp only
      rw [hwrite]
      exact ⟨rfl, rfl, FileSystem.wrote_of_write hwrite⟩
  rw [hs.runWith_eq hsource]
  exact .of_success hyes hrun.1 hsource h hrun.2

end runs

/-! ## Faults -/

/-- A program that is accepted and representable is compiled. -/
theorem compile_ok_of_representable {source : String} {a : Analysis}
    (h : Program.analyze source = .ok a) (hr : a.program.Representable) :
    ∃ text, Program.compile source = .ok text := by
  obtain ⟨he, hclasses⟩ := Program.elaborated_of_analyze h
  obtain ⟨codes, g, hgen, _⟩ := Generator.generate_ok he hr hclasses
  obtain ⟨text, htext⟩ : ∃ text, Generator.text a.tables.classes a.program {} = .ok text g :=
    ⟨_, estate_bind_ok_iff.mpr ⟨_, g, hgen, rfl⟩⟩
  exact ⟨text, Program.compile_of_text h htext⟩

/-- A program that meets a fault was accepted: the analysis meets none. -/
theorem analyze_of_fault {source : String} {f : Fault}
    (h : Program.compile source = .error (.fault f)) : ∃ a, Program.analyze source = .ok a := by
  cases ha : Program.analyze source with
  | ok a => exact ⟨a, rfl⟩
  | error e =>
    have he : e = .fault f := by
      rw [Program.compile, ha] at h
      cases h
      rfl
    obtain ⟨journal, hjournal⟩ := exists_journal ha
    obtain ⟨hstatus, _⟩ := Program.unbroken_of_analyze hjournal
    rw [he] at hstatus
    cases hstatus

/-- Only a fault keeps an accepted program from being compiled, and it leaves
    nothing behind. -/
theorem Services.Lawful.stuck_of_error (hs : services.Lawful) {o : Options} {w : World}
    {source : String} {a : Analysis} {e : Failure} (hsource : w.text o.input = .ok source)
    (ha : Program.analyze source = .ok a) (h : Program.compile source = .error e) :
    Stuck o w (runWith services o w) := by
  have hassemble : a.assemble.2 = .error e := by
    rw [← h, Program.compile, ha]
    rfl
  obtain ⟨f, rfl⟩ : ∃ f, e = .fault f := by
    unfold Analysis.assemble at hassemble
    split at hassemble
    · cases hassemble
    · exact ⟨_, (Except.error.inj hassemble).symm⟩
  have hresult : (compile services o source).result = .error 101 := by
    rw [compile_result, h]
    rfl
  rw [hs.runWith_eq hsource, deliver_of_error hresult]
  refine ⟨rfl, ⟨source, a, f, hsource, ha, ?_, h⟩, rfl, rfl⟩
  intro hr
  obtain ⟨text, htext⟩ := compile_ok_of_representable ha hr
  rw [h] at htext
  cases htext

/-! ## Options for messages -/

/-- Where a text is written depends on its assembly only, not on the messages. -/
theorem deliver_sameBesidesMessages {o o' : Options} {w : World} {compiled compiled' : Compilation}
    (hresult : compiled'.result = compiled.result) (houtput : o'.output = o.output) :
    SameBesidesMessages (deliver o w compiled) (deliver o' w compiled') := by
  unfold deliver
  rw [hresult, houtput]
  cases compiled.result with
  | error status => exact ⟨rfl, rfl, rfl⟩
  | ok text =>
    cases o.output with
    | none => exact ⟨rfl, rfl, rfl⟩
    | some path =>
      dsimp only
      cases w.fileSystem.write path text.toUTF8 with
      | error e => exact ⟨rfl, rfl, rfl⟩
      | ok fileSystem => exact ⟨rfl, rfl, rfl⟩

/-- Options that ask for the same input and the same output differ in the
    messages only. -/
theorem runWith_sameBesidesMessages {o o' : Options} (services : Services) (w : World)
    (hinput : o'.input = o.input) (houtput : o'.output = o.output) :
    SameBesidesMessages (runWith services o w) (runWith services o' w) := by
  unfold runWith
  rw [hinput]
  cases services.contents o.input w with
  | error reason => exact ⟨rfl, rfl, rfl⟩
  | ok source =>
    have hresult : (compile services o' source).result = (compile services o source).result := by
      rw [compile_result, compile_result]
    exact deliver_sameBesidesMessages hresult houtput

/-! ## The whole command -/

/-- A command line that can be read is run as its options say. -/
theorem Services.run_eq {args : List String} {o : Options} {w : World}
    (hargs : services.options args = some o) :
    services.run args w = some (runWith services o w) := by
  rw [Services.run, hargs]
  rfl

/-- Where the lines of the input can be counted, so that each of which a run
    tells has a number, every run on a writable output does all or nothing,
    except that a fault of the generator, which only a program with clashing
    labels or a size that is no word can bring about, ends it with a status of
    its own.  Options for messages change nothing but messages. -/
theorem run_allOrNothing (hs : services.Lawful) {args : List String} {o : Options} {w : World}
    (hargs : services.options args = some o)
    (hout : ∀ path ∈ o.output, w.fileSystem.Writable path)
    (hlines : ∀ source, w.text o.input = .ok source → FewLines source) :
    (∀ source, w.text o.input = .ok source → Token.CountsLines source) ∧
    ∃ r, services.run args w = some r ∧ (AllOrNothing services o w r ∨ Stuck o w r) ∧
      ∀ args' o', services.options args' = some o' → o'.input = o.input →
        o'.output = o.output → ∃ r', services.run args' w = some r' ∧ SameBesidesMessages r r' := by
  refine ⟨fun source hsource => (hlines source hsource).counts, runWith services o w,
    Services.run_eq hargs, ?_, ?_⟩
  -- a run ends where there is no text, no program, no assembly, or all of them
  · cases hsource : w.text o.input with
    | error e => exact .inl (hs.allOrNothing_unreadable hsource)
    | ok source =>
      cases ha : Program.analyze source with
      | error e => exact .inl (hs.allOrNothing_rejected hsource ha)
      | ok a =>
        cases h : Program.compile source with
        | error e => exact .inr (hs.stuck_of_error hsource ha h)
        | ok text => exact .inl (hs.allOrNothing_written hsource ⟨source, a, hsource, ha⟩ hout h)
  · intro args' o' hargs' hinput houtput
    exact ⟨_, Services.run_eq hargs', runWith_sameBesidesMessages services w hinput houtput⟩

/-! ## Two runs -/

/-- The bytes of a text are read as this text. -/
theorem World.text_stdin (source : String) :
    World.text { stdin := source.toUTF8 } none = .ok source := by
  have hvalid : source.toUTF8.IsValidUTF8 := source.isValidUTF8
  show decodeText source.toUTF8 = .ok source
  unfold decodeText
  rw [String.fromUTF8?, dif_pos hvalid]
  rfl

/-- In an empty directory a file can be written. -/
theorem writable_empty : FileSystem.Writable {} "a" := by
  have hroute : Route.ofString "a" = .ok ⟨false, ["a"], false⟩ := by
    have hparts : "a".splitOn "/" = ["a"] := by cbv
    unfold Route.ofString
    rw [hparts]
    rfl
  have hleads : FileSystem.Leads {} "a" ["a"] := ⟨_, hroute, rfl, rfl⟩
  have hnew : FileSystem.entry? {} ["a"] = none := rfl
  exact ⟨.empty, _, FileSystem.write_ok_iff.mpr ⟨_, hleads, by simp [hnew], rfl⟩⟩

theorem fewLines_sample : FewLines Program.sample := .of_size (by decide +kernel)

theorem run_allOrNothing_sample :
    Services.plain.Lawful ∧
    ∃ o r, Services.plain.options ["-v", "-o", "a"] = some o ∧
      (∀ path ∈ o.output, FileSystem.Writable {} path) ∧
      (∀ source, World.text { stdin := Program.sample.toUTF8 } o.input = .ok source →
        FewLines source) ∧
      run ["-v", "-o", "a"] { stdin := Program.sample.toUTF8 } = some r ∧
      AllOrNothing .plain o { stdin := Program.sample.toUTF8 } r ∧ r.status = 0 := by
  have hparse : Services.plain.options ["-v", "-o", "a"] =
      some { output := some "a", verbosity := 1 } := by
    show Options.parse _ = _
    cbv
  have hout : ∀ path ∈ some "a", FileSystem.Writable {} path := by
    rintro _ ⟨⟩
    exact writable_empty
  have hsource := World.text_stdin Program.sample
  have hlines : ∀ source, World.text { stdin := Program.sample.toUTF8 } none = .ok source →
      FewLines source := by
    intro source h
    rw [hsource] at h
    cases h
    exact fewLines_sample
  obtain ⟨-, r, hrun, hr, -⟩ := run_allOrNothing (w := { stdin := Program.sample.toUTF8 })
    Services.plain_lawful hparse hout hlines
  obtain ⟨a, ha, hrepresentable⟩ := Program.sample_accepted
  refine ⟨Services.plain_lawful, _, r, hparse, hout, hlines, hrun, ?_⟩
  -- the sample is representable, so that this is no fault
  rcases hr with hr | hr
  · exact ⟨hr, hr.accepted.mpr ⟨_, a, hsource, ha⟩⟩
  · obtain ⟨source, a', f, hsource', ha', hnot, _⟩ := hr.fault
    cases hsource.symm.trans hsource'
    cases ha.symm.trans ha'
    exact absurd hrepresentable hnot

/-- A program with two methods of one label, the second of which has a variable
    that the first has not. -/
def sharing : String :=
  "class A { int b_c(int p) { return p; } } class A_b { int c() { int q; q = 1; return q; } }
class Program { nothing start() { return nothing; } }"

set_option maxRecDepth 4096 in
/-- The generator does not find the variable in the frame of the first method. -/
theorem compile_sharing :
    Program.compile sharing = .error (.fault (.unresolvedVariable "q")) := by
  cbv

theorem fewLines_sharing : FewLines sharing := .of_size (by decide +kernel)

/-- Such a program is accepted, and the command fails all the same. -/
theorem run_not_allOrNothing :
    Services.plain.Lawful ∧ FewLines sharing ∧
    ∃ r, run [] { stdin := sharing.toUTF8 } = some r ∧
      Accepts {} { stdin := sharing.toUTF8 } ∧ r.status = 101 ∧
      ¬ AllOrNothing .plain {} { stdin := sharing.toUTF8 } r := by
  obtain ⟨a, ha⟩ := analyze_of_fault compile_sharing
  have hparse : Services.plain.options [] = some {} := by
    show Options.parse [] = some {}
    cbv
  have hsource := World.text_stdin sharing
  have hstuck := Services.plain_lawful.stuck_of_error (o := {}) hsource ha compile_sharing
  refine ⟨Services.plain_lawful, fewLines_sharing, _, Services.run_eq hparse,
    ⟨sharing, a, hsource, ha⟩, hstuck.status, ?_⟩
  intro hr
  rcases hr.status with h | h
  · exact absurd (hstuck.status.symm.trans h) (by decide)
  · exact absurd (hstuck.status.symm.trans h) (by decide)

end Command

end ClassLang
