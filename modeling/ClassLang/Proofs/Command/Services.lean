import ClassLang.Proofs.Command.Lines
import ClassLang.Proofs.Token.Trailing

/-! # What the services are known to do

    * **`Services.Lawful`** is what the command relies on: a text is handed over
      whole, up to blanks at its end, and a line of the log is one line.
    * **`Services.plain_lawful`**: plain services do this.
    * **`Services.Lawful.runWith_eq`**: what is handed over is compiled as the text
      of the input is.
    * **`Services.Lawful.exists_logged`**: a log consists of lines. -/

namespace ClassLang

namespace Command

open Text

/-! ## Lawful services -/

/-- Of the command line nothing is asked: whatever it is read as, the command does
    what the options say. -/
structure Services.Lawful (services : Services) : Prop where
  /-- An input that is a text is handed over.  Blanks at its end may be left out. -/
  contents : ∀ {input w text}, w.text input = .ok text → ∃ source blanks,
    services.contents input w = .ok source ∧ text.toList = source.toList ++ blanks ∧
    ∀ b ∈ blanks, isBlank b = true
  /-- An input that cannot be read, or is no text, is not handed over, and the reason
      is told in one line. -/
  reason : ∀ {input w e}, w.text input = .error e →
    ∃ reason, services.contents input w = .error reason ∧ Unbroken reason
  /-- The log leaves out what is too detailed. -/
  hidden : ∀ {most : Severity} {moment} {event : Event}, most.level < event.severity.level →
    services.logged most moment event = ""
  /-- Any other event takes a line of the log, and if its values have no line feed, then
      one line only. -/
  line : ∀ {most : Severity} {moment} {event : Event}, event.severity.level ≤ most.level →
    ∃ line, services.logged most moment event = line ++ "\n" ∧ (event.Unbroken → Unbroken line)

/-! ## Plain services -/

theorem SystemError.unbroken_message (e : SystemError) : Unbroken e.message := by
  cases e <;> decide

end Command

open Text

theorem Severity.unbroken_text (s : Severity) : Text.Unbroken s.text := by
  cases s <;> decide

theorem Event.unbroken_source (e : Event) : Text.Unbroken e.source := by
  unfold source
  split <;> decide

theorem Event.unbroken_message (e : Event) : Text.Unbroken e.message := by
  unfold message
  split <;> decide

theorem Event.unbroken_keys (e : Event) : ∀ key ∈ e.fields.map Prod.fst, Text.Unbroken key := by
  unfold fields
  split <;> simp only [List.map_cons, List.map_nil] <;> decide

theorem Detail.unbroken_shown {d : Detail} (h : d.Unbroken) : Text.Unbroken d.shown := by
  cases d with
  | text shown => exact h
  | name s => exact unbroken_quoted s
  | number n => exact unbroken_int n

theorem Event.unbroken_line {e : Event} (h : e.Unbroken) : Text.Unbroken e.line := by
  simp only [line, unbroken_append]
  refine ⟨⟨⟨⟨⟨e.severity.unbroken_text, by decide⟩, e.unbroken_source⟩, by decide⟩,
    e.unbroken_message⟩, unbroken_join fun shown hshown => ?_⟩
  obtain ⟨f, hf, rfl⟩ := List.mem_map.mp hshown
  simp only [unbroken_append]
  exact ⟨⟨⟨by decide, e.unbroken_keys _ (List.mem_map_of_mem hf)⟩, by decide⟩,
    Detail.unbroken_shown (h f hf)⟩

namespace Command

/-- Plain services hand over all of a text, and their log needs no more than the
    values of an event to have no line feed. -/
theorem Services.plain_lawful : Services.plain.Lawful where
  contents {input w text} h := ⟨text, [], by simp [plain, h, Except.mapError], by simp, by simp⟩
  reason {input w e} h := ⟨e.message, by simp [plain, h, Except.mapError], e.unbroken_message⟩
  hidden h := if_neg (Nat.not_le.mpr h)
  line {most moment event} h := ⟨event.line, if_pos h, Event.unbroken_line⟩

/-! ## The text that is compiled -/

variable {services : Services} {o : Options} {w : World}

/-- What is compiled need not be the whole text of the input. -/
theorem Services.Lawful.runWith_eq {text : String} (h : services.Lawful)
    (htext : w.text o.input = .ok text) :
    runWith services o w = deliver o w (compile services o text) := by
  -- the blanks that may be missing at the end do not matter
  obtain ⟨source, blanks, hsource, hend, hblanks⟩ := h.contents htext
  have hsame : compile services o source = compile services o text := by
    unfold compile
    rw [Program.analyzeLogged_append_blanks hend hblanks]
  rw [runWith, hsource, ← hsame]

/-! ## The log -/

/-- A line that the log writes of one of these events. -/
def Logged (services : Services) (most : Severity) (journal : List Event) (line : String) :
    Prop :=
  Unbroken line ∧ ∃ moment, ∃ event ∈ journal, event.severity.level ≤ most.level ∧
    services.logged most moment event = line ++ "\n"

theorem logText_cons (most : Severity) (moment : Nat) (event : Event) (journal : List Event) :
    logText services most moment (event :: journal) =
      services.logged most moment event ++ logText services most (moment + 1) journal := by
  have hshift : (fun i e => services.logged most (moment + (i + 1)) e) =
      fun i e => services.logged most (moment + 1 + i) e := by
    funext i e
    rw [Nat.add_assoc, Nat.add_comm 1]
  simp only [logText, List.mapIdx_cons, String.join_cons, Nat.add_zero, hshift]

/-- A log of events without line feeds consists of whole lines. -/
theorem Services.Lawful.exists_logged (h : services.Lawful) (most : Severity) (moment : Nat)
    {journal : List Event} (hjournal : ∀ event ∈ journal, event.Unbroken) :
    ∃ log : List String, logText services most moment journal = String.join (log.map (· ++ "\n")) ∧
      ∀ line ∈ log, Logged services most journal line := by
  induction journal generalizing moment with
  | nil => exact ⟨[], rfl, by simp⟩
  | cons event journal ih =>
    obtain ⟨log, hlog, hlines⟩ := ih (moment + 1) fun e he => hjournal e (List.mem_cons_of_mem _ he)
    have hlines : ∀ line ∈ log, Logged services most (event :: journal) line := by
      intro line hline
      obtain ⟨hunbroken, moment, e, he, hshown⟩ := hlines line hline
      exact ⟨hunbroken, moment, e, List.mem_cons_of_mem _ he, hshown⟩
    rw [logText_cons, hlog]
    -- the first event is shown or left out
    by_cases hlevel : event.severity.level ≤ most.level
    · have hshown : ∃ line, services.logged most moment event = line ++ "\n" ∧
          (event.Unbroken → Unbroken line) := h.line hlevel
      obtain ⟨line, hline, hunbroken⟩ := hshown
      refine ⟨line :: log, by simp [hline, String.join_cons], ?_⟩
      have hfirst : Logged services most (event :: journal) line :=
        ⟨hunbroken (hjournal event List.mem_cons_self), moment, event, List.mem_cons_self, hlevel,
          hline⟩
      simpa [hfirst] using hlines
    · rw [h.hidden (Nat.lt_of_not_le hlevel)]
      exact ⟨log, by simp, hlines⟩

end Command

end ClassLang
