import ClassLang.Proofs.Layout.Sizes
import ClassLang.Proofs.Lowering.Loading

/-! # Texts that are made again

    A generator that has made the text of a program makes it again, with later
    labels and from the layouts that it remembers.

    * **`Layouts.Within`**: nothing that is remembered is lost.
    * **`Layouts.Settles`**: once a layout is computed, computing it again gives
      it again and changes nothing.
    * **`Generator.Repeats`** compares two runs of the generator.  The second
      starts where the first ended, or later: it comes to the same lines, moved
      on by the labels that were taken in between, and leaves the layouts as
      they are.
    * **`Generator.generate_again`** and **`Program.regenerated`** are about whole
      texts. -/

namespace ClassLang

/-! ## Layouts -/

namespace Layouts

variable {defs : List ClassDecl} {l l' : Layouts} {cls : String}

/-- All that the first layouts remember is remembered by the second. -/
structure Within (l l' : Layouts) : Prop where
  objects : Extends l l'
  frames : ∀ label frame, l.frames.lookup label = some frame →
    l'.frames.lookup label = some frame

theorem Within.refl (l : Layouts) : l.Within l := ⟨fun _ _ => id, fun _ _ => id⟩

theorem Within.trans {l'' : Layouts} (h : l.Within l') (h' : l'.Within l'') : l.Within l'' where
  objects := fun cls layout hl => h'.objects cls layout (h.objects cls layout hl)
  frames := fun label frame hl => h'.frames label frame (h.frames label frame hl)

/-- A step that loses nothing, and that is not taken again where its result is
    remembered. -/
def Settles (defs : List ClassDecl) {α : Type} (step : Build α) : Prop :=
  ∀ ⦃l a l'⦄, Faithful defs l → step l = .ok a l' →
    Faithful defs l' ∧ l.Within l' ∧ ∀ ⦃later⦄, l'.Within later → step later = .ok a later

theorem settles_layoutClass (hacyclic : Acyclic defs) (cls : String) :
    Settles defs (layoutClass defs cls) := by
  intro l layout l' hfaithful h
  obtain ⟨_, hfaithful', hextends⟩ := tracks_layoutClass hacyclic cls l hfaithful
  rw [h] at hfaithful' hextends
  have hframes : l'.frames = l.frames := layoutUpTo_frames defs _ _ _ _ _ h
  refine ⟨hfaithful', ⟨hextends, ?_⟩, ?_⟩
  · intro label frame hlabel
    rwa [hframes]
  · intro later hlater
    exact layoutUpTo_of_remembered defs (hlater.objects cls layout (object?_of_layoutUpTo h)) _

/-- A remembered frame is not computed again. -/
theorem layoutFrame_of_remembered {m : Method} {frame : Frame}
    (h : l.frame? cls m.name = some frame) : layoutFrame cls m l = .ok frame l := by
  refine estate_bind_ok_iff.mpr ⟨l, l, rfl, ?_⟩
  rw [h]
  rfl

theorem settles_layoutFrame (cls : String) (m : Method) : Settles defs (layoutFrame cls m) := by
  intro l frame l' hfaithful h
  have hobjects : ∀ other, l'.object? other = l.object? other := by
    intro other
    have hobjects := layoutFrame_objects cls m l
    rw [h] at hobjects
    rw [object?, object?, ← hobjects]
    rfl
  -- either the frame was remembered, or it is now, under a label that was free
  have hframes : l'.frame? cls m.name = some frame ∧ ∀ label old,
      l.frames.lookup label = some old → l'.frames.lookup label = some old := by
    rcases layoutFrame_framed h with ⟨hframe, hsame⟩ | ⟨hnew, _, hadd⟩
    · rw [frame?, hsame]
      exact ⟨hframe, fun _ _ => id⟩
    · rw [frame?, hadd]
      refine ⟨by simp, ?_⟩
      intro label old hlabel
      have hne : label ≠ methodLabel cls m.name := by
        rintro rfl
        rw [hnew] at hlabel
        cases hlabel
      rw [List.lookup_cons, beq_false_of_ne hne]
      exact hlabel
  refine ⟨?_, ⟨?_, hframes.2⟩, ?_⟩
  · intro other layout hother
    exact hfaithful other layout (hobjects other ▸ hother)
  · intro other layout hother
    rw [hobjects]
    exact hother
  · intro later hlater
    exact layoutFrame_of_remembered (hlater.frames _ _ hframes.1)

end Layouts

/-! ## Two runs -/

namespace Generator

open Layouts (Faithful Settles)

/-- The second step repeats the first: where the first goes through, the second
    does so after `d` more labels and with the layouts that the first has left
    behind, or more of them.  It comes to what `act` makes of the first result,
    and leaves the layouts as they are. -/
def Repeats (defs : List ClassDecl) (d : Nat) {α β : Type} (act : α → β) (x : Gen α) (y : Gen β) :
    Prop :=
  ∀ ⦃g a g₁⦄, Faithful defs g.layouts → x g = .ok a g₁ →
    Faithful defs g₁.layouts ∧ g.layouts.Within g₁.layouts ∧
    ∀ ⦃h⦄, g₁.layouts.Within h.layouts → h.nextLabel = g.nextLabel + d →
      ∃ h₁, y h = .ok (act a) h₁ ∧ h₁.layouts = h.layouts ∧ h₁.nextLabel = g₁.nextLabel + d

namespace Repeats

variable {defs : List ClassDecl} {d : Nat} {α β γ δ : Type} {act : α → β} {act' : γ → δ}

theorem pure {a : α} {b : β} (hb : act a = b) :
    Repeats defs d act (Pure.pure a) (Pure.pure b) := by
  intro g a' g₁ hfaithful hx
  cases hx
  refine ⟨hfaithful, .refl _, ?_⟩
  intro h hwithin hnext
  exact ⟨h, hb ▸ rfl, rfl, hnext⟩

theorem bind {x : Gen α} {y : Gen β} {f : α → Gen γ} {k : β → Gen δ}
    (hx : Repeats defs d act x y) (hf : ∀ a, Repeats defs d act' (f a) (k (act a))) :
    Repeats defs d act' (x >>= f) (y >>= k) := by
  intro g c g₂ hfaithful hc
  obtain ⟨a, g₁, ha, hc⟩ := estate_bind_ok_iff.mp hc
  obtain ⟨hfaithful₁, hwithin₁, hagain₁⟩ := hx hfaithful ha
  obtain ⟨hfaithful₂, hwithin₂, hagain₂⟩ := hf a hfaithful₁ hc
  refine ⟨hfaithful₂, hwithin₁.trans hwithin₂, ?_⟩
  -- the second run has all the layouts from the start, and `x` needs a part of them
  intro h hwithin hnext
  obtain ⟨h₁, hy, hlayouts₁, hnext₁⟩ := hagain₁ (hwithin₂.trans hwithin) hnext
  obtain ⟨h₂, hk, hlayouts₂, hnext₂⟩ := hagain₂ (hlayouts₁ ▸ hwithin) hnext₁
  exact ⟨h₂, estate_bind_ok_iff.mpr ⟨act a, h₁, hy, hk⟩, hlayouts₂.trans hlayouts₁, hnext₂⟩

theorem tell (events events' : List Event) :
    Repeats defs d id (Generator.tell events) (Generator.tell events') := by
  intro g a g₁ hfaithful hx
  cases hx
  refine ⟨hfaithful, .refl _, ?_⟩
  intro h hwithin hnext
  exact ⟨{ h with journal := h.journal ++ events' }, rfl, rfl, hnext⟩

/-- A layout that settles is repeated as it is. -/
theorem of_lays {x : Gen α} {step : Layouts.Build α} (hx : Lays x step)
    (hstep : Settles defs step) : Repeats defs d id x x := by
  intro g a g₁ hfaithful ha
  obtain ⟨hsame, hlaid⟩ := hx.of_ok ha
  obtain ⟨hfaithful₁, hwithin₁, hagain⟩ := hstep hfaithful hlaid
  refine ⟨hfaithful₁, hwithin₁, ?_⟩
  intro h hwithin hnext
  obtain ⟨h₁, hy, hlayouts, hsame₁⟩ := hx.ok (hagain hwithin)
  exact ⟨h₁, hy, hlayouts, by rw [hsame₁, hnext, hsame]⟩

theorem mapM {f : γ → Gen α} {k : γ → Gen β} (hf : ∀ c, Repeats defs d act (f c) (k c)) :
    ∀ cs : List γ, Repeats defs d (List.map act) (cs.mapM f) (cs.mapM k)
  | [] => .pure rfl
  | c :: cs => by
    rw [List.mapM_cons, List.mapM_cons]
    exact .bind (hf c) fun _ => .bind (mapM hf cs) fun _ => .pure rfl

end Repeats

/-! ## The generator -/

section runs

variable {defs : List ClassDecl} {d : Nat} {classes : Hierarchy}

theorem emit_ok {α : Type} {code : Emit α} {g : Generator} {a : α} {n : Nat}
    (h : code g.nextLabel = .ok (a, n)) : emit code g = .ok a { g with nextLabel := n } := by
  have hrun : code.run g.nextLabel = .ok (a, n) := h
  simp only [emit, hrun]

/-- The code of a method is repeated with later labels. -/
theorem method_repeats (cls : String) (object : ObjectLayout) (m : Method) :
    Repeats defs d (shiftAll d) (method classes cls object m) (method classes cls object m) := by
  refine .bind (.of_lays (lays_layoutFrame cls m) (Layouts.settles_layoutFrame cls m)) fun frame =>
    .bind (.tell _ _) fun _ => ?_
  -- what is left is the code, made at the same site but for its layouts
  intro g code g₁ hfaithful hcode
  obtain ⟨_, _, hget, hemit⟩ := estate_bind_ok_iff.mp hcode
  cases hget
  unfold emit at hemit
  split at hemit
  · next n' hlower =>
    cases hemit
    refine ⟨hfaithful, .refl _, ?_⟩
    intro h hwithin hnext
    have hmoved := m.lower_moves (d := d) hwithin.objects hlower
    rw [← hnext] at hmoved
    exact ⟨_, estate_bind_ok_iff.mpr ⟨h, h, rfl, emit_ok hmoved⟩, rfl, rfl⟩
  · cases hemit

/-- The code of a class is repeated with later labels. -/
theorem classCode_repeats (hacyclic : Layouts.Acyclic defs) (c : ClassDecl) :
    Repeats defs d (shiftAll d) (classCode classes defs c) (classCode classes defs c) := by
  refine .bind (.of_lays (lays_layoutClass defs c) (Layouts.settles_layoutClass hacyclic _))
    fun object => .bind (.mapM (method_repeats c.name object) c.methods) fun methods => .pure ?_
  rw [shiftAll_cons, shiftAll_flatten]
  rfl

/-- The code of a program is repeated with later labels. -/
theorem generate_repeats {p : Program} (hacyclic : Layouts.Acyclic p.classes) :
    Repeats p.classes d (shiftAll d) (generate classes p) (generate classes p) := by
  refine .bind (.mapM (classCode_repeats hacyclic) p.classes) fun code =>
    .bind (.of_lays (lays_build _) (Layouts.settles_layoutClass hacyclic _)) fun program =>
      .pure ?_
  have hpreamble : shiftAll d preamble = preamble := rfl
  have hstart : shiftAll d (startup program.size) = startup program.size := rfl
  rw [shiftAll_append, shiftAll_append, hpreamble, hstart, shiftAll_flatten]
  rfl

end runs

section texts

variable {p : Program} {classes : Hierarchy} {lines : List Line} {g : Generator}

/-- A generator that has made the code of a program makes it again from any
    later label. -/
theorem generate_again (hacyclic : Layouts.Acyclic p.classes)
    (h : generate classes p {} = .ok lines g) {g' : Generator} (hlayouts : g'.layouts = g.layouts) :
    ∃ g'', generate classes p g' = .ok (shiftAll g'.nextLabel lines) g'' ∧
      g''.layouts = g.layouts ∧ g''.nextLabel = g.nextLabel + g'.nextLabel := by
  obtain ⟨-, -, hagain⟩ := generate_repeats hacyclic Layouts.faithful_empty h
  have hwithin : g.layouts.Within g'.layouts := hlayouts ▸ Layouts.Within.refl g.layouts
  obtain ⟨g'', hrun, hsame, hnext⟩ := hagain hwithin (Nat.zero_add _).symm
  exact ⟨g'', hrun, hsame.trans hlayouts, hnext⟩

/-- The same any number of times: each text has the labels behind those of the
    one before. -/
theorem texts_again (hacyclic : Layouts.Acyclic p.classes)
    (h : generate classes p {} = .ok lines g) (k : Nat) (g' : Generator)
    (hlayouts : g'.layouts = g.layouts) :
    ∃ g'', (List.replicate k p).mapM (text classes) g' = .ok ((List.range k).map fun i =>
        Line.renderAll (shiftAll (g'.nextLabel + i * g.nextLabel) lines)) g'' ∧
      g''.layouts = g.layouts := by
  induction k generalizing g' with
  | zero => exact ⟨g', rfl, hlayouts⟩
  | succ k ih =>
    obtain ⟨g₁, hrun, hlayouts₁, hnext⟩ := generate_again hacyclic h hlayouts
    obtain ⟨g₂, hrest, hlayouts₂⟩ := ih g₁ hlayouts₁
    refine ⟨g₂, ?_, hlayouts₂⟩
    rw [List.replicate_succ, List.mapM_cons]
    refine estate_bind_ok_iff.mpr ⟨_, g₁, estate_bind_ok_iff.mpr ⟨_, g₁, hrun, rfl⟩, ?_⟩
    refine estate_bind_ok_iff.mpr ⟨_, g₂, hrest, ?_⟩
    have hsteps : (List.range k).map (fun i =>
          Line.renderAll (shiftAll (g₁.nextLabel + i * g.nextLabel) lines)) =
        (List.range k).map (fun i =>
          Line.renderAll (shiftAll (g'.nextLabel + (i + 1) * g.nextLabel) lines)) := by
      refine List.map_congr_left fun i _ => ?_
      congr 2
      rw [hnext, Nat.add_mul, Nat.one_mul]
      omega
    rw [hsteps, List.range_succ_eq_map, List.map_cons, List.map_map, Nat.zero_mul, Nat.add_zero]
    rfl

end texts

end Generator

/-! ## Accepted programs -/

namespace Program

/-- All lines that are made of an accepted program are legible. -/
theorem legible_of_analyze {source : String} {a : Analysis} (h : analyze source = .ok a)
    {t : Listing} {n n' : Nat} (ht : t.Of a.program n n') : ∀ l ∈ t.lines, l.Legible := by
  have hwords := isWord_of_analyze h
  have hpoint : ∀ x : String, Token.IsWord x.toList → '.' ∉ x.toList :=
    fun x hx hmem => absurd (hx.chars _ hmem) (by decide)
  refine ht.legible (elaborated_of_analyze h).1 (fun c hc => hpoint _ (hwords c hc).1) ?_
  intro x hx
  obtain ⟨c, hc, hx⟩ := List.mem_flatMap.mp hx
  obtain ⟨m, hm, rfl⟩ := List.mem_map.mp hx
  simp only [methodLabel, String.toList_append, List.mem_append, not_or]
  exact ⟨⟨hpoint _ (hwords c hc).1, by decide⟩, hpoint _ ((hwords c hc).2 m hm)⟩

/-- A generator that has made a text of an accepted program makes it again, any
    number of times: each text is the first one, with its labels moved on by as
    many labels as the texts before have.  The layouts stay as they are after the
    first text. -/
theorem regenerated {source text : String} {a : Analysis} {g : Generator}
    (h : analyze source = .ok a)
    (hfirst : Generator.text a.tables.classes a.program {} = .ok text g) (k : Nat) :
    ∃ g', (List.replicate (k + 1) a.program).mapM (Generator.text a.tables.classes) {} =
        .ok ((List.range (k + 1)).map fun i => relabel (i * labelCount text) text) g' ∧
      g'.layouts = g.layouts := by
  obtain ⟨lines, g₁, hlines, hpure⟩ := estate_bind_ok_iff.mp hfirst
  cases hpure
  obtain ⟨t, rfl, ht⟩ := Generator.exists_listing hlines
  have hlegible := legible_of_analyze h ht
  have hcount : labelCount (Line.renderAll t.lines) = g.nextLabel := by
    rw [ht.labelCount_eq hlegible]
    rfl
  have hacyclic := (elaborated_of_analyze h).1.acyclic
  obtain ⟨g', hrest, hlayouts⟩ := Generator.texts_again hacyclic hlines k g rfl
  refine ⟨g', ?_, hlayouts⟩
  rw [List.replicate_succ, List.mapM_cons]
  refine estate_bind_ok_iff.mpr ⟨_, g, hfirst, estate_bind_ok_iff.mpr ⟨_, g', hrest, ?_⟩⟩
  have hlater : ∀ i, g.nextLabel + i * g.nextLabel = i.succ * g.nextLabel := by
    intro i
    rw [Nat.succ_mul, Nat.add_comm]
  simp only [hcount, hlater, relabel_renderAll hlegible, List.range_succ_eq_map, List.map_cons,
    Nat.zero_mul, shiftAll_zero, List.map_map, Function.comp_def]
  rfl

theorem regenerated_sample :
    ∃ a text g, analyze sample = .ok a ∧
      Generator.text a.tables.classes a.program {} = .ok text g ∧
      ∃ g', (List.replicate 3 a.program).mapM (Generator.text a.tables.classes) {} =
          .ok ((List.range 3).map fun i => relabel (i * labelCount text) text) g' ∧
        g'.layouts = g.layouts := by
  obtain ⟨a, ha, hr⟩ := sample_accepted
  obtain ⟨he, hclasses⟩ := elaborated_of_analyze ha
  obtain ⟨codes, g, hlines, -⟩ := Generator.generate_ok he hr hclasses
  have htext : Generator.text a.tables.classes a.program {} = .ok _ g :=
    estate_bind_ok_iff.mpr ⟨_, g, hlines, rfl⟩
  exact ⟨a, _, g, ha, htext, regenerated ha htext 2⟩

end Program

end ClassLang
