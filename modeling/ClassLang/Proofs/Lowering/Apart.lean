import ClassLang.Proofs.Lowering.Dispatch
import ClassLang.Proofs.Lowering.Symbols
import ClassLang.Proofs.Meaning.Linked
import Mathlib

/-! # Names that get in each other's way

    The label of a method is made of two names and an underscore, and names may
    have underscores of their own.

    * **`Program.NamesClash`** and **`NamesHeap`**: two methods have one label, and
      a method has the label of a symbol of the heap.
    * **`Program.labels_nodup_iff`**: labels are distinct exactly where no names
      clash.
    * **`Layouts.Remembers`** is the invariant of a run: under a label is the frame
      of the first method with it.
    * **`Program.symbols_apart`**: a text defines every symbol once exactly
      where no names are in the way, and then each method has its own frame. -/

namespace ClassLang

/-! ## Names -/

namespace Program

/-- Two methods of the program have one label: the name of the one class goes on
    with an underscore and the start of the name of the other method. -/
def NamesClash (p : Program) : Prop :=
  ∃ c ∈ p.classes, ∃ m ∈ c.methods, ∃ d ∈ p.classes, ∃ n ∈ d.methods, ∃ x,
    d.name = c.name ++ "_" ++ x ∧ m.name = x ++ "_" ++ n.name

/-- A method of the program has the label of a symbol of the heap. -/
def NamesHeap (p : Program) : Prop :=
  ∃ c ∈ p.classes, c.name = "heap" ∧ ∃ m ∈ c.methods, m.name = "base" ∨ m.name = "top"

theorem mem_labels_iff {p : Program} {x : String} :
    x ∈ p.labels ↔ ∃ c ∈ p.classes, ∃ m ∈ c.methods, x = methodLabel c.name m.name := by
  simp only [labels, ClassDecl.labels, List.mem_flatMap, List.mem_map, eq_comm]

/-- The labels of methods are not those of the heap exactly where no method is
    named so. -/
theorem namesHeap_iff {p : Program} :
    p.NamesHeap ↔ heapBase ∈ p.labels ∨ heapTop ∈ p.labels := by
  have hbase : ∀ {c m : String}, heapBase = methodLabel c m ↔ c = "heap" ∧ m = "base" := by
    intro c m
    rw [eq_comm, show heapBase = methodLabel "heap" "base" from rfl]
    exact methodLabel_eq_iff_of_plain (by decide) (by decide)
  have htop : ∀ {c m : String}, heapTop = methodLabel c m ↔ c = "heap" ∧ m = "top" := by
    intro c m
    rw [eq_comm, show heapTop = methodLabel "heap" "top" from rfl]
    exact methodLabel_eq_iff_of_plain (by decide) (by decide)
  simp only [NamesHeap, mem_labels_iff, hbase, htop]
  constructor
  · rintro ⟨c, hc, hcls, m, hm, hname | hname⟩
    · exact Or.inl ⟨c, hc, m, hm, hcls, hname⟩
    · exact Or.inr ⟨c, hc, m, hm, hcls, hname⟩
  · rintro (⟨c, hc, m, hm, hcls, hname⟩ | ⟨c, hc, m, hm, hcls, hname⟩)
    · exact ⟨c, hc, hcls, m, hm, Or.inl hname⟩
    · exact ⟨c, hc, hcls, m, hm, Or.inr hname⟩

variable {p : Program} {mark : Mark}

theorem mem_allRoutines_iff {r : Routine} :
    r ∈ ClassDecl.allRoutines [] p.classes ↔
      ∃ older c before m, p.At older c before m ∧ r = ⟨c.viewAt older before m, m⟩ := by
  constructor
  · intro hr
    exact exists_at_of_mem_routines (List.mem_reverse.mpr hr)
  · rintro ⟨older, c, before, m, hat, rfl⟩
    exact List.mem_of_getElem? hat.getElem?_allRoutines

/-- No two methods of a program that follows the rules have one class and one
    name. -/
theorem Derives.keys_nodup (h : p.Derives mark) :
    ((ClassDecl.allRoutines [] p.classes).map Routine.key).Nodup := by
  have hall : ∀ {rs : List Routine}, Routine.Linked rs → (rs.map Routine.key).Nodup := by
    intro rs hl
    induction rs with
    | nil => exact List.nodup_nil
    | cons r earlier ih =>
      refine List.nodup_cons.mpr ⟨?_, ih hl.2.2⟩
      intro hmem
      obtain ⟨r', hr', hkey⟩ := List.mem_map.mp hmem
      exact hl.2.1 r' hr' hkey
  have hkeys := hall h.linked.2
  rwa [routines, List.map_reverse, List.nodup_reverse] at hkeys

/-- Labels are distinct exactly where no names clash. -/
theorem Derives.labels_nodup_iff (h : p.Derives mark) : p.labels.Nodup ↔ ¬ p.NamesClash := by
  have hlabels : p.labels = (ClassDecl.allRoutines [] p.classes).map Routine.label :=
    (ClassDecl.allRoutines_labels [] p.classes).symm
  have hmember : ∀ {c m}, c ∈ p.classes → m ∈ c.methods →
      ∃ r ∈ ClassDecl.allRoutines [] p.classes, r.key = (c.name, m.name) := by
    intro c m hc hm
    obtain ⟨older, newer, hp⟩ := List.append_of_mem hc
    obtain ⟨before, after, hmethods⟩ := List.append_of_mem hm
    have hat : p.At older c before m := ⟨⟨newer, hp⟩, after, hmethods⟩
    exact ⟨_, mem_allRoutines_iff.mpr ⟨older, c, before, m, hat, rfl⟩, rfl⟩
  rw [hlabels]
  constructor
  · rintro hd ⟨c, hc, m, hm, d, hd', n, hn, x, hcls, hname⟩
    obtain ⟨r, hr, hkey⟩ := hmember hc hm
    obtain ⟨r', hr', hkey'⟩ := hmember hd' hn
    obtain ⟨hrc, hrm⟩ := Prod.mk.inj hkey
    obtain ⟨hrc', hrm'⟩ := Prod.mk.inj hkey'
    have heq : r.label = r'.label := by
      rw [Routine.label, Routine.label, hrc, hrm, hrc', hrm']
      exact methodLabel_eq_iff.mpr (Or.inr (Or.inl ⟨x, hcls, hname⟩))
    -- one method would have two classes
    have hsame := List.inj_on_of_nodup_map hd hr hr' heq
    subst hsame
    rw [hkey] at hkey'
    obtain ⟨hcd, _⟩ := Prod.mk.inj hkey'
    have hlen := congrArg String.length (hcd.trans hcls)
    rw [String.length_append, String.length_append, show "_".length = 1 from rfl] at hlen
    omega
  · intro hclash
    refine List.Nodup.map_on ?_ (List.Nodup.of_map _ h.keys_nodup)
    intro r hr r' hr' heq
    obtain ⟨_, c, _, m, ⟨⟨_, hp⟩, _, hm⟩, rfl⟩ := mem_allRoutines_iff.mp hr
    obtain ⟨_, d, _, n, ⟨⟨_, hp'⟩, _, hn⟩, rfl⟩ := mem_allRoutines_iff.mp hr'
    have hc : c ∈ p.classes := by simp [hp]
    have hd : d ∈ p.classes := by simp [hp']
    have hm : m ∈ c.methods := by simp [hm]
    have hn : n ∈ d.methods := by simp [hn]
    rcases methodLabel_eq_iff.mp heq with ⟨hcd, hmn⟩ | ⟨x, hcls, hname⟩ | ⟨x, hcls, hname⟩
    · exact List.inj_on_of_nodup_map h.keys_nodup hr hr' (Prod.ext hcd hmn)
    · exact absurd ⟨c, hc, m, hm, d, hd, n, hn, x, hcls, hname⟩ hclash
    · exact absurd ⟨d, hd, n, hn, c, hc, m, hm, x, hcls, hname⟩ hclash

end Program

/-! ## Frames -/

/-- Under each label is the frame of the first method with it. -/
structure Layouts.Remembers (frames : List (String × Frame)) (done : List Routine) : Prop where
  first : ∀ x r, done.find? (·.label == x) = some r →
    ∃ f, Frame.ofMethod r.method = .ok f ∧ frames.lookup x = some f
  fresh : ∀ x, done.find? (·.label == x) = none → frames.lookup x = none

namespace Routine

variable {frames frames' : List (String × Frame)} {done : List Routine} {r : Routine}

/-- The next method gets the frame of the first method with its label. -/
theorem framed_first (h : Layouts.Remembers frames done) {frame : Frame}
    (hf : Layouts.Framed r.method r.label frames frame frames') :
    (∃ first, (done ++ [r]).find? (·.label == r.label) = some first ∧
      Frame.ofMethod first.method = .ok frame) ∧ Layouts.Remembers frames' (done ++ [r]) := by
  have hnext : ∀ x, (done ++ [r]).find? (·.label == x) =
      (done.find? (·.label == x)).or (if r.label = x then some r else none) := by
    intro x
    rw [List.find?_append, List.find?_singleton]
    by_cases hx : r.label = x <;> simp [hx]
  cases hfind : done.find? (·.label == r.label) with
  | some first =>
    -- the label is not new
    obtain ⟨f, hown, hlookup⟩ := h.first _ _ hfind
    rcases hf with ⟨hremembered, rfl⟩ | ⟨hfresh, _, _⟩
    · cases hlookup.symm.trans hremembered
      have hsame : ∀ x, (done ++ [r]).find? (·.label == x) = done.find? (·.label == x) := by
        intro x
        rw [hnext]
        by_cases hx : r.label = x
        · rw [← hx, hfind]
          rfl
        · simp [hx]
      refine ⟨⟨first, by rw [hsame, hfind], hown⟩, ?_, ?_⟩
      · intro x r' hr'
        exact h.first x r' (hsame x ▸ hr')
      · intro x hx
        exact h.fresh x (hsame x ▸ hx)
    · rw [hlookup] at hfresh
      cases hfresh
  | none =>
    rcases hf with ⟨hremembered, _⟩ | ⟨_, hown, rfl⟩
    · rw [h.fresh _ hfind] at hremembered
      cases hremembered
    · have hother : ∀ x, x ≠ r.label →
          ((r.label, frame) :: frames).lookup x = frames.lookup x := by
        intro x hx
        rw [List.lookup_cons, beq_false_of_ne hx]
      refine ⟨⟨r, by rw [hnext, hfind]; simp, hown⟩, ?_, ?_⟩
      · intro x r' hr'
        rw [hnext] at hr'
        by_cases hx : x = r.label
        · subst hx
          rw [hfind, Option.none_or, if_pos rfl] at hr'
          cases hr'
          exact ⟨frame, hown, by simp⟩
        · rw [if_neg (Ne.symm hx), Option.or_none] at hr'
          obtain ⟨f, hf, hlookup⟩ := h.first x r' hr'
          exact ⟨f, hf, (hother x hx).trans hlookup⟩
      · intro x hx
        rw [hnext] at hx
        obtain ⟨hnone, hne⟩ := Option.or_eq_none_iff.mp hx
        have hne : x ≠ r.label := by
          rintro rfl
          simp at hne
        exact (hother x hne).trans (h.fresh x hnone)

/-- In a run each method has the frame of the first method with its label. -/
theorem frames_first {rs : List Routine} {s s' : Nat × List (String × Frame)}
    {blocks : List (List Line)} (hc : Chain Laid rs s blocks s') :
    ∀ {done : List Routine}, Layouts.Remembers s.2 done → ∀ {i : Nat} {r : Routine},
      rs[i]? = some r → ∃ (block : List Line) (site : Site) (n n' : Nat) (first : Routine),
        blocks[i]? = some block ∧ site.cls = r.view.cls ∧
        r.method.lower site n = .ok (block, n') ∧
        (done ++ rs).find? (·.label == r.label) = some first ∧
        Frame.ofMethod first.method = .ok site.frame := by
  induction hc with
  | nil =>
    intro done _ i r hr
    cases hr
  | @cons r₀ rest s code t codes s' hb _ ih =>
    intro done hdone i r hr
    obtain ⟨site, hcls, hlower, hframed⟩ := hb
    obtain ⟨⟨first, hfirst, hown⟩, hnext⟩ := framed_first hdone hframed
    cases i with
    | zero =>
      cases hr
      refine ⟨code, site, s.1, t.1, first, rfl, hcls, hlower, ?_, hown⟩
      have hsplit : done ++ r₀ :: rest = (done ++ [r₀]) ++ rest := by simp
      rw [hsplit, List.find?_append, hfirst]
      rfl
    | succ i =>
      have hrest := ih hnext hr
      rwa [List.append_assoc, List.singleton_append] at hrest

end Routine

/-! ## Texts -/

namespace Program

/-- What can be in the way in a text of the program, and what cannot.  Of the
    symbols of the fixed parts, a method can only have those of the heap; a
    symbol is defined twice exactly if names clash or name the heap; and each
    block is made with the frame of the first method with its label, which is
    its own frame if no names clash. -/
structure SymbolsApart (p : Program) (lines : List Line) : Prop where
  fixed : ∀ x ∈ p.labels, x ∈ Listing.fixedSymbols → x = heapBase ∨ x = heapTop
  once : (lines.filterMap Line.defines).Nodup ↔ ¬ p.NamesClash ∧ ¬ p.NamesHeap
  frames : ∃ t : Listing, lines = t.lines ∧ ∀ older c before m, p.At older c before m →
    ∃ (block : List Line) (site : Site) (n n' : Nat) (first : Routine),
      t.blocks[(ClassDecl.labelsBefore older c before).length]? = some block ∧
      site.cls = c.name ∧ m.lower site n = .ok (block, n') ∧
      (ClassDecl.allRoutines [] p.classes).find? (·.label == methodLabel c.name m.name) =
        some first ∧
      Frame.ofMethod first.method = .ok site.frame ∧
      (¬ p.NamesClash → Frame.ofMethod m = .ok site.frame)

/-- In the text of an accepted program nothing but names can be in the way. -/
theorem symbols_apart {source : String} {a : Analysis} (h : analyze source = .ok a)
    {lines : List Line} {g : Generator}
    (hg : Generator.generate a.tables.classes a.program {} = .ok lines g) :
    a.program.SymbolsApart lines := by
  obtain ⟨he, _⟩ := elaborated_of_analyze h
  obtain ⟨t, rfl, ht, hlaid⟩ := Generator.exists_laid_listing hg
  refine ⟨?_, ?_, t, rfl, ?_⟩
  · intro x hx hfixed
    obtain ⟨cls, method, rfl⟩ := exists_of_mem_labels hx
    exact methodLabel_of_mem_fixed hfixed
  · rw [ht.nodup_symbols_iff, he.labels_nodup_iff, namesHeap_iff, not_or]
  · intro older c before m hat
    have hempty : Layouts.Remembers ({} : Generator).counts.2 [] :=
      ⟨fun _ _ hfirst => (by cases hfirst), fun _ _ => rfl⟩
    have hat' := hat.getElem?_allRoutines
    obtain ⟨block, site, n, n', first, hblock, hcls, hlower, hfirst, hown⟩ :=
      Routine.frames_first hlaid hempty hat'
    refine ⟨block, site, n, n', first, hblock, hcls, hlower, hfirst, hown, ?_⟩
    intro hclash
    -- the first method with a label is the only one
    have hnodup := he.labels_nodup_iff.mpr hclash
    rw [labels, ← ClassDecl.allRoutines_labels []] at hnodup
    have hfound := List.find?_some hfirst
    have hlabel : first.label = methodLabel c.name m.name := beq_iff_eq.mp hfound
    have hsame := List.inj_on_of_nodup_map hnodup (List.mem_of_find?_eq_some hfirst)
      (List.mem_of_getElem? hat') hlabel
    rw [hsame] at hown
    exact hown

theorem symbols_apart_sample :
    ∃ a lines g, analyze sample = .ok a ∧
      Generator.generate a.tables.classes a.program {} = .ok lines g ∧
      a.program.SymbolsApart lines := by
  obtain ⟨a, ha, hr⟩ := sample_accepted
  obtain ⟨he, hclasses⟩ := elaborated_of_analyze ha
  obtain ⟨codes, g, hg, _⟩ := Generator.generate_ok he hr hclasses
  exact ⟨a, _, g, ha, hg, symbols_apart ha hg⟩

/-- A program with two methods of one label, and one with a label of the heap. -/
def clashing : String :=
  "class A { int b_c(int p) { return p; } } class A_b { int c() { return 1; } }
class heap { int base() { return 2; } } class Program { nothing start() { return nothing; } }"

set_option maxRecDepth 4096 in
/-- What becomes of that program. -/
theorem clashing_generates :
    ∃ a lines g frame, analyze clashing = .ok a ∧
      Generator.generate a.tables.classes a.program {} = .ok lines g ∧
      g.layouts.frame? "A_b" "c" = some frame ∧
      (decide (heapBase ∈ a.program.labels) && !decide (lines.filterMap Line.defines).Nodup &&
        a.program.classes.all fun c => c.name != "A_b" ||
          c.methods.all fun m => (Frame.ofMethod m).toOption != some frame) = true := by
  have h : (match analyze clashing with
      | .ok a =>
        match Generator.generate a.tables.classes a.program {} with
        | .error _ _ => false
        | .ok lines g =>
          match g.layouts.frame? "A_b" "c" with
          | none => false
          | some frame =>
            decide (heapBase ∈ a.program.labels) && !decide (lines.filterMap Line.defines).Nodup &&
              a.program.classes.all fun c => c.name != "A_b" ||
                c.methods.all fun m => (Frame.ofMethod m).toOption != some frame
      | .error _ => false) = true := by
    cbv
  split at h
  · next a ha =>
    split at h
    · cases h
    · next lines g hg =>
      split at h
      · cases h
      · next frame hframe => exact ⟨a, lines, g, frame, ha, hg, hframe, h⟩
  · cases h

/-- Names can be in the way: in this accepted program two methods have one label
    and the second gets the frame of the first, and another method has the label
    of a symbol of the heap. -/
theorem symbols_not_apart :
    ∃ a lines g frame, analyze clashing = .ok a ∧
      Generator.generate a.tables.classes a.program {} = .ok lines g ∧
      methodLabel "A" "b_c" = methodLabel "A_b" "c" ∧ heapBase ∈ a.program.labels ∧
      ¬ (lines.filterMap Line.defines).Nodup ∧ g.layouts.frame? "A_b" "c" = some frame ∧
      ∀ c ∈ a.program.classes, c.name = "A_b" → ∀ m ∈ c.methods,
        Frame.ofMethod m ≠ .ok frame := by
  obtain ⟨a, lines, g, frame, ha, hg, hframe, hall⟩ := clashing_generates
  rw [Bool.and_eq_true, Bool.and_eq_true] at hall
  obtain ⟨⟨hheap, hdup⟩, hown⟩ := hall
  refine ⟨a, lines, g, frame, ha, hg, rfl, of_decide_eq_true hheap, ?_, hframe, ?_⟩
  · simpa using hdup
  · intro c hc hcls m hm heq
    have hm' := List.all_eq_true.mp hown c hc
    simp only [hcls, bne_self_eq_false, Bool.false_or] at hm'
    have hne := List.all_eq_true.mp hm' m hm
    rw [heq] at hne
    simp [Except.toOption] at hne

end Program

end ClassLang
