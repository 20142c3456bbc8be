import ClassLang.Proofs.Lowering.Calls
import ClassLang.Proofs.Lowering.Run
import ClassLang.Proofs.Lowering.Symbols
import ClassLang.Proofs.Meaning.Linked
import Mathlib

/-! # Control flow of a listing

    No run of the methods of a listing comes back to where it was without a
    return, if the methods have different labels.

    * **`Listing.Goes`** is one step of control inside the blocks that is no
      return.
    * **`Listing.Forth`**: jumps stay in their block and go forwards, calls go
      to earlier blocks; **`Of.forth`** proves it for accepted programs.
    * **`Listing.Acyclic`**: control never comes back; **`Of.acyclic`** needs
      that the labels differ.
    * **`Program.controlFlow_wellFounded`** is about all texts that one
      generator makes.
    * **`Program.control_comesBack`**: of two methods that share a label, the
      later one can call itself where the program calls the earlier one. -/

namespace ClassLang

/-! ## Calls of earlier methods -/

namespace Routine

theorem Linked.of_append {rs earlier : List Routine} (h : Linked (rs ++ earlier)) :
    Linked earlier := by
  induction rs with
  | nil => exact h
  | cons r rest ih => exact ih h.2.2

/-- Of methods in the order in which they stand, each can only call those with
    smaller numbers. -/
theorem Linked.exists_earlier {rs : List Routine} (h : Linked rs.reverse) {b : Nat} {r : Routine}
    (hb : rs[b]? = some r) {cls method owner : String} {result : Ty} {params : List Ty}
    (hr : r.view.known.resolve cls method = some (owner, .func result params)) :
    ∃ c r', c < b ∧ rs[c]? = some r' ∧ r'.Answers owner method result params := by
  obtain ⟨hlt, rfl⟩ := List.getElem?_eq_some_iff.mp hb
  have hsplit : rs.reverse = (rs.drop (b + 1)).reverse ++ (rs[b] :: (rs.take b).reverse) := by
    conv_lhs => rw [← List.take_append_drop b rs, List.drop_eq_getElem_cons hlt]
    simp
  rw [hsplit] at h
  obtain ⟨r', hmem, hans⟩ := (h.of_append).1 cls method owner result params hr
  obtain ⟨c, hc⟩ := List.mem_iff_getElem?.mp (List.mem_reverse.mp hmem)
  have hlen := (List.getElem?_eq_some_iff.mp hc).1
  rw [List.length_take] at hlen
  rw [List.getElem?_take_of_lt (by omega)] at hc
  exact ⟨c, r', by omega, hc, hans⟩

end Routine

/-- A call that is recorded in an elaborated tree is the one that the rules
    resolve. -/
theorem Expr.Derives.resolve_of_runs {V : View} {e : Expr} {ty : Ty} (h : e.Elaborated V ty)
    {owner method : String} (hr : e.runs? = some (owner, method)) :
    ∃ cls result params, V.known.resolve cls method = some (owner, .func result params) := by
  cases h with
  | methodCall _ hm _ hn =>
    rw [runs?, hn.2] at hr
    cases hr
    exact ⟨_, _, _, hm⟩
  | selfCall hm _ hn =>
    rw [runs?, hn.2] at hr
    cases hr
    exact ⟨_, _, _, hm⟩
  | _ => cases hr

namespace Listing

/-! ## Steps of control -/

/-- One step of control from a line of a block to a line of a block, both given
    by their numbers, that is no return: to the next line, to a label, or to a
    block with the name of a called routine. -/
inductive Goes (t : Listing) : Nat × Nat → Nat × Nat → Prop where
  | next {b i code} : t.blocks[b]? = some code → i + 1 < code.length → Goes t (b, i) (b, i + 1)
  | jump {b i c j code code' l x} : t.blocks[b]? = some code → code[i]? = some l →
      l.target? = some x → t.blocks[c]? = some code' → code'[j]? = some (.label x) →
      Goes t (b, i) (c, j)
  | call {b i c code code' l x} : t.blocks[b]? = some code → code[i]? = some l →
      l.routine? = some x → t.blocks[c]? = some code' →
      code'.head? = some (.label (.named x)) → Goes t (b, i) (c, 0)

/-- Jumps go to later lines of their block, and calls go to the routine that
    prints or have the name of an earlier block. -/
structure Forth (t : Listing) : Prop where
  jumps : ∀ (b : Nat) code (i : Nat) l x, t.blocks[b]? = some code → code[i]? = some l →
    l.target? = some x → ∃ n j, x = .numbered n ∧ i < j ∧ code[j]? = some (.label (.numbered n))
  calls : ∀ (b : Nat) code l x, t.blocks[b]? = some code → l ∈ code → l.routine? = some x →
    x = printRoutine ∨ ∃ c < b, ∃ earlier, t.blocks[c]? = some earlier ∧
      earlier.head? = some (.label (.named x))

/-- Control never comes back to a line without a return. -/
def Acyclic (t : Listing) : Prop := ∀ place, ¬ Relation.TransGen t.Goes place place

/-- Two lines with one numbered label are the same line. -/
theorem eq_of_label {t : Listing} (h : (numbers t.blocks.flatten).Nodup) {b c i j n : Nat}
    {code code' : List Line} (hb : t.blocks[b]? = some code) (hc : t.blocks[c]? = some code')
    (hi : code[i]? = some (.label (.numbered n))) (hj : code'[j]? = some (.label (.numbered n))) :
    b = c ∧ i = j := by
  have hparts : (t.blocks.map numbers).flatten.Nodup := by
    have hflat : numbers t.blocks.flatten = (t.blocks.map numbers).flatten := by
      simp only [numbers, List.filterMap_flatten]
      rfl
    rwa [← hflat]
  rw [List.nodup_flatten] at hparts
  have hmem : ∀ {code : List Line} {i : Nat}, code[i]? = some (.label (.numbered n)) →
      n ∈ numbers code := by
    intro code i hi
    exact List.mem_filterMap.mpr ⟨_, List.mem_iff_getElem?.mpr ⟨i, hi⟩, rfl⟩
  -- blocks have no labels in common
  have hbc : b = c := by
    obtain ⟨hblt, rfl⟩ := List.getElem?_eq_some_iff.mp hb
    obtain ⟨hclt, rfl⟩ := List.getElem?_eq_some_iff.mp hc
    have happart := List.pairwise_iff_getElem.mp hparts.2
    have hlen : (t.blocks.map numbers).length = t.blocks.length := List.length_map _
    rcases Nat.lt_trichotomy b c with hlt | heq | hlt
    · have hd := happart b c (by omega) (by omega) hlt
      simp only [List.getElem_map] at hd
      exact absurd (hmem hj) (hd (hmem hi))
    · exact heq
    · have hd := happart c b (by omega) (by omega) hlt
      simp only [List.getElem_map] at hd
      exact absurd (hmem hi) (hd (hmem hj))
  subst hbc
  cases hb.symm.trans hc
  -- and each has a label once
  have hone : (numbers code).Nodup :=
    hparts.1 _ (List.mem_map_of_mem (List.mem_iff_getElem?.mpr ⟨b, hb⟩))
  exact ⟨rfl, line_unique hone hi hj⟩

namespace Of

variable {p : Program} {t : Listing} {n n' : Nat}

/-- The method of a block, and its code. -/
theorem exists_routine (h : t.Of p n n') {b : Nat} {code : List Line}
    (hb : t.blocks[b]? = some code) :
    ∃ r k k', (ClassDecl.allRoutines [] p.classes)[b]? = some r ∧ r.Made k code k' := by
  have hlt := (List.getElem?_eq_some_iff.mp hb).1
  rw [h.blocks.length_eq] at hlt
  obtain ⟨code', k, k', hcode, hmade⟩ := h.blocks.get (List.getElem?_eq_getElem hlt)
  cases hb.symm.trans hcode
  exact ⟨_, k, k', List.getElem?_eq_getElem hlt, hmade⟩

/-- A jump goes forwards in its block. -/
theorem jump_forward (h : t.Of p n n') {b i : Nat} {code : List Line} {l : Line} {x : Label}
    (hb : t.blocks[b]? = some code) (hi : code[i]? = some l) (hx : l.target? = some x) :
    ∃ k j, x = .numbered k ∧ i < j ∧ code[j]? = some (.label (.numbered k)) := by
  obtain ⟨r, k, k', _, hmade⟩ := h.exists_routine hb
  obtain ⟨rest, rfl, hrest⟩ := hmade.exists_rest
  have hforward : Forward [] (.label (.named r.label) :: rest) := by
    refine ⟨?_, hrest.forward⟩
    intro t ht
    cases ht
  exact hforward.exists_label hi hx

/-- A call goes to an earlier block, or it prints. -/
theorem call_earlier (h : t.Of p n n') (hp : p.Elaborated) {b : Nat} {code : List Line} {l : Line}
    {x : String} (hb : t.blocks[b]? = some code) (hl : l ∈ code) (hx : l.routine? = some x) :
    x = printRoutine ∨ ∃ c < b, ∃ earlier, t.blocks[c]? = some earlier ∧
      earlier.head? = some (.label (.named x)) := by
  obtain ⟨r, k, k', hr, site, _, hlower⟩ := h.exists_routine hb
  rcases Method.calls_uses hlower hl hx with hprint | ⟨e, owner, method, hu, hruns, rfl⟩
  · exact Or.inl hprint
  -- the method that is recorded is the one that the rules find
  have hmem : r ∈ p.routines :=
    List.mem_reverse.mpr (List.mem_iff_getElem?.mpr ⟨b, hr⟩)
  obtain ⟨older, c, before, m, hat, rfl⟩ := Program.exists_at_of_mem_routines hmem
  obtain ⟨ty, hty⟩ := hp.exists_type hat hu
  obtain ⟨cls, result, params, hres⟩ := hty.resolve_of_runs hruns
  obtain ⟨d, r', hlt, hr', hans⟩ := Routine.Linked.exists_earlier hp.linked.2 hr hres
  obtain ⟨earlier, _, _, hearlier, hmade⟩ := h.blocks.get hr'
  obtain ⟨rest, rfl, _⟩ := hmade.exists_rest
  have hkey := hans.key
  simp only [Routine.key, Prod.mk.injEq] at hkey
  refine Or.inr ⟨d, hlt, _, hearlier, ?_⟩
  rw [Routine.label, hkey.1, hkey.2]
  rfl

/-- The name at the head of a block is the label of a method. -/
theorem head_ne_print (h : t.Of p n n') {b : Nat} {code : List Line}
    (hb : t.blocks[b]? = some code) : code.head? ≠ some (.label (.named printRoutine)) := by
  obtain ⟨r, _, _, _, hmade⟩ := h.exists_routine hb
  obtain ⟨rest, rfl, _⟩ := hmade.exists_rest
  intro heq
  simp only [List.head?_cons, Option.some.injEq, Line.label.injEq, Label.named.injEq] at heq
  have hmem := underscore_mem_methodLabel r.view.cls r.method.name
  rw [show methodLabel r.view.cls r.method.name = printRoutine from heq] at hmem
  revert hmem
  decide

/-- If no two methods share a label, no two blocks have one name. -/
theorem eq_of_head (h : t.Of p n n') (hlabels : p.labels.Nodup) {b c : Nat} {code code' : List Line}
    {x : String} (hb : t.blocks[b]? = some code) (hc : t.blocks[c]? = some code')
    (hhead : code.head? = some (.label (.named x)))
    (hhead' : code'.head? = some (.label (.named x))) : b = c := by
  have hlabel : ∀ {b : Nat} {code : List Line}, t.blocks[b]? = some code →
      code.head? = some (.label (.named x)) → p.labels[b]? = some x := by
    intro b code hb hhead
    have hat : (t.blocks.map List.head?)[b]? = some (some (.label (.named x))) := by
      rw [List.getElem?_map, hb, Option.map_some, hhead]
    rw [h.heads, List.getElem?_map] at hat
    obtain ⟨y, hy, heq⟩ := Option.map_eq_some_iff.mp hat
    cases heq
    exact hy
  obtain ⟨hlt, heq⟩ := List.getElem?_eq_some_iff.mp (hlabel hb hhead)
  obtain ⟨hlt', heq'⟩ := List.getElem?_eq_some_iff.mp (hlabel hc hhead')
  exact (hlabels.getElem_inj_iff).mp (heq.trans heq'.symm)

/-- A step goes to an earlier block, or to a later line of the same block. -/
theorem goes_forth (h : t.Of p n n') (hp : p.Elaborated) (hlabels : p.labels.Nodup)
    {s s' : Nat × Nat} (hg : t.Goes s s') : s'.1 < s.1 ∨ s'.1 = s.1 ∧ s.2 < s'.2 := by
  cases hg with
  | next => exact Or.inr ⟨rfl, Nat.lt_succ_self _⟩
  | jump hb hi hx hc hj =>
    obtain ⟨k, j', rfl, hlt, hj'⟩ := h.jump_forward hb hi hx
    have hnumbers : (numbers t.blocks.flatten).Nodup := by
      rw [← t.numbers_lines]
      exact h.numbered.once.nodup_iff.mpr List.nodup_range'
    obtain ⟨rfl, rfl⟩ := eq_of_label hnumbers hb hc hj' hj
    exact Or.inr ⟨rfl, hlt⟩
  | call hb hi hx hc hhead =>
    rcases h.call_earlier hp hb (List.mem_iff_getElem?.mpr ⟨_, hi⟩) hx with
      rfl | ⟨d, hlt, earlier, hearlier, hdhead⟩
    · exact absurd hhead (h.head_ne_print hc)
    · -- the earlier block is the only one with this name
      cases h.eq_of_head hlabels hearlier hc hdhead hhead
      exact Or.inl hlt

/-- Control goes forth in the listing of an elaborated program. -/
theorem forth (h : t.Of p n n') (hp : p.Elaborated) : t.Forth where
  jumps := fun _ _ _ _ _ hb hi hx => h.jump_forward hb hi hx
  calls := fun _ _ _ _ hb hl hx => h.call_earlier hp hb hl hx

/-- And it never comes back if no two methods share a label. -/
theorem acyclic (h : t.Of p n n') (hp : p.Elaborated) (hlabels : p.labels.Nodup) : t.Acyclic := by
  have hall : ∀ {s s'}, Relation.TransGen t.Goes s s' → s'.1 < s.1 ∨ s'.1 = s.1 ∧ s.2 < s'.2 := by
    intro s s' hs
    induction hs with
    | single hg => exact h.goes_forth hp hlabels hg
    | tail _ hg ih =>
      have hstep := h.goes_forth hp hlabels hg
      omega
  intro place hcycle
  have hforth := hall hcycle
  omega

end Of

end Listing

/-! ## All texts of one generator -/

namespace Generator

/-- What a generator makes one after another are listings, and each numbered
    label that it took is defined once in all of them. -/
theorem exists_listings {classes : Hierarchy} {ps : List Program} {texts : List (List Line)}
    {g g' : Generator} (h : ps.mapM (generate classes) g = .ok texts g') :
    (∀ lines ∈ texts, ∃ p ∈ ps, ∃ t n n', lines = Listing.lines t ∧ t.Of p n n') ∧
      Numbered texts.flatten g.nextLabel g'.nextLabel ∧
      ∀ k, (texts.flatten.filterMap Line.defines).count (Label.numbered k).render =
        (numbers texts.flatten).count k := by
  have hchain := Chain.of_mapM h
  clear h
  induction hchain with
  | nil =>
    refine ⟨by simp, ⟨Nat.le_refl _, by simp [numbers]⟩, ?_⟩
    intro k
    rfl
  | cons hp _ ih =>
    obtain ⟨t, rfl, ht⟩ := exists_listing hp
    obtain ⟨hall, hnumbered, hcount⟩ := ih
    refine ⟨?_, ht.numbered.append hnumbered, ?_⟩
    · intro lines hlines
      rcases List.mem_cons.mp hlines with rfl | hlines
      · exact ⟨_, List.mem_cons_self, t, _, _, rfl, ht⟩
      · obtain ⟨p, hmem, hrest⟩ := hall lines hlines
        exact ⟨p, List.mem_cons_of_mem _ hmem, hrest⟩
    · intro k
      rw [List.flatten_cons, List.filterMap_append, List.count_append, ht.count_numbered, hcount,
        numbers_append, List.count_append]

end Generator

namespace Program

/-- What holds of all texts that one generator makes of a program, when it has
    taken `count` numbered labels: in all texts together each of these labels is
    defined exactly once, and no other is; and each text is a listing with one
    block for each method, in which control goes forth and, if no two methods
    share a label, never comes back. -/
structure AllForth (p : Program) (texts : List (List Line)) (count : Nat) : Prop where
  once : ∀ n, (texts.flatten.filterMap Line.defines).count (Label.numbered n).render =
    if n < count then 1 else 0
  listings : ∀ lines ∈ texts, ∃ t : Listing, lines = t.lines ∧
    t.blocks.map List.head? = p.labels.map (fun x => some (.label (.named x))) ∧ t.Forth ∧
    (p.labels.Nodup → t.Acyclic)

/-- Control goes forth in all texts that one generator makes of an accepted
    program, however many these are. -/
theorem controlFlow_wellFounded {source : String} {a : Analysis} (h : analyze source = .ok a)
    {k : Nat} {texts : List (List Line)} {g : Generator}
    (hg : (List.replicate k a.program).mapM (Generator.generate a.tables.classes) {} =
      .ok texts g) : a.program.AllForth texts g.nextLabel := by
  obtain ⟨he, _⟩ := elaborated_of_analyze h
  obtain ⟨hall, hnumbered, hcount⟩ := Generator.exists_listings hg
  refine ⟨?_, ?_⟩
  · intro n
    have honce : (numbers texts.flatten).Perm (List.range g.nextLabel) := by
      have hperm := hnumbered.once
      rwa [Nat.sub_zero, ← List.range_eq_range'] at hperm
    rw [hcount, honce.count_eq, List.count_range]
  · intro lines hlines
    obtain ⟨p, hp, t, n, n', rfl, ht⟩ := hall lines hlines
    cases List.eq_of_mem_replicate hp
    exact ⟨t, rfl, ht.heads, ht.forth he, ht.acyclic he⟩

set_option maxRecDepth 4096 in
/-- One generator makes two texts of the sample. -/
theorem sample_twice : ∃ a texts g, analyze sample = .ok a ∧
    (List.replicate 2 a.program).mapM (Generator.generate a.tables.classes) {} = .ok texts g := by
  have h : (match analyze sample with
      | .ok a =>
        match (List.replicate 2 a.program).mapM (Generator.generate a.tables.classes) {} with
        | .ok _ _ => true
        | .error _ _ => false
      | .error _ => false) = true := by cbv
  cases ha : analyze sample with
  | error e =>
    rw [ha] at h
    cases h
  | ok a =>
    rw [ha] at h
    cases ht : (List.replicate 2 a.program).mapM (Generator.generate a.tables.classes) {} with
    | error f g =>
      simp only [ht] at h
      cases h
    | ok texts g => exact ⟨a, texts, g, rfl, ht⟩

/-- No methods of the sample share a label. -/
theorem controlFlow_sample :
    ∃ a texts g, analyze sample = .ok a ∧ a.program.labels.Nodup ∧
      (List.replicate 2 a.program).mapM (Generator.generate a.tables.classes) {} = .ok texts g ∧
      a.program.AllForth texts g.nextLabel := by
  obtain ⟨a, texts, g, ha, hg⟩ := sample_twice
  obtain ⟨a', ha', hr⟩ := sample_accepted
  cases ha.symm.trans ha'
  exact ⟨a, texts, g, ha, hr.labels, hg, controlFlow_wellFounded ha hg⟩

/-! ## Methods that share a label -/

/-- A method that calls an earlier one with the same label. -/
def looping : String :=
  "class A { int b_c(A a) { return 1; } } class A_b { int c(A a) { return a.b_c(a); } }
class Program { nothing start() { A_b x; A a; x = new A_b; a = new A; print(x.c(a));
return nothing; } }"

/-- Makes an object without fields and assigns it to the local at this offset. -/
def loopingObject (offset : Int) : List Line :=
  instrs [.mov (.cell heapTop) (.reg .eax), .arith .add (.imm 0) (.cell heapTop),
    .push (.reg .eax), .pop .eax, .mov (.reg .eax) (.mem offset .ebp)]

/-- The code of a method with so many bytes of locals. -/
def loopingBlock (label : String) (room : Int) (body : List Line) : List Line :=
  [.label (.named label)] ++ prologue ++ instrs [.arith .sub (.imm room) (.reg .esp)] ++ body
    ++ instrs [.pop .eax] ++ epilogue

/-- The listing of this program. -/
def loopingListing : Listing where
  sections := [
    ("A", [loopingBlock "A_b_c" 0 (instrs [.push (.imm 1)])]),
    ("A_b", [loopingBlock "A_b_c" 0 (instrs [.push (.mem 8 .ebp), .push (.mem 8 .ebp),
      .call "A_b_c", .arith .add (.imm 8) (.reg .esp), .push (.reg .eax)])]),
    ("Program", [loopingBlock "Program_start" 8 (loopingObject (-4) ++ loopingObject (-8)
      ++ instrs [.push (.mem (-4) .ebp), .push (.mem (-8) .ebp), .call "A_b_c",
        .arith .add (.imm 8) (.reg .esp), .push (.reg .eax), .call printRoutine,
        .arith .add (.imm 4) (.reg .esp), .push (.imm 0)])])]
  size := 0

/-- From the call in the second block control comes back to the call. -/
theorem not_acyclic_loopingListing : ¬ loopingListing.Acyclic := by
  intro hacyclic
  have hgoes : ∀ i, i < 6 → loopingListing.Goes (1, i) (1, i + 1) := by
    intro i hi
    exact .next rfl (Nat.lt_of_lt_of_le (Nat.succ_lt_succ hi) (by decide))
  have hcall : loopingListing.Goes (1, 6) (1, 0) := .call rfl rfl rfl rfl rfl
  refine hacyclic (1, 0) (.tail ?_ hcall)
  exact ((((((Relation.TransGen.single (hgoes 0 (by decide))).tail (hgoes 1 (by decide))).tail
    (hgoes 2 (by decide))).tail (hgoes 3 (by decide))).tail (hgoes 4 (by decide))).tail
    (hgoes 5 (by decide)))

set_option maxRecDepth 8192 in
/-- The text of an accepted program in which a method calls an earlier one with
    the same label: in the later block, the call has the name of this block. -/
theorem control_comesBack :
    ∃ a g, analyze looping = .ok a ∧
      Generator.generate a.tables.classes a.program {} = .ok loopingListing.lines g ∧
      loopingListing.blocks.map List.head? =
        a.program.labels.map (fun x => some (.label (.named x))) ∧
      ¬ loopingListing.Acyclic := by
  have h : (match analyze looping with
      | .ok a =>
        match Generator.generate a.tables.classes a.program {} with
        | .ok lines _ => decide (lines = loopingListing.lines ∧
            loopingListing.blocks.map List.head? =
              a.program.labels.map (fun x => some (.label (.named x))))
        | .error _ _ => false
      | .error _ => false) = true := by
    cbv
  split at h
  · next a ha =>
    split at h
    · next lines g hg =>
      obtain ⟨rfl, hheads⟩ := of_decide_eq_true h
      exact ⟨a, g, ha, hg, hheads, not_acyclic_loopingListing⟩
    · cases h
  · cases h

end Program

end ClassLang
