import ClassLang.Proofs.Layout.Parts
import ClassLang.Proofs.Lowering.Total
import ClassLang.Proofs.Simulation.Program

/-! # Copies of held objects

    An assignment to a field that holds an object moves the words of another
    object one by one.

    * **`Site.store_held`** is the code of such an assignment.
    * **`Machine.Assigning`** is a machine that comes to this code, and
      **`Machine.Copied`** says what it should do.
    * **`Machine.copied_of_beside`**: it does so if the two objects are the same
      or lie apart.
    * **`Program.CopiesWhole`** is about all objects that can be assigned, and
      **`Program.copies_whole`** about the assignments of accepted programs. -/

namespace ClassLang

/-! ## The code -/

/-- The code that assigns to a field that holds an object of `n` words. -/
theorem Site.store_held {site : Site} {x c : String} {sl : Slot} {n : Nat}
    (hloc : site.locate x = .ok (.field sl)) (hty : sl.ty = .object c) (hoffset : 0 ≤ sl.offset)
    (hsize : sl.size = 4 * n) (hfits : Word.Fits (sl.offset + sl.size)) :
    site.store x = .ok (instrs ([.pop .eax, .mov site.receiver (.reg .ecx)] ++
      (List.range n).flatMap (Machine.moveWord sl.offset))) := by
  have hoffsets : wordOffsets sl.size = (List.range n).map fun (i : Nat) => 4 * (i : Int) := by
    have hn : (sl.size.toNat + 3) / 4 = n := by omega
    rw [wordOffsets, hn]
    rfl
  obtain ⟨code, hcode⟩ := Site.Serves.copy_ok hoffset hfits
  have hmoves := Site.copy_ok hoffsets hcode
  rw [hmoves] at hcode
  unfold store
  rw [hloc]
  refine except_bind_ok_iff.mpr ⟨_, rfl, ?_⟩
  simp only [hty, hcode]
  simp [instrs, bind, Except.bind, pure, Except.pure]

/-! ## On the machine -/

namespace Machine

variable {M : Machine} {site : Site} {receiver source f k : Int} {d n : Nat} {s : State}

/-- The machine comes to an assignment: the address of the receiver is in the
    frame, and that of the source is on top of the stack. -/
structure Assigning (M : Machine) (site : Site) (receiver source : Int) (d : Nat) (s : State) :
    Prop where
  esp : s.regs .esp = M.slot (d + 1)
  deep : M.HasSlot (d + 1)
  source : s.memory (M.slot (d + 1)) = M.word source
  frame : ∃ b j : Nat, s.regs .ebp = M.slot b ∧ site.frame.receiver = 4 * ((b : Int) - j) ∧
    M.HasSlot j ∧ s.memory (M.slot j) = M.word receiver

/-- The block of so many bytes at `target` holds what the block at `source` held
    before, and no other word is changed. -/
structure Copied (M : Machine) (source target size : Int) (s s' : State) : Prop where
  taken : ∀ i, WholeWords i → i < size →
    s'.memory (M.word (target + i)) = s.memory (M.word (source + i))
  kept : ∀ y, (∀ i, WholeWords i → i < size → y ≠ M.word (target + i)) →
    s'.memory y = s.memory y

/-- The words of a block that lies in the heap. -/
theorem hasWord_of_block (hk : WholeWords k)
    (hroom : k + 4 * n ≤ (M.heap.high : Int) - M.heap.low) {i : Nat} (hi : i < n) :
    M.HasWord (k + 4 * i) := by
  have hwhole := hk.add ⟨show (0 : Int) ≤ 4 * i by omega, ⟨i, rfl⟩⟩
  exact ⟨hwhole.1, hwhole.2, by omega⟩

/-- Whole words are counted. -/
theorem exists_word (hk : WholeWords k) : ∃ i : Nat, k = 4 * i := by
  obtain ⟨hk, i, rfl⟩ := hk
  refine ⟨i.toNat, ?_⟩
  unfold Word.size at hk ⊢
  omega

/-- Moving the words one by one copies the whole block if the two blocks are the
    same or lie apart: then no word is written before it is read. -/
theorem copied_of_beside (hM : M.WellPlaced) (h : M.Assigning site receiver source d s)
    (hat : M.CodeAt s.line (instrs ([.pop .eax, .mov site.receiver (.reg .ecx)] ++
      (List.range n).flatMap (moveWord f))))
    (hsource : WholeWords source) (htarget : WholeWords (receiver + f))
    (hsourceEnd : source + 4 * n ≤ (M.heap.high : Int) - M.heap.low)
    (htargetEnd : receiver + f + 4 * n ≤ (M.heap.high : Int) - M.heap.low)
    (hbeside : source = receiver + f ∨ source + 4 * n ≤ receiver + f ∨
      receiver + f + 4 * n ≤ source) :
    ∃ s', M.Popped d (2 + 2 * n) s s' ∧ M.Copied source (receiver + f) (4 * n) s s' := by
  obtain ⟨b, j, hebp, hreceiver, hj, hself⟩ := h.frame
  obtain ⟨s', hs', hcopied, hother⟩ := pop_copy hM hebp hreceiver hj hat h.esp h.deep hself
    h.source (fun i hi => hasWord_of_block hsource hsourceEnd hi)
    (fun i hi => hasWord_of_block htarget htargetEnd hi) (by
      -- a word that is still to be read lies above all that were written, or outside
      intro i hi i' hi'
      rcases hbeside with heq | hle | hle <;> omega)
  refine ⟨s', hs', ?_, ?_⟩
  · intro i hi hlt
    obtain ⟨i, rfl⟩ := exists_word hi
    exact hcopied i (by omega)
  · intro y hy
    apply hother
    intro i hi
    exact hy (4 * i) ⟨by omega, ⟨i, rfl⟩⟩ (by omega)

end Machine

/-! ## Accepted programs -/

namespace Program

open Layouts

variable {defs : List ClassDecl} {site : Site} {x cls : String} {sl : Slot}

/-- The object that a field holds is a part of the object that has the field. -/
theorem part_of_locate (hacyclic : Acyclic defs) (hobject : outcome defs site.cls = .ok site.object)
    (hloc : site.locate x = .ok (.field sl)) (hty : sl.ty = .object cls) :
    sl ∈ site.object.fields ∧ Part defs (outcome defs) site.cls sl.offset cls := by
  have hmem : sl ∈ site.object.fields := by
    unfold Site.locate at hloc
    split at hloc
    · cases hloc
    · next hnone =>
      cases hfield : site.object.field? x with
      | none =>
        rw [hfield] at hloc
        cases hloc
      | some found =>
        rw [hfield] at hloc
        cases hloc
        exact List.mem_reverse.mp (List.mem_of_find?_eq_some hfield)
  obtain ⟨own, hown, _⟩ := (shape_outcome hacyclic hobject).held sl hmem cls hty
  have hpart : Part defs (outcome defs) site.cls (sl.offset + 0) cls :=
    .held hobject hmem hty (.self hown)
  rw [Int.add_zero] at hpart
  exact ⟨hmem, hpart⟩

/-- The code of an assignment copies whole blocks: in a heap of objects that have
    these layouts, whatever object of class `cls` or of a descendant is assigned,
    its bytes come to the offset in the receiver, and nothing else is changed. -/
def CopiesWhole (defs : List ClassDecl) (layoutOf : String → Except Fault ObjectLayout)
    (site : Site) (cls : String) (offset size : Int) (code : List Line) : Prop :=
  ∀ (M : Machine) (objects : List (Int × String)) (receiver source : Int) (base : String)
    (d : Nat) (s : State), M.WellPlaced →
    Placed layoutOf (M.heap.high - M.heap.low) objects →
    Refers defs layoutOf objects receiver site.cls →
    Refers defs layoutOf objects source base →
    Relation.ReflTransGen (Derived defs) base cls →
    M.CodeAt s.line code → M.Assigning site receiver source d s →
    ∃ s', M.Popped d code.length s s' ∧ M.Copied source (receiver + offset) size s s'

/-- An assignment to a field that holds an object has code, and its code copies
    whole blocks. -/
theorem exists_copiesWhole (hacyclic : Acyclic defs)
    (hobject : outcome defs site.cls = .ok site.object)
    (hloc : site.locate x = .ok (.field sl)) (hty : sl.ty = .object cls) :
    ∃ code held, site.store x = .ok code ∧ outcome defs cls = .ok held ∧
      CopiesWhole defs (outcome defs) site cls sl.offset held.size code := by
  have hshape := shape_outcome hacyclic hobject
  obtain ⟨hmem, hfield⟩ := part_of_locate hacyclic hobject hloc hty
  obtain ⟨held, hheld, hsize⟩ := hshape.held sl hmem cls hty
  -- the object is copied in words, so its size has to be made of whole ones
  obtain ⟨n, hn⟩ := Machine.exists_word (shape_outcome hacyclic hheld).size
  have hslot := hshape.tiles.bounds (fun t ht => (hshape.slots t ht).2.1) hmem
  have hfits : Word.Fits (sl.offset + sl.size) := by
    have hobjectFits := hshape.fits
    unfold Word.Fits at hobjectFits ⊢
    omega
  have hstore := Site.store_held hloc hty hslot.1 (hsize.trans hn) hfits
  refine ⟨_, held, hstore, hheld, ?_⟩
  intro M objects receiver source base d s hM hplaced hreceiver hsource hbase hat hassigning
  -- of an object of a descendant, the part that has the class of the field is copied
  have htarget := hreceiver.append hfield
  have hpart := hsource.ancestor hacyclic hplaced hbase
  obtain ⟨hwhole, hend⟩ := hpart.inside hacyclic hplaced hheld
  obtain ⟨htargetWhole, htargetEnd⟩ := htarget.inside hacyclic hplaced hheld
  have hbeside := hpart.apart hacyclic hplaced htarget hheld
  rw [hn] at hend htargetEnd hbeside ⊢
  obtain ⟨s', hs', hcopied⟩ := Machine.copied_of_beside hM hassigning hat hwhole
    htargetWhole hend htargetEnd hbeside
  refine ⟨s', ?_, hcopied⟩
  have hlength : (instrs ([.pop .eax, .mov site.receiver (.reg .ecx)] ++
      (List.range n).flatMap (Machine.moveWord sl.offset))).length = 2 + 2 * n := by
    rw [instrs, List.length_map, List.length_append, Machine.length_moveWords]
    rfl
  rwa [hlength]

/-- **Held objects are copied whole**: parts of one class never overlap in part, in
    any object of an accepted program.  So the code of an assignment to a field
    that holds an object, which moves one word after the other, copies the whole
    block of the source at once, whatever object of the class or of a descendant
    is assigned: also a part of the object that has the field. -/
theorem copies_whole {source : String} {a : Analysis} (ha : analyze source = .ok a) {l : Layouts}
    (hl : Reachable a.program.classes l) :
    (∀ cls other k k' layout part, given a.program.classes l cls = .ok layout →
      given a.program.classes l other = .ok part →
      Part a.program.classes (given a.program.classes l) cls k other →
      Part a.program.classes (given a.program.classes l) cls k' other →
      k = k' ∨ k + part.size ≤ k' ∨ k' + part.size ≤ k) ∧
    ∀ (site : Site) (x : String) (sl : Slot) (cls : String),
      given a.program.classes l site.cls = .ok site.object →
      site.locate x = .ok (.field sl) → sl.ty = .object cls →
      ∃ code held, site.store x = .ok code ∧ given a.program.classes l cls = .ok held ∧
        CopiesWhole a.program.classes (given a.program.classes l) site cls sl.offset held.size
          code := by
  have hacyclic := (elaborated_of_analyze ha).1.acyclic
  rw [hl.given_eq hacyclic]
  constructor
  · intro cls other k k' layout part hlayout hpart h h'
    exact h.apart hacyclic hlayout hpart h'
  · intro site x sl cls hobject hloc hty
    exact exists_copiesWhole hacyclic hobject hloc hty

/-- A method of the last class in `layered`, in whose objects `q` and `r` lie. -/
def inLayered : Site where
  cls := "Program"
  object := layeredObject
  frame := { params := [], locals := [], receiver := 8 }
  layouts := {}
  classes := {}

/-- The code of an assignment to `r`. -/
def storeR : List Line :=
  instrs [.pop .eax, .mov (.mem 8 .ebp) (.reg .ecx),
    .mov (.mem 0 .eax) (.reg .edx), .mov (.reg .edx) (.mem 40 .ecx),
    .mov (.mem 4 .eax) (.reg .edx), .mov (.reg .edx) (.mem 44 .ecx)]

/-- The state in which `q`, an object of a descendant, is assigned to `r` of the
    same object. -/
def assigningQ : State :=
  let M := Machine.flat storeR
  { line := 0
    regs := fun r => if r = .esp then M.slot 4 else M.slot 3
    memory := fun y => if y = M.slot 4 then M.word 20 else M.word 0
    compared := none
    output := [] }

set_option maxRecDepth 4096 in
/-- The part `p` lies apart from the head of `q`, and `q` is copied to `r`. -/
theorem copies_whole_layered : ∃ a, analyze layered = .ok a ∧
    Part a.program.classes (given a.program.classes {}) "Program" 8 "P" ∧
    Part a.program.classes (given a.program.classes {}) "Program" 20 "P" ∧
    ((8 : Int) = 20 ∨ (8 : Int) + 8 ≤ 20 ∨ (20 : Int) + 8 ≤ 8) ∧
    inLayered.store "r" = .ok storeR ∧
    ∃ s', (Machine.flat storeR).Popped 3 6 assigningQ s' ∧
      (Machine.flat storeR).Copied 20 40 8 assigningQ s' := by
  have h : ((analyze layered).toOption.any fun a =>
      decide ((given a.program.classes {} "Program").toOption = some layeredObject) &&
      decide ((given a.program.classes {} "Q").toOption = some { size := 20, fields :=
        [⟨"x", .int, 0, 4⟩, ⟨"y", .bool, 4, 4⟩, ⟨"p", .object "P", 8, 8⟩, ⟨"z", .int, 16, 4⟩] }) &&
      decide ((given a.program.classes {} "P").toOption = some { size := 8, fields :=
        [⟨"x", .int, 0, 4⟩, ⟨"y", .bool, 4, 4⟩] }) &&
      decide ((a.program.classes.find? (·.name == "Q")).map (·.superclass) = some (some "P"))) =
        true := by cbv
  obtain ⟨a, ha, h⟩ := (Option.any_eq_true _ _).mp h
  simp only [Bool.and_eq_true, decide_eq_true_eq] at h
  obtain ⟨⟨⟨hprogram, hq⟩, hp⟩, hsuper⟩ := h
  have ha := except_ok_of_toOption ha
  have hprogram := except_ok_of_toOption hprogram
  have hq := except_ok_of_toOption hq
  have hp := except_ok_of_toOption hp
  have hderived : Derived a.program.classes "Q" "P" := by
    obtain ⟨c, hc, hsuper⟩ := Option.map_eq_some_iff.mp hsuper
    exact ⟨c, hc, hsuper⟩
  have hpartP : Part a.program.classes (given a.program.classes {}) "Program" (8 + 0) "P" :=
    .held hprogram (s := ⟨"p", .object "P", 8, 8⟩) (by decide) rfl (.self hp)
  have hpartQ : Part a.program.classes (given a.program.classes {}) "Program" (20 + 0) "Q" :=
    .held hprogram (s := ⟨"q", .object "Q", 20, 20⟩) (by decide) rfl (.self hq)
  have hhead : Part a.program.classes (given a.program.classes {}) "Program" (20 + 0) "P" :=
    .held hprogram (s := ⟨"q", .object "Q", 20, 20⟩) (by decide) rfl (.above hderived (.self hp))
  have hstore : inLayered.store "r" = .ok storeR := rfl
  have hplaced : Placed (given a.program.classes {}) 65536 [(0, "Program")] :=
    ⟨fun o ho => by
      cases List.mem_singleton.mp ho
      exact ⟨_, hprogram, wholeWords_zero, by decide⟩,
    fun o ho o' ho' hne =>
      absurd ((List.mem_singleton.mp ho).trans (List.mem_singleton.mp ho').symm) hne⟩
  obtain ⟨hapart, hcopies⟩ := copies_whole ha .empty
  obtain ⟨code, held, hcode, hheld, hcopy⟩ := hcopies inLayered "r" _ "P" hprogram rfl rfl
  cases hstore.symm.trans hcode
  cases hp.symm.trans hheld
  have hM : (Machine.flat storeR).WellPlaced := Machine.wellPlaced_flat (by decide)
  refine ⟨a, ha, hpartP, hhead, hapart _ _ _ _ _ _ hprogram hp hpartP hhead, hstore, ?_⟩
  apply hcopy (Machine.flat storeR) [(0, "Program")] 0 20 "Q" 3 assigningQ hM hplaced
    ⟨(0, "Program"), List.mem_singleton_self _, 0, .self hprogram, rfl⟩
    ⟨(0, "Program"), List.mem_singleton_self _, 20 + 0, hpartQ, rfl⟩ (.single hderived)
  · intro i l hl
    rwa [show assigningQ.line + i = i from Nat.zero_add i]
  · have hslot : (Machine.flat storeR).slot 1 ≠ (Machine.flat storeR).slot 4 := by decide
    have hmemory : ∀ y, assigningQ.memory y = if y = (Machine.flat storeR).slot 4
        then (Machine.flat storeR).word 20 else (Machine.flat storeR).word 0 := fun _ => rfl
    exact {
      esp := rfl
      deep := ⟨by decide, by decide⟩
      source := (hmemory _).trans (if_pos rfl)
      frame := ⟨3, 1, rfl, by decide, ⟨by decide, by decide⟩, (hmemory _).trans (if_neg hslot)⟩ }

end Program

end ClassLang
