import ClassLang.Compile
import ClassLang.Proofs.Lowering.Depth
import Mathlib

/-! # The stack discipline of code

    What holds on every way through the code of a tree, whether the tree was
    checked or not.

    * **`Follows`**: which line may come after which.
    * **`Balanced`**: code is left at its end only, and every way through it
      comes there with the same number of words on the stack.
    * **`Expr.lower_no_ret`** and **`Stmt.lower_no_ret`**: the code of a tree does
      not return.
    * **`Method.Framed`**: the body of a method works above the words that its
      head reserves, and leaves one word on them.
    * **`Site.stack_discipline`** is about all trees at all sites. -/

namespace ClassLang

variable {code p q : List Line} {low a b x : Int} {n n' i j : Nat}

/-! ## Ways that end -/

/-- Line `j` may come after line `i`: it is the next one, or the one to which
    line `i` jumps. -/
inductive Follows (code : List Line) : Nat → Nat → Prop where
  | next {i l} : code[i]? = some l → l.goesOn = true → Follows code i (i + 1)
  | jump {i j l t} : code[i]? = some l → l.target? = some t → code[j]? = some (.label t) →
      Follows code i j

/-- Every way through the code leads to its end, and takes the stack from depth
    `a` to depth `b`. -/
structure Balanced (code : List Line) (a b : Int) : Prop where
  /-- The line that comes next is further down. -/
  forth : ∀ i j, Follows code i j → i < j ∧ j ≤ code.length
  /-- No way stops before the end. -/
  onward : ∀ i, i < code.length → ∃ j, Follows code i j
  /-- A jump has one line to go to, at the depth at which it is made. -/
  jumps : ∀ i l t, code[i]? = some l → l.target? = some t →
    ∃ j, code[j]? = some (.label t) ∧ (∀ j', code[j']? = some (.label t) → j' = j) ∧
      ∀ x, Way code a i x → Way code a j x
  /-- Where ways meet they have one depth. -/
  meet : ∀ i x y, Way code a i x → Way code a i y → x = y
  low : ∀ i x, Way code a i x → a ≤ x
  ends : ∀ x, Way code a code.length x ↔ x = b

/-- A line from which control does not go on is a return, or it jumps. -/
theorem Line.goesOn_or_target {l : Line} (h : l ≠ .instr .ret) :
    l.goesOn = true ∨ ∃ t, l.target? = some t := by
  cases l with
  | instr ins =>
    cases ins with
    | jump t => exact Or.inr ⟨t, rfl⟩
    | ret => exact absurd rfl h
    | _ => exact Or.inl rfl
  | _ => exact Or.inl rfl

/-- A jump does not change the stack. -/
theorem Line.growth_of_target {l : Line} {t : Label} (h : l.target? = some t) : l.growth = 0 := by
  cases l with
  | instr ins =>
    cases ins with
    | jump | jumpIf => rfl
    | _ => cases h
  | _ => cases h

/-- Code that raises the stack is balanced if it does not return and each of its
    jumps has one line to go to, further down. -/
theorem Raises.balanced (hr : Raises code a a b) (hret : .instr .ret ∉ code)
    (hdown : ∀ (i : Nat) (l : Line) (t : Label), code[i]? = some l → l.target? = some t →
      ∃ j, i < j ∧ code[j]? = some (.label t) ∧ ∀ j', code[j']? = some (.label t) → j' = j) :
    Balanced code a b where
  forth := by
    intro i j hf
    cases hf with
    | next hl _ => exact ⟨Nat.lt_succ_self i, (List.getElem?_eq_some_iff.mp hl).1⟩
    | jump hl ht hj =>
      obtain ⟨j', hlt, _, hone⟩ := hdown _ _ _ hl ht
      have heq := hone _ hj
      subst heq
      exact ⟨hlt, Nat.le_of_lt (List.getElem?_eq_some_iff.mp hj).1⟩
  onward := by
    intro i hi
    have hl := List.getElem?_eq_getElem hi
    have hne : code[i] ≠ .instr .ret := fun heq => hret (heq ▸ List.getElem_mem hi)
    rcases Line.goesOn_or_target hne with hon | ⟨t, ht⟩
    · exact ⟨i + 1, .next hl hon⟩
    · obtain ⟨j, _, hj, _⟩ := hdown _ _ _ hl ht
      exact ⟨j, .jump hl ht hj⟩
  jumps := by
    intro i l t hl ht
    obtain ⟨j, _, hj, hone⟩ := hdown i l t hl ht
    refine ⟨j, hj, hone, ?_⟩
    intro x hx
    have hway := hx.jump hl ht hj
    rwa [Line.growth_of_target ht, Int.add_zero] at hway
  meet := fun i x y hx hy => (hr.way hy).2.2 x hx
  low := fun i x hx => (hr.way hx).1
  ends := by
    intro x
    refine ⟨fun hx => (hr.way hx).2.1 rfl, ?_⟩
    intro hx
    rw [hx]
    exact hr.ends

namespace Labelled

/-- The line of the label to which labelled code jumps is further down. -/
theorem exists_line (h : Labelled code n n') {l : Line} {t : Label} (hi : code[i]? = some l)
    (ht : l.target? = some t) :
    ∃ j, i < j ∧ code[j]? = some (.label t) ∧ ∀ j', code[j']? = some (.label t) → j' = j := by
  obtain ⟨k, j, rfl, hlt, hj⟩ := h.forward.exists_label hi ht
  have hone : (numbers code).Nodup := h.once.nodup_iff.mpr List.nodup_range'
  exact ⟨j, hlt, hj, fun j' hj' => line_unique hone hj' hj⟩

/-- Labelled code that does not return is balanced if it raises the stack. -/
theorem balanced (h : Labelled code n n') (hr : Raises code a a b) (hret : .instr .ret ∉ code) :
    Balanced code a b :=
  hr.balanced hret fun _ _ _ hl ht => h.exists_line hl ht

end Labelled

/-- A label leaves the stack as it is. -/
theorem Raises.ofLabel {t : Label} (h : low ≤ a) : Raises [.label t] low a a := by
  refine ⟨?_, fun _ => a, ⟨?_, ?_, fun _ _ => h⟩, rfl⟩
  · have hway : Way [.label t] a 1 (a + 0) := Way.start.next (l := .label t) rfl rfl
    rwa [Int.add_zero] at hway
  · intro i l hl _
    cases List.mem_singleton.mp (List.mem_of_getElem? hl)
    exact (Int.add_zero a).symm
  · intro i j l t hl ht _
    cases List.mem_singleton.mp (List.mem_of_getElem? hl)
    cases ht

/-! ## Code without returns -/

theorem Straight.no_ret (h : Straight code) : .instr .ret ∉ code := by
  obtain ⟨is, rfl, his⟩ := h
  intro hmem
  obtain ⟨ins, hins, heq⟩ := List.mem_map.mp hmem
  cases heq
  cases List.all_eq_true.mp his _ hins

theorem BinaryOp.lower_no_ret {op : BinaryOp} (h : op.lower n = .ok (code, n')) :
    .instr .ret ∉ code := by
  cases op with
  | lessThan | lessEqual | equal | notEqual =>
    cases h
    simp [instrs]
  | _ =>
    cases h
    exact Straight.no_ret ⟨_, rfl, rfl⟩

theorem Site.call_no_ret {site : Site} {callee : Option String} {cls method : String} {args : Nat}
    (h : site.call callee cls method args = .ok code) : .instr .ret ∉ code := by
  obtain ⟨owner, _, _, rfl⟩ := call_code h
  simp [instrs]

namespace Expr

variable {site : Site}

mutual

/-- The code of an expression does not return. -/
theorem lower_no_ret : ∀ (e : Expr) {n n' : Nat} {code : List Line},
    e.lower site n = .ok (code, n') → .instr .ret ∉ code
  | .binary _ op left right, _, _, _, h => by
    obtain ⟨cl, _, hl, h⟩ := state_bind_ok_iff.mp h
    obtain ⟨cr, _, hr, h⟩ := state_bind_ok_iff.mp h
    obtain ⟨co, _, ho, h⟩ := state_bind_ok_iff.mp h
    cases h
    rw [List.mem_append, List.mem_append, not_or, not_or]
    exact ⟨⟨lower_no_ret left hl, lower_no_ret right hr⟩, BinaryOp.lower_no_ret ho⟩
  | .unary _ op operand, _, _, _, h => by
    obtain ⟨c, _, hc, h⟩ := state_bind_ok_iff.mp h
    cases h
    rw [List.mem_append, not_or]
    exact ⟨lower_no_ret operand hc, op.lower_straight.no_ret⟩
  | .methodCall note receiver method args, _, _, _, h => by
    obtain ⟨_, cr, _, ca, cc, hr, ha, hc, rfl⟩ := lower_methodCall_ok h
    rw [List.mem_append, List.mem_append, not_or, not_or]
    exact ⟨⟨lower_no_ret receiver hr, lowerArgs_no_ret args ha⟩, Site.call_no_ret hc⟩
  | .selfCall note method args, _, _, _, h => by
    obtain ⟨ca, cc, ha, hc, rfl⟩ := lower_selfCall_ok h
    rw [List.mem_append, List.mem_append, not_or, not_or]
    exact ⟨⟨Straight.no_ret ⟨_, rfl, rfl⟩, lowerArgs_no_ret args ha⟩, Site.call_no_ret hc⟩
  | .var _ name, _, _, _, h => by
    obtain ⟨hcode, rfl⟩ := state_lift_ok_iff.mp h
    exact (Site.load_straight hcode).no_ret
  | .num .., _, _, _, h | .bool .., _, _, _, h | .nothing .., _, _, _, h => by
    cases h
    exact Straight.no_ret ⟨_, rfl, rfl⟩
  | .new _ cls, _, _, _, h => by
    obtain ⟨hcode, rfl⟩ := state_lift_ok_iff.mp h
    exact (Site.allocate_straight hcode).no_ret

/-- The code of arguments does not return. -/
theorem lowerArgs_no_ret : ∀ (args : List Expr) {n n' : Nat} {code : List Line},
    lowerArgs site args n = .ok (code, n') → .instr .ret ∉ code
  | [], _, _, _, h => by
    cases h
    exact List.not_mem_nil
  | e :: rest, _, _, _, h => by
    obtain ⟨cr, _, hr, h⟩ := state_bind_ok_iff.mp h
    obtain ⟨ce, _, he, h⟩ := state_bind_ok_iff.mp h
    cases h
    rw [List.mem_append, not_or]
    exact ⟨lowerArgs_no_ret rest hr, lower_no_ret e he⟩

end

end Expr

namespace Stmt

variable {site : Site}

mutual

/-- The code of a statement does not return. -/
theorem lower_no_ret : ∀ (s : Stmt) {n n' : Nat} {code : List Line},
    s.lower site n = .ok (code, n') → .instr .ret ∉ code
  | .assign _ name value, _, _, _, h => by
    obtain ⟨cv, _, hv, h⟩ := state_bind_ok_iff.mp h
    obtain ⟨cs, _, hlift, hpure⟩ := state_bind_ok_iff.mp h
    obtain ⟨hs, rfl⟩ := state_lift_ok_iff.mp hlift
    cases hpure
    rw [List.mem_append, not_or]
    exact ⟨value.lower_no_ret hv, (Site.store_straight hs).no_ret⟩
  | .cond _ test body, _, _, _, h => by
    obtain ⟨finish, _, hf, h⟩ := state_bind_ok_iff.mp h
    cases hf
    obtain ⟨ct, _, ht, h⟩ := state_bind_ok_iff.mp h
    obtain ⟨cb, _, hb, h⟩ := state_bind_ok_iff.mp h
    cases h
    rw [List.mem_append, List.mem_append, List.mem_append, not_or, not_or, not_or]
    exact ⟨⟨⟨test.lower_no_ret ht, by simp [instrs]⟩, lowerAll_no_ret body hb⟩, by simp⟩
  | .print _ value, _, _, _, h => by
    obtain ⟨cv, _, hv, h⟩ := state_bind_ok_iff.mp h
    cases h
    rw [List.mem_append, not_or]
    exact ⟨value.lower_no_ret hv, by simp [instrs]⟩

/-- The code of statements does not return. -/
theorem lowerAll_no_ret : ∀ (body : List Stmt) {n n' : Nat} {code : List Line},
    lowerAll site body n = .ok (code, n') → .instr .ret ∉ code
  | [], _, _, _, h => by
    cases h
    exact List.not_mem_nil
  | s :: rest, _, _, _, h => by
    obtain ⟨cs, _, hs, h⟩ := state_bind_ok_iff.mp h
    obtain ⟨cr, _, hr, h⟩ := state_bind_ok_iff.mp h
    cases h
    rw [List.mem_append, not_or]
    exact ⟨lower_no_ret s hs, lowerAll_no_ret rest hr⟩

end

end Stmt

/-! ## The frame of a method -/

namespace Frame

/-- Variables are placed in slots of one word. -/
theorem size_of_place {next : Int → Except Fault Int} {vars : List (String × Ty)}
    {first last : Int} {slots : List Slot} (h : place next first vars = .ok (slots, last)) :
    ∀ slot ∈ slots, slot.size = Word.size := by
  induction vars generalizing first slots with
  | nil =>
    cases h
    intro slot hmem
    cases hmem
  | cons v rest ih =>
    obtain ⟨_, _, h⟩ := except_bind_ok_iff.mp h
    obtain ⟨⟨slots, last⟩, hrest, h⟩ := except_bind_ok_iff.mp h
    cases h
    intro slot hmem
    rcases List.mem_cons.mp hmem with rfl | hmem
    · rfl
    · exact ih hrest slot hmem

/-- Sizes of one word add up to as many words. -/
theorem total_of_words {slots : List Slot} (hs : ∀ slot ∈ slots, slot.size = Word.size)
    {total room : Int}
    (h : slots.foldlM (fun total slot => Word.add total slot.size) total = .ok room) :
    room = total + 4 * slots.length := by
  induction slots generalizing total with
  | nil =>
    cases h
    simp
  | cons slot rest ih =>
    rw [List.foldlM_cons] at h
    obtain ⟨next, hnext, hrest⟩ := except_bind_ok_iff.mp h
    have hsize : slot.size = 4 := hs slot List.mem_cons_self
    have htotal : total + slot.size = next := (Word.exact_eq_ok_iff.mp hnext).2
    have hroom := ih (fun s hmem => hs s (List.mem_cons_of_mem slot hmem)) hrest
    rw [List.length_cons]
    push_cast
    omega

/-- A frame that is laid out reserves one word for each local. -/
theorem localsSize_of_ofMethod {m : Method} {f : Frame} {room : Int} (hf : ofMethod m = .ok f)
    (h : f.localsSize = .ok room) : room = 4 * f.locals.length := by
  obtain ⟨⟨params, receiver⟩, _, hf⟩ := except_bind_ok_iff.mp hf
  obtain ⟨⟨locals, last⟩, hlocals, hf⟩ := except_bind_ok_iff.mp hf
  cases hf
  have htotal := total_of_words (size_of_place hlocals) h
  rwa [Int.zero_add] at htotal

end Frame

/-! ## The code of a method -/

/-- Labelled code is at its first line only at the start: it jumps down. -/
theorem Labelled.way_start (h : Labelled code n n') (hw : Way code a 0 x) : x = a := by
  cases hw with
  | start => rfl
  | jump _ hl ht hj =>
    obtain ⟨j, hlt, _, hone⟩ := h.exists_line hl ht
    have heq := hone _ hj
    omega

/-- Before other labelled code, the ways are those of the code itself. -/
theorem Way.before_iff {k : Nat} (lp : Labelled p n k) (lq : Labelled q k n')
    (hi : i ≤ p.length) : Way (p ++ q) a i x ↔ Way p a i x := by
  refine ⟨?_, .left⟩
  intro hw
  have hsplit := hw.split lp lq
  by_cases hlt : i < p.length
  · exact hsplit.1 hlt
  · have hlen : i = p.length := by omega
    subst hlen
    -- the end of the first is the start of the second, to which nothing jumps back
    obtain ⟨y, hy, hq⟩ := hsplit.2 (Nat.le_refl _)
    rw [Nat.sub_self] at hq
    rwa [lq.way_start hq]

/-- Behind other code, if the two do not jump to each other and all ways come to
    the end of the first at one depth, the ways are those of the code itself. -/
theorem Way.behind_iff
    (hover : ∀ (i j : Nat) (l : Line) (t : Label), p[i]? = some l → l.target? = some t →
      q[j]? ≠ some (.label t))
    (hback : ∀ (i j : Nat) (l : Line) (t : Label), q[i]? = some l → l.target? = some t →
      p[j]? ≠ some (.label t)) (hends : ∀ y, Way p a p.length y ↔ y = b) :
    Way (p ++ q) a (p.length + i) x ↔ Way q b i x := by
  constructor
  · intro hw
    obtain ⟨y, hy, hq⟩ := (hw.parts hover hback).2 (Nat.le_add_right _ _)
    rw [Nat.add_sub_cancel_left] at hq
    rwa [(hends y).mp hy] at hq
  · intro hq
    exact ((hends b).mpr rfl).append hq

namespace Method

/-- The head of a method: its label, the saved frame pointer, and the words that
    it reserves. -/
def entry (label : String) (words : Nat) : List Line :=
  .label (.named label) :: (prologue ++ instrs [.arith .sub (.imm (4 * words)) (.reg .esp)])

/-- The end of a method: its value is taken from the stack, and the frame is left. -/
def exit : List Line := instrs [.pop .eax] ++ epilogue

/-- The head jumps nowhere. -/
theorem target_of_mem_entry {label : String} {words : Nat} {l : Line}
    (h : l ∈ entry label words) : l.target? = none := by
  simp only [entry, prologue, instrs, List.map_cons, List.map_nil, List.cons_append,
    List.nil_append, List.mem_cons, List.not_mem_nil, or_false] at h
  rcases h with rfl | rfl | rfl | rfl <;> rfl

/-- Labelled code does not jump to the head. -/
theorem not_mem_entry {label : String} {words k : Nat} :
    .label (.numbered k) ∉ entry label words := by
  simp [entry, prologue, instrs]

theorem exit_labelled : Labelled exit n n := by
  show Labelled (instrs [.pop .eax, .mov (.reg .ebp) (.reg .esp), .pop .ebp, .ret]) n n
  exact .of_no_target (by simp [instrs, Line.target?])

/-- The head saves the frame pointer and reserves the words: all ways through it
    are one. -/
theorem entry_balanced (label : String) (words : Nat) :
    Balanced (entry label words) a (a + 1 + words) := by
  have hgrow : a + 1 + (4 * (words : Int)) / 4 = a + 1 + words := by omega
  have hroom : Raises (instrs [.arith .sub (.imm (4 * words)) (.reg .esp)]) a (a + 1)
      (a + 1 + words) :=
    .instr rfl rfl (by omega) hgrow (.nil (by omega))
  have hframe : Raises (prologue ++ instrs [.arith .sub (.imm (4 * words)) (.reg .esp)]) a a
      (a + 1 + words) :=
    .push (Int.le_refl a) (.instr rfl rfl (by omega) (Int.add_zero _) hroom)
  have hno := @target_of_mem_entry label words
  have hcode : Raises (entry label words) a a (a + 1 + words) := by
    apply (Raises.ofLabel (Int.le_refl a)).beside hframe
    · intro i j l t hl ht
      rw [hno (List.mem_append_left _ (List.mem_of_getElem? hl))] at ht
      cases ht
    · intro i j l t hl ht
      rw [hno (List.mem_cons_of_mem _ (List.mem_of_getElem? hl))] at ht
      cases ht
  apply hcode.balanced
  · simp [entry, prologue, instrs]
  · intro i l t hl ht
    rw [hno (List.mem_of_getElem? hl)] at ht
    cases ht

/-- The code of a method in three parts: it enters its frame, works above the
    words that it reserves and leaves one word on them, and takes that word. -/
structure Framed (code head body : List Line) (words : Nat) (a : Int) : Prop where
  parts : code = head ++ body ++ exit
  enters : Balanced head a (a + 1 + words)
  works : Balanced body (a + 1 + words) (a + 1 + words + 1)
  /-- In the body, the ways through the method are those of the body. -/
  inside : ∀ i x, i ≤ body.length →
    (Way code a (head.length + i) x ↔ Way body (a + 1 + words) i x)
  /-- The word of the value is on the stack where it is taken. -/
  value : ∀ x, Way code a (head ++ body).length x ↔ x = a + 1 + words + 1

/-- A method whose frame was laid out keeps to it. -/
theorem framed {site : Site} {m m' : Method} (hfew : m.FewArgs)
    (hf : Frame.ofMethod m' = .ok site.frame) (h : m.lower site n = .ok (code, n')) (a : Int) :
    ∃ cb k cv, Stmt.lowerAll site m.body n = .ok (cb, k) ∧ m.value.lower site k = .ok (cv, n') ∧
      Framed code (entry (methodLabel site.cls m.name) site.frame.locals.length) (cb ++ cv)
        site.frame.locals.length a := by
  obtain ⟨room, _, hlift, h⟩ := state_bind_ok_iff.mp h
  obtain ⟨cb, k, hb, h⟩ := state_bind_ok_iff.mp h
  obtain ⟨cv, _, hv, hpure⟩ := state_bind_ok_iff.mp h
  obtain ⟨hsize, rfl⟩ := state_lift_ok_iff.mp hlift
  cases hpure
  have hroom := Frame.localsSize_of_ofMethod hf hsize
  subst hroom
  have lbody := (Stmt.labelledAll m.body hb).append (Expr.labelled m.value hv)
  have hraises : ∀ d : Int, Raises (cb ++ cv) d d (d + 1) := fun d =>
    (Stmt.levelAll m.body hfew.body hb).append (Expr.raises m.value hfew.value hv)
      (Stmt.labelledAll m.body hb) (Expr.labelled m.value hv)
  have hret : .instr .ret ∉ cb ++ cv := by
    rw [List.mem_append, not_or]
    exact ⟨Stmt.lowerAll_no_ret m.body hb, m.value.lower_no_ret hv⟩
  have hworks := lbody.balanced (hraises (a + 1 + site.frame.locals.length)) hret
  have henters := entry_balanced (a := a) (methodLabel site.cls m.name) site.frame.locals.length
  -- the head jumps nowhere and the body only to its own labels, so no way comes
  -- into the body but from its start
  have hinside : ∀ i x, i ≤ (cb ++ cv).length →
      (Way (entry (methodLabel site.cls m.name) site.frame.locals.length ++ ((cb ++ cv) ++ exit)) a
          ((entry (methodLabel site.cls m.name) site.frame.locals.length).length + i) x ↔
        Way (cb ++ cv) (a + 1 + site.frame.locals.length) i x) := by
    intro i x hi
    rw [Way.behind_iff _ _ henters.ends]
    · exact Way.before_iff lbody exit_labelled hi
    · intro i j l t hl ht
      rw [target_of_mem_entry (List.mem_of_getElem? hl)] at ht
      cases ht
    · intro i j l t hl ht hj
      obtain ⟨x, rfl, _⟩ := (lbody.append exit_labelled).exists_target hl ht
      exact not_mem_entry (List.mem_of_getElem? hj)
  have hparts : [.label (.named (methodLabel site.cls m.name))] ++ prologue
      ++ instrs [.arith .sub (.imm (4 * site.frame.locals.length)) (.reg .esp)] ++ cb ++ cv
      ++ instrs [.pop .eax] ++ epilogue =
      entry (methodLabel site.cls m.name) site.frame.locals.length ++ ((cb ++ cv) ++ exit) := by
    simp [entry, exit, List.append_assoc]
  rw [hparts]
  refine ⟨cb, k, cv, hb, hv, (List.append_assoc _ _ _).symm, henters, hworks, hinside, ?_⟩
  intro x
  rw [List.length_append]
  -- the value is taken where the body ends
  exact (hinside _ x (Nat.le_refl _)).trans (hworks.ends x)

end Method

/-! ## All trees -/

/-- **The stack discipline of code**: at every site, whether the trees were
    checked or not and whatever the jumps do, the code of an expression leaves
    one word on the stack and that of a statement leaves it as it was; neither
    comes below the depth where it starts, and where ways meet they have one
    depth.  So the body of a method works above the words that its head reserves,
    and one word is on them where its value is taken.  Calls have fewer arguments
    than the limit. -/
theorem Site.stack_discipline (site : Site) :
    (∀ (e : Expr) (n n' : Nat) (code : List Line) (a : Int), e.FewArgs →
      e.lower site n = .ok (code, n') → Balanced code a (a + 1)) ∧
    (∀ (s : Stmt) (n n' : Nat) (code : List Line) (a : Int), s.FewArgs →
      s.lower site n = .ok (code, n') → Balanced code a a) ∧
    (∀ (m m' : Method) (n n' : Nat) (code : List Line) (a : Int), m.FewArgs →
      Frame.ofMethod m' = .ok site.frame → m.lower site n = .ok (code, n') →
      ∃ cb k cv, Stmt.lowerAll site m.body n = .ok (cb, k) ∧
        m.value.lower site k = .ok (cv, n') ∧
        Method.Framed code (Method.entry (methodLabel site.cls m.name) site.frame.locals.length)
          (cb ++ cv) site.frame.locals.length a) := by
  refine ⟨?_, ?_, ?_⟩
  · intro e n n' code a hfew h
    exact (e.labelled h).balanced (e.raises hfew h) (e.lower_no_ret h)
  · intro s n n' code a hfew h
    exact (s.labelled h).balanced (s.level hfew h) (s.lower_no_ret h)
  · intro m m' n n' code a hfew hf h
    exact Method.framed hfew hf h a

/-- A method with one local, in which an assignment of the value of a call stands
    under a condition. -/
def Method.least : Method where
  name := "least"
  result := .bool
  params := [⟨.int, "a", 1⟩]
  locals := [⟨.int, ["x"], 1⟩]
  body := [.cond 2 (.binary { line := 2 } .lessThan (.num { line := 2 } 1) (.var { line := 2 } "a"))
    [.assign 2 "x" (.selfCall { line := 2, callee := some "Program" } "least"
      [.var { line := 2 } "a"])]]
  value := .binary { line := 3 } .lessEqual (.var { line := 3 } "x") (.var { line := 3 } "a")
  line := 1

/-- Where this method stands alone in its class. -/
def Site.least : Site where
  cls := "Program"
  object := {}
  frame := Method.least.frame
  layouts := {}
  classes := ({} : Hierarchy).insert { name := "Program", parent := none, index := 0, scope := 0 }

theorem Method.fewArgs_least : Method.least.FewArgs := by
  have hvar : ∀ (note : Note) (x : String), (Expr.var note x).FewArgs := fun _ _ => .var
  have hnum : ∀ (note : Note) (value : Int), (Expr.num note value).FewArgs := fun _ _ => .num
  rintro e (⟨s, hs, he⟩ | he)
  · cases List.mem_singleton.mp hs
    cases he with
    | test he => exact Expr.FewArgs.binary (hnum _ _) (hvar _ _) e he
    | body hs he =>
      cases List.mem_singleton.mp hs
      cases he with
      | assign he => exact Expr.FewArgs.selfCall (by decide) (by simpa using hvar _ _) e he
  · exact Expr.FewArgs.binary (hvar _ _) (hvar _ _) e he

/-- At this site, the value, the condition and the whole method. -/
theorem Site.stack_discipline_least :
    (∃ code n', Method.least.value.FewArgs ∧
      Method.least.value.lower Site.least 0 = .ok (code, n') ∧ Balanced code 3 4) ∧
    (∃ code n', (Method.least.body.head (by decide)).FewArgs ∧
      (Method.least.body.head (by decide)).lower Site.least 0 = .ok (code, n') ∧
      Balanced code 2 2) ∧
    (∃ code n' body, Method.least.FewArgs ∧ Method.least.lower Site.least 0 = .ok (code, n') ∧
      Method.Framed code (Method.entry "Program_least" 1) body 1 0) := by
  have hfew := Method.fewArgs_least
  have hvalue := hfew.value
  have hbody := hfew.body _ (List.head_mem (l := Method.least.body) (by decide))
  refine ⟨⟨_, _, hvalue, rfl, ?_⟩, ⟨_, _, hbody, rfl, ?_⟩, ?_⟩
  · exact (Site.stack_discipline Site.least).1 Method.least.value 0 _ _ 3 hvalue rfl
  · exact (Site.stack_discipline Site.least).2.1 (Method.least.body.head (by decide)) 0 _ _ 2 hbody
      rfl
  · obtain ⟨cb, k, cv, _, _, hframed⟩ :=
      (Site.stack_discipline Site.least).2.2 Method.least Method.least 0 _ _ 0 hfew
        (Method.ofMethod_eq (by decide)) rfl
    exact ⟨_, _, cb ++ cv, hfew, rfl, hframed⟩

/-! ## Too many arguments -/

/-- A call of a method of the own class with as many numbers. -/
def Expr.crowded (count : Nat) : Expr :=
  .selfCall { line := 1, callee := some "Program" } "least"
    (List.replicate count (.num { line := 1 } 0))

/-- Numbers as arguments are pushed one by one. -/
theorem Expr.lowerArgs_replicate {site : Site} {note : Note} {value : Int} (count : Nat) :
    lowerArgs site (List.replicate count (.num note value)) n =
      .ok (instrs (List.replicate count (.push (.imm value))), n) := by
  induction count with
  | zero => rfl
  | succ count ih =>
    rw [List.replicate_succ, List.replicate_succ']
    refine state_bind_ok_iff.mpr ⟨_, n, ih, ?_⟩
    simp [instrs, lower, pure, StateT.pure, bind, StateT.bind, Except.bind, Except.pure]

/-- The bytes that a call takes from the stack, whatever they are, do not change
    what receiver and arguments have put there. -/
theorem Expr.exists_way_crowded {count : Nat} {bytes : Int}
    (hcall : Site.least.call (some "Program") "Program" "least" count =
      .ok (instrs [.call "Program_least", .arith .add (.imm bytes) (.reg .esp),
        .push (.reg .eax)])) :
    ∃ code, (crowded count).lower Site.least 0 = .ok (code, 0) ∧
      Way code 0 code.length (1 + count - bytes / 4 + 1) := by
  have hargs : lowerArgs Site.least (List.replicate count (.num { line := 1 } 0)) 0 =
      .ok (instrs (List.replicate count (.push (.imm 0))), 0) := lowerArgs_replicate count
  let args := List.replicate count (Expr.num { line := 1 } 0)
  have hlength : args.length = count := List.length_replicate
  have hlower : (crowded count).lower Site.least 0 =
      .ok (instrs [.push Site.least.receiver] ++ instrs (List.replicate count (.push (.imm 0)))
        ++ instrs [.call "Program_least", .arith .add (.imm bytes) (.reg .esp),
          .push (.reg .eax)], 0) := by
    rw [crowded, lower]
    refine state_bind_ok_iff.mpr ⟨_, 0, hargs, state_bind_ok_iff.mpr ⟨_, 0, ?_, rfl⟩⟩
    refine state_lift_ok_iff.mpr ⟨?_, rfl⟩
    rw [List.length_replicate]
    exact hcall
  -- receiver and arguments are pushed
  have hself : Raises (instrs [.push Site.least.receiver]) 0 0 1 :=
    .push (Int.le_refl 0) (.nil (by decide))
  have hpushed : Raises (instrs (List.replicate count (.push (.imm 0)))) 1 1 (1 + args.length) := by
    refine raisesArgs args ?_ hargs
    intro e he
    rw [List.eq_of_mem_replicate he]
    exact .num
  rw [hlength] at hpushed
  have hready := hself.ends.append hpushed.ends
  rw [← List.length_append] at hready
  -- the three lines of the call
  have hstart : ∀ a, Way (instrs [.call "Program_least", .arith .add (.imm bytes) (.reg .esp),
      .push (.reg .eax)]) a 3 (a + 0 + -(bytes / 4) + 1) := by
    intro a
    have hbegin : Way (instrs [.call "Program_least", .arith .add (.imm bytes) (.reg .esp),
        .push (.reg .eax)]) a 0 a := .start
    have hcalled := hbegin.next rfl rfl
    exact (hcalled.next rfl rfl).next rfl rfl
  refine ⟨_, hlower, ?_⟩
  have hend := hready.append (hstart (1 + count))
  have hdepth : (1 + count : Int) + 0 + -(bytes / 4) + 1 = 1 + count - bytes / 4 + 1 := by omega
  rw [hdepth] at hend
  rw [List.length_append]
  exact hend

/-- Two methods that share a label. -/
def Program.sharing : String :=
  "class A { int b_c(int p) { return p; } } class A_b { int c() { int q; return 1; } } " ++
  "class Program { nothing start() { return nothing; } }"

/-- The block of the second one. -/
def Program.sharedBlock : List Line :=
  .label (.named "A_b_c") :: prologue
    ++ instrs [.arith .sub (.imm 0) (.reg .esp), .push (.imm 1), .pop .eax] ++ epilogue

set_option maxRecDepth 4096 in
/-- The second one has a local, but the frame of the label has none. -/
theorem Program.sharing_lowered :
    ∃ a lines g c m, analyze sharing = .ok a ∧
      Generator.generate a.tables.classes a.program {} = .ok lines g ∧
      a.program.classes[1]? = some c ∧ c.methods = [m] ∧ methodLabel c.name m.name = "A_b_c" ∧
      (Declaration.variables m.locals).length = 1 ∧
      .comment "class A_b" :: sharedBlock <:+: lines := by
  have h : (match analyze sharing with
      | .ok a =>
        match Generator.generate a.tables.classes a.program {} with
        | .ok lines _ => decide
            ((a.program.classes.map fun c =>
                (c.name, c.methods.map fun m => (m.name, (Declaration.variables m.locals).length))) =
              [("A", [("b_c", 0)]), ("A_b", [("c", 1)]), ("Program", [("start", 0)])] ∧
            (lines.drop 30).take 10 = .comment "class A_b" :: sharedBlock)
        | .error _ _ => false
      | .error _ => false) = true := by
    cbv
  split at h
  · next a ha =>
    split at h
    · next lines g hg =>
      obtain ⟨hclasses, hblock⟩ := of_decide_eq_true h
      have hsecond := congrArg (·[1]?) hclasses
      rw [List.getElem?_map] at hsecond
      obtain ⟨c, hc, hpair⟩ := Option.map_eq_some_iff.mp hsecond
      obtain ⟨hname, hmethods⟩ := Prod.mk.inj hpair
      obtain ⟨m, hm, hmethod⟩ := List.map_eq_singleton_iff.mp hmethods
      obtain ⟨hmname, hlocals⟩ := Prod.mk.inj hmethod
      refine ⟨a, lines, g, c, m, ha, hg, hc, hm, by rw [hname, hmname]; rfl, hlocals, ?_⟩
      rw [← hblock]
      exact (List.take_prefix _ _).isInfix.trans (List.drop_suffix _ _).isInfix
    · cases h
  · cases h

/-- Where the value of the second one is taken there is one word on the saved
    frame pointer. -/
theorem Program.way_sharedBlock (x : Int) : Way sharedBlock 0 5 x ↔ x = 2 := by
  let m : Method := ⟨"c", .int, [], [⟨.int, ["q"], 1⟩], [], .num { line := 1 } 1, 1⟩
  let site : Site := ⟨"A_b", {}, ⟨[], [], 8⟩, {}, {}⟩
  have hfew : m.FewArgs := by
    rintro e (⟨s, hs, _⟩ | he)
    · cases hs
    · exact Expr.FewArgs.num e he
  have hlower : m.lower site 0 = .ok (sharedBlock, 0) := rfl
  -- the frame of the site is that of the earlier method, which has no local
  let earlier : Method := ⟨"b_c", .int, [], [], [], .num { line := 1 } 1, 1⟩
  have hframe : Frame.ofMethod earlier = .ok site.frame := rfl
  obtain ⟨cb, k, cv, hb, hv, hframed⟩ := Method.framed hfew hframe hlower 0
  cases hb
  cases hv
  exact hframed.value x

/-- **Where the discipline fails**: an expression with as many arguments as the
    limit is lowered, and its code does not leave one word.  A method that shares
    the label of an earlier one has the frame of that one, and the words that its
    own locals would take are not reserved. -/
theorem Site.stack_discipline_fails :
    (∃ code n', (Expr.crowded argLimit).lower Site.least 0 = .ok (code, n') ∧
      ¬ Balanced code 0 (0 + 1)) ∧
    ∃ a lines g c m, Program.analyze Program.sharing = .ok a ∧
      Generator.generate a.tables.classes a.program {} = .ok lines g ∧
      a.program.classes[1]? = some c ∧ c.methods = [m] ∧
      Program.sharedBlock.head? = some (.label (.named (methodLabel c.name m.name))) ∧
      .comment "class A_b" :: Program.sharedBlock <:+: lines ∧
      Program.sharedBlock[5]? = some (.instr (.pop .eax)) ∧
      ¬ ∀ x, Way Program.sharedBlock 0 5 x → x = 0 + 1 + (Declaration.variables m.locals).length + 1 := by
  constructor
  · -- the bytes of the operands are a negative number
    have hcall : Site.least.call (some "Program") "Program" "least" argLimit =
        .ok (instrs [.call "Program_least", .arith .add (.imm (-2147483648)) (.reg .esp),
          .push (.reg .eax)]) := rfl
    obtain ⟨code, hlower, hway⟩ := Expr.exists_way_crowded hcall
    refine ⟨code, 0, hlower, ?_⟩
    intro hbalanced
    have hdepth := (hbalanced.ends _).mp hway
    simp only [argLimit] at hdepth
    omega
  · obtain ⟨a, lines, g, c, m, ha, hg, hc, hm, hlabel, hlocals, hblock⟩ := Program.sharing_lowered
    refine ⟨a, lines, g, c, m, ha, hg, hc, hm, by rw [hlabel]; rfl, hblock, rfl, ?_⟩
    intro hall
    have hdepth := hall 2 ((Program.way_sharedBlock 2).mpr rfl)
    rw [hlocals] at hdepth
    cases hdepth

end ClassLang
