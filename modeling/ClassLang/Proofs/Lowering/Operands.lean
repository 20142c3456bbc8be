import ClassLang.Proofs.Lowering.Calls
import ClassLang.Proofs.Lowering.Depth
import ClassLang.Proofs.Lowering.Names

/-! # Calls and frames

    What a call puts on the stack, and what the frame of a method expects there.

    * **`Expr.operands`** are the receiver and the arguments of a call in the
      order in which they go on the stack, and **`Expr.lower_call`** is the code
      of a call in terms of theirs.
    * **`Stacks`**: the operands go on the stack one by one, stay there until
      the call, and leave it right after.
    * **`Frame.Apart`**: no two words of a frame overlap, and the locals lie in
      the bytes that are reserved for them.
    * **`Generator.exists_block`**: the block of a method in a text is its code at
      the site that the generator has there. -/

namespace ClassLang

/-! ## Operands -/

namespace Expr

/-- What a call puts on the stack, in this order: its receiver, and its arguments
    from the last to the first.  Where there is no expression it is the object
    of the running method. -/
def operands : Expr → List (Option Expr)
  | methodCall _ receiver _ args => some receiver :: args.reverse.map some
  | selfCall _ _ args => none :: args.reverse.map some
  | binary .. | unary .. | var .. | num .. | bool .. | nothing .. | new .. => []

/-- The code of an operand. -/
def OperandCode (site : Site) : Option Expr → Nat → List Line → Nat → Prop
  | some e, n, code, n' => e.lower site n = .ok (code, n')
  | none, n, code, n' => code = instrs [.push site.receiver] ∧ n' = n

variable {site : Site} {n n' : Nat} {code : List Line} {codes : List (List Line)}

theorem OperandCode.labelled {o : Option Expr} (h : OperandCode site o n code n') :
    Labelled code n n' := by
  cases o with
  | some e => exact e.labelled h
  | none =>
    obtain ⟨rfl, rfl⟩ := h
    exact .straight ⟨_, rfl, rfl⟩

/-- The operands of an expression with few arguments have few arguments. -/
theorem FewArgs.operands {e operand : Expr} (h : e.FewArgs) (hmem : some operand ∈ e.operands) :
    operand.FewArgs := by
  have hargs : ∀ {args : List Expr}, some operand ∈ args.reverse.map some → operand ∈ args := by
    intro args hmem
    obtain ⟨_, harg, heq⟩ := List.mem_map.mp hmem
    cases heq
    exact List.mem_reverse.mp harg
  cases e with
  | methodCall note receiver method args =>
    rcases List.mem_cons.mp hmem with heq | hmem
    · cases heq
      exact fun e he => h e (.receiver he)
    · exact h.methodArgs _ (hargs hmem)
  | selfCall note method args =>
    rcases List.mem_cons.mp hmem with heq | hmem
    · cases heq
    · exact h.selfArgs _ (hargs hmem)
  | _ => cases hmem

/-- An operand is one word. -/
theorem OperandCode.raises {o : Option Expr} {a : Int} (hfew : ∀ e, o = some e → e.FewArgs)
    (h : OperandCode site o n code n') : Raises code a a (a + 1) := by
  cases o with
  | some e => exact e.raises (hfew e rfl) h
  | none =>
    obtain ⟨rfl, rfl⟩ := h
    exact .push (Int.le_refl a) (.nil (Int.le_add_one (Int.le_refl a)))

/-- Operands in a row are as many words as there are operands. -/
theorem raises_operands {os : List (Option Expr)} (hfew : ∀ e, some e ∈ os → e.FewArgs)
    (h : Chain (OperandCode site) os n codes n') :
    Labelled codes.flatten n n' ∧
      ∀ a : Int, Raises codes.flatten a a (a + codes.length) := by
  induction h with
  | nil =>
    refine ⟨.straight ⟨[], rfl, rfl⟩, ?_⟩
    intro a
    show Raises [] a a (a + 0)
    rw [Int.add_zero]
    exact .nil (Int.le_refl a)
  | @cons o os n code k codes n' hcode _ ih =>
    obtain ⟨hlabels, hraises⟩ := ih fun e he => hfew e (List.mem_cons_of_mem _ he)
    have hfirst : ∀ e, o = some e → e.FewArgs := fun e heq => hfew e (heq ▸ List.mem_cons_self)
    refine ⟨hcode.labelled.append hlabels, ?_⟩
    intro a
    have hrest : Raises codes.flatten a (a + 1) (a + (code :: codes).length) := by
      have hcount : a + ((code :: codes).length : Int) = a + 1 + codes.length := by
        rw [List.length_cons]
        omega
      rw [hcount]
      exact (hraises (a + 1)).mono (by omega)
    exact (hcode.raises hfirst).append hrest hcode.labelled hlabels

/-- The code of arguments is that of its operands, from the last to the first. -/
theorem lowerArgs_chain {args : List Expr} (h : lowerArgs site args n = .ok (code, n')) :
    ∃ codes, Chain (OperandCode site) (args.reverse.map some) n codes n' ∧
      code = codes.flatten := by
  induction args generalizing n' code with
  | nil =>
    cases h
    exact ⟨[], .nil, rfl⟩
  | cons e rest ih =>
    obtain ⟨cr, k, hr, h⟩ := state_bind_ok_iff.mp h
    obtain ⟨ce, k', he, hpure⟩ := state_bind_ok_iff.mp h
    cases hpure
    obtain ⟨codes, hcodes, rfl⟩ := ih hr
    have hfirst : Chain (OperandCode site) [some e] k [ce] _ := .cons he .nil
    refine ⟨codes ++ [ce], ?_, ?_⟩
    · rw [List.reverse_cons, List.map_append]
      exact hcodes.append hfirst
    · rw [List.flatten_append, List.flatten_singleton]

/-- The code of a call: its operands, the call of the recorded method, and behind
    it the operands leave the stack and the value goes on it. -/
theorem lower_call {e : Expr} {owner method : String} (hr : e.runs? = some (owner, method))
    (hfew : e.argCount < argLimit) (h : e.lower site n = .ok (code, n')) :
    ∃ codes, Chain (OperandCode site) e.operands n codes n' ∧
      code = codes.flatten ++ instrs [.call (methodLabel owner method),
        .arith .add (.imm (4 * codes.length)) (.reg .esp), .push (.reg .eax)] := by
  -- what the receiver and the arguments of either form of call come to
  have hcode : ∀ (first : Option Expr) {args : List Expr} {k : Nat} {cf ca cc : List Line}
      {callee : Option String} {cls : String}, OperandCode site first n cf k →
      lowerArgs site args k = .ok (ca, n') → callee = some owner → args.length < argLimit →
      site.call callee cls method args.length = .ok cc →
      ∃ codes, Chain (OperandCode site) (first :: args.reverse.map some) n codes n' ∧
        cf ++ ca ++ cc = codes.flatten ++ instrs [.call (methodLabel owner method),
          .arith .add (.imm (4 * codes.length)) (.reg .esp), .push (.reg .eax)] := by
    intro first args k cf ca cc callee cls hfirst hargs hcallee hfew hcall
    obtain ⟨codes, hcodes, rfl⟩ := lowerArgs_chain hargs
    obtain ⟨owner', hsome, rfl⟩ := Site.call_code_of_few hfew hcall
    cases hcallee.symm.trans hsome
    have hcount : codes.length = args.length := by
      rw [hcodes.length_eq, List.length_map, List.length_reverse]
    refine ⟨cf :: codes, .cons hfirst hcodes, ?_⟩
    rw [List.flatten_cons, List.length_cons, hcount]
    rfl
  cases e with
  | methodCall note receiver name args =>
    obtain ⟨_, hcallee, heq⟩ := Option.map_eq_some_iff.mp hr
    cases heq
    obtain ⟨_, cf, _, ca, cc, hf, ha, hc, rfl⟩ := lower_methodCall_ok h
    exact hcode (some receiver) hf ha hcallee hfew hc
  | selfCall note name args =>
    obtain ⟨_, hcallee, heq⟩ := Option.map_eq_some_iff.mp hr
    cases heq
    obtain ⟨ca, cc, ha, hc, rfl⟩ := lower_selfCall_ok h
    exact hcode none ⟨rfl, rfl⟩ ha hcallee hfew hc
  | _ => cases hr

end Expr

/-! ## The stack around a call -/

/-- Operands go on the stack one by one, stay there until the call, and leave it
    right after.  `code` is the code of the whole call, entered at depth 0. -/
structure Stacks (operands : List (List Line)) (code : List Line) : Prop where
  /-- Where ways meet they have one depth. -/
  agree : ∀ i x y, Way code 0 i x → Way code 0 i y → x = y
  pushed : ∀ j ≤ operands.length, Way code 0 (operands.take j).flatten.length j
  kept : ∀ j ≤ operands.length, ∀ i x, Way code 0 i x →
    (operands.take j).flatten.length ≤ i → i ≤ operands.flatten.length → (j : Int) ≤ x
  called : Way code 0 (operands.flatten.length + 1) operands.length
  dropped : Way code 0 (operands.flatten.length + 2) 0

namespace Chain

variable {α β σ : Type} {made : α → σ → β → σ → Prop}

/-- The first results in a row, and those behind them. -/
theorem take_drop {as : List α} {bs : List β} {s t : σ} (h : Chain made as s bs t) (j : Nat) :
    ∃ u, Chain made (as.take j) s (bs.take j) u ∧ Chain made (as.drop j) u (bs.drop j) t := by
  induction h generalizing j with
  | nil =>
    rw [List.take_nil, List.take_nil, List.drop_nil, List.drop_nil]
    exact ⟨_, .nil, .nil⟩
  | cons hb hrest ih =>
    cases j with
    | zero => exact ⟨_, .nil, .cons hb hrest⟩
    | succ j =>
      obtain ⟨u, htake, hdrop⟩ := ih j
      exact ⟨u, .cons hb htake, hdrop⟩

end Chain

namespace Expr

variable {site : Site} {n n' : Nat} {code : List Line} {codes : List (List Line)}

/-- The operands of a call are on the stack as the call expects them. -/
theorem operands_stack {e : Expr} (hfew : e.FewArgs)
    (hcodes : Chain (OperandCode site) e.operands n codes n') (h : e.lower site n = .ok (code, n')) {routine : String}
    (hcode : code = codes.flatten ++ instrs [.call routine,
      .arith .add (.imm (4 * codes.length)) (.reg .esp), .push (.reg .eax)]) :
    Stacks codes code := by
  have hraises : Raises code 0 0 (0 + 1) := e.raises hfew h
  have hall := (raises_operands (fun _ => hfew.operands) hcodes).2 0
  rw [Int.zero_add] at hall
  -- each number of operands is a code of its own, in front of the others
  have hsplit : ∀ j, j ≤ codes.length → ∃ u, Labelled (codes.take j).flatten n u ∧
      Labelled (codes.drop j).flatten u n' ∧ Raises (codes.take j).flatten 0 0 j ∧
      Raises (codes.drop j).flatten j j codes.length := by
    intro j hj
    obtain ⟨u, htake, hdrop⟩ := hcodes.take_drop j
    obtain ⟨lt, ht⟩ := raises_operands (fun _ he => hfew.operands (List.mem_of_mem_take he)) htake
    obtain ⟨ld, hd⟩ := raises_operands (fun _ he => hfew.operands (List.mem_of_mem_drop he)) hdrop
    have htop : (0 : Int) + (codes.take j).length = j := by
      rw [List.length_take]
      omega
    have hend : (j : Int) + (codes.drop j).length = codes.length := by
      rw [List.length_drop]
      omega
    exact ⟨u, lt, ld, htop ▸ ht 0, hend ▸ hd j⟩
  have htake : ∀ j, codes.flatten = (codes.take j).flatten ++ (codes.drop j).flatten := by
    intro j
    rw [← List.flatten_append, List.take_append_drop]
  have hready : Way code 0 codes.flatten.length codes.length := by
    rw [hcode]
    exact hall.ends.left
  have hcalled : Way code 0 (codes.flatten.length + 1) codes.length := by
    have hstep := hready.next (l := .instr (.call routine)) (by rw [hcode]; simp [instrs]) rfl
    rwa [show (codes.length : Int) + (Line.instr (.call routine)).growth = codes.length from
      Int.add_zero _] at hstep
  refine ⟨?_, ?_, ?_, hcalled, ?_⟩
  · intro i x y hx hy
    exact (hraises.way hy).2.2 x hx
  · intro j hj
    obtain ⟨u, _, _, ht, _⟩ := hsplit j hj
    rw [hcode, htake j, List.append_assoc]
    exact ht.ends.left
  · intro j hj i x hx hle hend
    obtain ⟨u, lt, ld, ht, hd⟩ := hsplit j hj
    by_cases hlast : i = codes.flatten.length
    · -- at the call there are all operands
      rw [hlast] at hx
      rw [(hraises.way hready).2.2 x hx]
      omega
    · have ltail : Labelled (instrs [.call routine, .arith .add (.imm (4 * codes.length)) (.reg .esp),
          .push (.reg .eax)]) n' n' := .of_no_target (by simp [instrs, Line.target?])
      have hall : Labelled codes.flatten n n' :=
        (raises_operands (fun _ => hfew.operands) hcodes).1
      rw [hcode] at hx
      have hwhole : Way codes.flatten 0 i x := (hx.split hall ltail).1 (by omega)
      rw [htake j] at hwhole
      obtain ⟨y, hy, hrest⟩ := (hwhole.split lt ld).2 hle
      have hstart : y = j := (ht.way hy).2.1 rfl
      rw [hstart] at hrest
      exact (hd.way hrest).1
  · have hstep := hcalled.next (l := .instr (.arith .add (.imm (4 * codes.length)) (.reg .esp)))
      (by rw [hcode]; simp [instrs]) rfl
    have hnone : (codes.length : Int) +
        (Line.instr (.arith .add (.imm (4 * codes.length)) (.reg .esp))).growth = 0 := by
      simp only [Line.growth, Instr.growth]
      omega
    rwa [hnone] at hstep

end Expr

/-! ## The words of a frame -/

namespace Frame

/-- Where the words of a frame lie from the frame pointer: the receiver, the
    parameters, the return address, the frame pointer of the caller and the
    locals. -/
def words (f : Frame) : List Int :=
  (f.receiver :: f.params.map Slot.offset) ++ [Word.size, 0] ++ f.locals.map Slot.offset

/-- No two words of the frame overlap, and the locals lie in the `room` bytes
    below the frame pointer. -/
structure Apart (f : Frame) (room : Int) : Prop where
  size : f.localsSize = .ok room
  words : f.words.Pairwise fun o o' => o + Word.size ≤ o' ∨ o' + Word.size ≤ o
  slots : ∀ s ∈ f.params ++ f.locals, s.size = Word.size
  locals : ∀ s ∈ f.locals, -room ≤ s.offset ∧ s.offset + s.size ≤ 0
  low : ∀ o ∈ f.words, -room ≤ o

end Frame

namespace Method

/-- The offsets of words in a row. -/
theorem map_offset_wordSlots (first step : Int) (vars : List (String × Ty)) :
    (wordSlots first step vars).map Slot.offset =
      (List.range vars.length).map fun k : Nat => first + step * k := by
  apply List.ext_getElem?
  intro k
  rw [List.getElem?_map, getElem?_wordSlots, List.getElem?_map]
  by_cases hk : k < vars.length
  · rw [List.getElem?_eq_getElem hk, List.getElem?_range hk]
    rfl
  · rw [List.getElem?_eq_none (by omega), List.getElem?_eq_none (by simpa using hk)]
    rfl

theorem size_of_mem_wordSlots {first step : Int} {vars : List (String × Ty)} {s : Slot}
    (h : s ∈ wordSlots first step vars) : s.size = Word.size := by
  obtain ⟨k, hk⟩ := List.mem_iff_getElem?.mp h
  rw [getElem?_wordSlots] at hk
  obtain ⟨v, _, rfl⟩ := Option.map_eq_some_iff.mp hk
  rfl

/-- The words of the frame of a method, as numbers. -/
theorem words_frame (m : Method) : m.frame.words =
    ((8 + 4 * (m.params.length : Int)) :: (List.range m.params.length).map fun k : Nat =>
      (8 + 4 * k : Int)) ++ [4, 0] ++
    (List.range (Declaration.variables m.locals).length).map fun k : Nat => (-4 + -4 * k : Int) := by
  show (m.frame.receiver :: m.frame.params.map Slot.offset) ++ [Word.size, 0] ++
    m.frame.locals.map Slot.offset = _
  simp only [frame, map_offset_wordSlots, length_paramVariables, Word.size]
  rfl

/-- Receiver and parameters lie above the return address. -/
theorem above_of_mem {n : Nat} {o : Int}
    (h : o ∈ ((8 + 4 * (n : Int)) :: (List.range n).map fun k : Nat => (8 + 4 * k : Int))) :
    8 ≤ o := by
  rcases List.mem_cons.mp h with rfl | h
  · omega
  · obtain ⟨k, _, rfl⟩ := List.mem_map.mp h
    omega

/-- Locals lie below the frame pointer, in as many words as there are locals. -/
theorem below_of_mem {n : Nat} {o : Int}
    (h : o ∈ (List.range n).map fun k : Nat => (-4 + -4 * k : Int)) : -(4 * (n : Int)) ≤ o ∧ o ≤ -4 := by
  obtain ⟨k, hk, rfl⟩ := List.mem_map.mp h
  rw [List.mem_range] at hk
  omega

/-- Words in a row do not overlap, upwards or downwards. -/
theorem row_pairwise (first : Int) {step : Int} (hstep : step = 4 ∨ step = -4) (n : Nat) :
    ((List.range n).map fun k : Nat => first + step * k).Pairwise
      fun o o' => o + Word.size ≤ o' ∨ o' + Word.size ≤ o := by
  refine List.pairwise_map.mpr (List.pairwise_lt_range.imp ?_)
  intro j k hjk
  simp only [Word.size]
  rcases hstep with rfl | rfl <;> omega

/-- The words of the frame of a method do not overlap. -/
theorem frame_apart {m : Method} (h : m.FrameFits) :
    m.frame.Apart (4 * (Declaration.variables m.locals).length) where
  size := localsSize_frame h
  words := by
    rw [words_frame]
    -- the words above the return address, the two of the call, and the locals
    refine List.pairwise_append.mpr ⟨List.pairwise_append.mpr
      ⟨List.pairwise_cons.mpr ⟨?_, row_pairwise 8 (.inl rfl) _⟩, by decide, ?_⟩,
      row_pairwise (-4) (.inr rfl) _, ?_⟩
    · intro o ho
      obtain ⟨k, hk, rfl⟩ := List.mem_map.mp ho
      rw [List.mem_range] at hk
      simp only [Word.size]
      omega
    · intro o ho o' ho'
      have habove : 8 ≤ o := above_of_mem ho
      simp only [List.mem_cons, List.not_mem_nil, or_false] at ho'
      simp only [Word.size]
      omega
    · intro o ho o' ho'
      have hnonneg : 0 ≤ o := by
        rcases List.mem_append.mp ho with ho | ho
        · exact Int.le_trans (by decide) (above_of_mem ho)
        · simp only [List.mem_cons, List.not_mem_nil, or_false] at ho
          omega
      have hbelow := below_of_mem ho'
      simp only [Word.size]
      omega
  slots := by
    intro s hs
    rcases List.mem_append.mp hs with hs | hs
    · exact size_of_mem_wordSlots hs
    · exact size_of_mem_wordSlots hs
  locals := by
    intro s hs
    have hmem : s.offset ∈ m.frame.locals.map Slot.offset := List.mem_map_of_mem hs
    rw [show m.frame.locals = wordSlots (-Word.size) (-Word.size) (Declaration.variables m.locals)
      from rfl, map_offset_wordSlots] at hmem
    have hbelow := below_of_mem hmem
    rw [size_of_mem_wordSlots hs]
    simp only [Word.size]
    omega
  low := by
    intro o ho
    rw [words_frame] at ho
    rcases List.mem_append.mp ho with ho | ho
    · rcases List.mem_append.mp ho with ho | ho
      · have habove := above_of_mem ho
        omega
      · simp only [List.mem_cons, List.not_mem_nil, or_false] at ho
        omega
    · have hbelow := below_of_mem ho
      omega

end Method

/-! ## Blocks of a text -/

namespace Generator

variable {classes : Hierarchy} {p : Program} {older : List ClassDecl} {c : ClassDecl}
  {before : List Method} {m : Method}

/-- The generator has one site for each method. -/
theorem SiteAt.unique {site site' : Site} (h : SiteAt classes p older c before m site)
    (h' : SiteAt classes p older c before m site') : site = site' := by
  obtain ⟨codes, g, object, g₁, methods, g₂, frame, g₃, hold, hlayout, hmethods, hframe, rfl⟩ := h
  obtain ⟨_, _, _, _, _, _, _, _, hold', hlayout', hmethods', hframe', rfl⟩ := h'
  cases hold.symm.trans hold'
  cases hlayout.symm.trans hlayout'
  cases hmethods.symm.trans hmethods'
  cases hframe.symm.trans hframe'
  rfl

/-- The block of each method stands in the text, and it is the code of the method
    at the site that a new generator has there. -/
theorem exists_block {lines : List Line} {g : Generator}
    (h : generate classes p {} = .ok lines g) (hat : p.At older c before m) :
    ∃ site n block n', SiteAt classes p older c before m site ∧
      m.lower site n = .ok (block, n') ∧ block <:+: lines := by
  obtain ⟨⟨newer, hp⟩, after, hm⟩ := hat
  obtain ⟨codes, _, hcodes, h⟩ := estate_bind_ok_iff.mp h
  obtain ⟨_, _, _, hpure⟩ := estate_bind_ok_iff.mp h
  cases hpure
  -- the classes before, and then this class
  have hsplit : ∀ defs, p.classes.mapM (classCode classes defs) =
      (older ++ c :: newer).mapM (classCode classes defs) := by
    intro defs
    rw [hp]
  rw [hsplit, List.mapM_append, List.mapM_cons] at hcodes
  obtain ⟨first, g₁, hfirst, hcodes⟩ := estate_bind_ok_iff.mp hcodes
  obtain ⟨rest, _, hrest, hpure⟩ := estate_bind_ok_iff.mp hcodes
  cases hpure
  obtain ⟨code, _, hcode, hrest⟩ := estate_bind_ok_iff.mp hrest
  obtain ⟨_, _, _, hpure⟩ := estate_bind_ok_iff.mp hrest
  cases hpure
  obtain ⟨object, g₂, hobject, hcode⟩ := estate_bind_ok_iff.mp hcode
  obtain ⟨methods, _, hmethods, hpure⟩ := estate_bind_ok_iff.mp hcode
  cases hpure
  -- the methods before, and then this method
  rw [hm, List.mapM_append, List.mapM_cons] at hmethods
  obtain ⟨blocks, g₃, hblocks, hmethods⟩ := estate_bind_ok_iff.mp hmethods
  obtain ⟨more, _, hmore, hpure⟩ := estate_bind_ok_iff.mp hmethods
  cases hpure
  obtain ⟨block, _, hblock, hmore⟩ := estate_bind_ok_iff.mp hmore
  obtain ⟨_, _, _, hpure⟩ := estate_bind_ok_iff.mp hmore
  cases hpure
  obtain ⟨frame, g₄, hframe, hblock⟩ := estate_bind_ok_iff.mp hblock
  obtain ⟨_, _, htell, hblock⟩ := estate_bind_ok_iff.mp hblock
  cases htell
  obtain ⟨_, _, hget, hemit⟩ := estate_bind_ok_iff.mp hblock
  cases hget
  unfold emit at hemit
  split at hemit
  · next hlower =>
    cases hemit
    refine ⟨_, _, block, _, ⟨first, g₁, object, g₂, blocks, g₃, frame, g₄, hfirst, hobject, hblocks,
      hframe, rfl⟩, hlower, ?_⟩
    have hmethod : ∀ more : List (List Line), block <:+: (blocks ++ block :: more).flatten :=
      fun more => List.infix_of_mem_flatten (List.mem_append_right blocks List.mem_cons_self)
    have hclass : ∀ (code : List Line) (rest : List (List Line)),
        code <:+: (first ++ code :: rest).flatten :=
      fun code rest => List.infix_of_mem_flatten (List.mem_append_right first List.mem_cons_self)
    exact (hmethod _).trans ((List.suffix_cons _ _).isInfix.trans
      ((hclass _ _).trans (List.infix_append _ _ _)))
  · cases hemit

end Generator

end ClassLang
