import ClassLang.Lowering.Program
import ClassLang.Proofs.Lowering.Sites

/-! # Lowering does not fail

    The code of every elaborated tree is made, whatever label is free next.

    * **`Emits`**: code is made from every label on.
    * **`Expr.emits`** and **`Stmt.emits`**: each step that could fail is
      guarded by what the rules say of the tree or by what the site serves. -/

namespace ClassLang

/-! ## Code that is always made -/

/-- The code is made, whatever the next free label is. -/
def Emits (code : Emit α) : Prop := ∀ n, ∃ a n', code n = .ok (a, n')

namespace Emits

variable {α β : Type}

theorem pure (a : α) : Emits (Pure.pure a : Emit α) := fun n => ⟨a, n, rfl⟩

theorem bind {x : Emit α} {f : α → Emit β} (hx : Emits x) (hf : ∀ a, Emits (f a)) :
    Emits (x >>= f) := by
  intro n
  obtain ⟨a, k, ha⟩ := hx n
  obtain ⟨b, n', hb⟩ := hf a k
  exact ⟨b, n', state_bind_ok_iff.mpr ⟨a, k, ha, hb⟩⟩

/-- A step that draws no labels. -/
theorem lift {x : Except Fault α} {a : α} (hx : x = .ok a) : Emits (liftM x : Emit α) := by
  intro n
  rw [hx]
  exact ⟨a, n, rfl⟩

theorem freshLabel : Emits ClassLang.freshLabel := fun n => ⟨.numbered n, n + 1, rfl⟩

end Emits

/-! ## Variables, calls and new objects -/

namespace Site.Serves

variable {site : Site} {V : View} {m : Method}

theorem load_ok (h : site.Serves V m) {x : String} {ty : Ty} (hx : V.varTy? x = some ty)
    (hs : ty.Storable) : ∃ code, site.load x = .ok code := by
  unfold load
  rcases h.exists_place hx hs with ⟨s, hloc, _⟩ | ⟨s, hloc, _⟩
  · rw [hloc]
    exact ⟨_, rfl⟩
  · rw [hloc]
    exact ⟨_, rfl⟩

/-- Adding an offset inside a slot to the offset of the slot gives a word. -/
theorem copy_ok {s : Slot} (h0 : 0 ≤ s.offset) (hfits : Word.Fits (s.offset + s.size)) :
    ∃ code, copy s = .ok code := by
  have hstep : ∀ o ∈ wordOffsets s.size, Word.add s.offset o = .ok (s.offset + o) := by
    intro o ho
    simp only [wordOffsets, List.mem_map, List.mem_range] at ho
    obtain ⟨k, hk, rfl⟩ := ho
    refine Word.exact_eq_ok_iff.mpr ⟨?_, rfl⟩
    simp only [Word.Fits, Word.size] at hfits ⊢
    omega
  unfold copy
  generalize wordOffsets s.size = offsets at hstep
  generalize ([] : List Line) = code
  induction offsets generalizing code with
  | nil => exact ⟨code, rfl⟩
  | cons o rest ih =>
    rw [List.foldlM_cons, hstep o List.mem_cons_self]
    exact ih (fun o' ho' => hstep o' (List.mem_cons_of_mem _ ho')) _

theorem store_ok (h : site.Serves V m) {x : String} {ty : Ty} (hx : V.varTy? x = some ty)
    (hs : ty.Storable) : ∃ code, site.store x = .ok code := by
  unfold store
  rcases h.exists_place hx hs with ⟨s, hloc, _⟩ | ⟨s, hloc, _, h0, hfits⟩
  · rw [hloc]
    exact ⟨_, rfl⟩
  · obtain ⟨code, hcode⟩ := copy_ok h0 hfits
    rw [hloc]
    cases hty : s.ty with
    | object cls => exact ⟨_, except_bind_ok_iff.mpr ⟨_, rfl, by simp only [hty, hcode]; rfl⟩⟩
    | _ => exact ⟨_, except_bind_ok_iff.mpr ⟨_, rfl, by simp only [hty]; rfl⟩⟩

/-- A call that the rules resolve is made: afterwards the receiver and the
    arguments are taken from the stack. -/
theorem call_eq (h : site.Serves V m) {cls method owner : String} {result : Ty} {params : List Ty}
    (hr : V.known.resolve cls method = some (owner, .func result params)) {n : Nat}
    (hn : n = params.length) :
    site.call (some owner) cls method n =
      .ok (instrs [.call (methodLabel owner method),
        .arith .add (.imm ((n + 1) * Word.size)) (.reg .esp), .push (.reg .eax)]) := by
  have hsub : site.classes.isSubclass cls owner = true :=
    h.classes _ _ (Known.inherits_of_resolve hr)
  have hfits := h.calls cls method owner result params hr
  simp only [Word.Fits, Word.size] at hfits
  have hcount : Word.truncate n = n := by
    refine Word.truncate_of_fits ?_
    simp only [Word.Fits]
    omega
  have hadd : Word.add (Word.truncate n) 1 = .ok (n + 1) := by
    rw [hcount]
    refine Word.exact_eq_ok_iff.mpr ⟨?_, rfl⟩
    simp only [Word.Fits]
    omega
  have hmul : Word.mul (n + 1) Word.size = .ok ((n + 1) * Word.size) := by
    refine Word.exact_eq_ok_iff.mpr ⟨?_, rfl⟩
    simp only [Word.Fits, Word.size]
    omega
  simp only [call, hsub, Bool.not_true, Bool.false_eq_true, if_false]
  exact except_bind_ok_iff.mpr ⟨_, hadd, except_bind_ok_iff.mpr ⟨_, hmul, rfl⟩⟩

theorem allocate_ok (h : site.Serves V m) {cls : String} (hc : V.known.Declares cls) :
    ∃ code, site.allocate cls = .ok code := by
  unfold allocate
  rw [h.layouts.declared cls hc]
  exact ⟨_, rfl⟩

end Site.Serves

/-! ## Expressions -/

theorem BinaryOp.lower_emits (op : BinaryOp) : Emits op.lower := by
  have hcomparison : ∀ cond, Emits (lowerComparison cond) := fun _ =>
    .bind .freshLabel fun _ => .bind .freshLabel fun _ => .pure _
  cases op with
  | lessThan | lessEqual | equal | notEqual => exact hcomparison _
  | _ => exact .pure _

namespace Expr

variable {site : Site} {V : View} {m : Method}

/-- Arguments that fit are as many as the parameters. -/
theorem Fit.length_eq {mark : Mark} {args : List Expr} {params : List Ty}
    (h : Fit mark V args params) : args.length = params.length := by
  induction args generalizing params with
  | nil => cases h; rfl
  | cons e rest ih =>
    obtain _ | ⟨_, _, hr⟩ := h
    rw [List.length_cons, List.length_cons, ih hr]

/-- The code of a binary expression is made if that of its operands is. -/
theorem emits_binary {n : Note} {op : BinaryOp} {left right : Expr}
    (hl : Emits (left.lower site)) (hr : Emits (right.lower site)) :
    Emits ((binary n op left right).lower site) :=
  .bind hl fun _ => .bind hr fun _ => .bind op.lower_emits fun _ => .pure _

mutual

/-- The code of an elaborated expression is made. -/
theorem emits (hs : site.Serves V m) : ∀ {e : Expr} {ty : Ty}, e.Elaborated V ty →
    Emits (e.lower site)
  | _, _, .arith _ hl hr _ => emits_binary (emits hs hl) (emits hs hr)
  | _, _, .and hl hr _ => emits_binary (emits hs hl) (emits hs hr)
  | _, _, .compare _ hl hr _ => emits_binary (emits hs hl) (emits hs hr)
  | _, _, .equate _ _ hl hr _ => emits_binary (emits hs hl) (emits hs hr)
  | _, _, .neg h _ => .bind (emits hs h) fun _ => .pure _
  | _, _, .not h _ => .bind (emits hs h) fun _ => .pure _
  | .methodCall n receiver method args, _, .methodCall hr hm ha hn => by
    have hcode := hs.call_eq hm ha.length_eq
    rw [← hn.2] at hcode
    simp only [lower, Elaborated.ty?_eq hr, Option.bind_some, Ty.className?]
    exact .bind (emits hs hr) fun _ => .bind (emitsArgs hs ha) fun _ =>
      .bind (.lift hcode) fun _ => .pure _
  | .selfCall n method args, _, .selfCall hm ha hn => by
    have hcode := hs.call_eq hm ha.length_eq
    rw [← hn.2, ← hs.cls] at hcode
    rw [lower]
    exact .bind (emitsArgs hs ha) fun _ => .bind (.lift hcode) fun _ => .pure _
  | .var _ _, _, .var hv hst _ => by
    obtain ⟨code, hcode⟩ := hs.load_ok hv hst
    exact .lift hcode
  | .num .., _, .num _ => .pure _
  | .bool .., _, .bool _ => .pure _
  | .nothing .., _, .nothing _ => .pure _
  | .new .., _, .new hc _ => by
    obtain ⟨code, hcode⟩ := hs.allocate_ok hc
    exact .lift hcode

/-- The code of arguments that fit is made. -/
theorem emitsArgs (hs : site.Serves V m) : ∀ {args : List Expr} {params : List Ty},
    Fit Note.Records V args params → Emits (lowerArgs site args)
  | _, _, .nil => .pure _
  | _, _, .cons he _ hr => .bind (emitsArgs hs hr) fun _ => .bind (emits hs he) fun _ => .pure _

end

end Expr

/-! ## Statements and methods -/

namespace Stmt

variable {site : Site} {V : View} {m : Method}

theorem emitsAll_of_forall {body : List Stmt} (h : ∀ s ∈ body, Emits (s.lower site)) :
    Emits (lowerAll site body) := by
  induction body with
  | nil => exact .pure _
  | cons s rest ih =>
    exact .bind (h s List.mem_cons_self) fun _ =>
      .bind (ih fun s hs => h s (List.mem_cons_of_mem _ hs)) fun _ => .pure _

/-- The code of an elaborated statement is made. -/
theorem emits (hs : site.Serves V m) {s : Stmt} (h : s.Derives Note.Records V) :
    Emits (s.lower site) := by
  induction h with
  | assign hv hx hst _ =>
    obtain ⟨code, hcode⟩ := hs.store_ok hx hst
    exact .bind (Expr.emits hs hv) fun _ => .bind (.lift hcode) fun _ => .pure _
  | cond ht _ ih =>
    exact .bind .freshLabel fun _ => .bind (Expr.emits hs ht) fun _ =>
      .bind (emitsAll_of_forall ih) fun _ => .pure _
  | print hv _ => exact .bind (Expr.emits hs hv) fun _ => .pure _

end Stmt

/-- The code of an elaborated method is made at a site that serves it. -/
theorem Method.emits {site : Site} {known : Known} {cls : String} {m : Method}
    (hs : site.Serves (m.view known cls) m) (h : m.Derives Note.Records known cls) :
    Emits (m.lower site) := by
  obtain ⟨_, hty, _⟩ := h.value
  have hroom : site.frame.localsSize = .ok _ := hs.frame ▸ Method.localsSize_frame hs.frameFits
  exact .bind (.lift hroom) fun _ =>
    .bind (Stmt.emitsAll_of_forall fun s hb => Stmt.emits hs (h.body s hb)) fun _ =>
    .bind (Expr.emits hs hty) fun _ => .pure _

end ClassLang
