import ClassLang.Proofs.Command.Lines
import ClassLang.Proofs.Token.Spelling

/-! # Types as texts

    The text of a type can be read back, nested signatures included.

    * **`Ty.Legible`**: the classes in a type have names that are no keywords.
    * **`Ty.render_append_inj`**: the text of a legible type determines the type,
      and where in a longer text it ends. -/

namespace ClassLang

open Token

namespace Ty

/-- The classes in a type have names, and no keyword is one. -/
def Legible (ty : Ty) : Prop := ∀ cls ∈ ty.identifiers, (TokenKind.ident cls).Writable

/-- So have the classes in several types. -/
def AllLegible (tys : List Ty) : Prop := ∀ cls ∈ identifiersAll tys, (TokenKind.ident cls).Writable

theorem Legible.writable {cls : String} (h : (object cls).Legible) :
    (TokenKind.ident cls).Writable :=
  h cls (List.mem_singleton_self _)

section Parts

variable {ty : Ty} {tys : List Ty}

theorem Legible.of_func (h : (func ty tys).Legible) : ty.Legible ∧ AllLegible tys :=
  ⟨fun cls hcls => h cls (List.mem_append_left _ hcls),
    fun cls hcls => h cls (List.mem_append_right _ hcls)⟩

theorem AllLegible.of_cons (h : AllLegible (ty :: tys)) : ty.Legible ∧ AllLegible tys :=
  ⟨fun cls hcls => h cls (List.mem_append_left _ hcls),
    fun cls hcls => h cls (List.mem_append_right _ hcls)⟩

end Parts

variable {a b : Ty} {after after' : List Char}

/-! ## Words -/

/-- No word goes on into this text. -/
def WordEnds (after : List Char) : Prop := ∀ c ∈ after.head?, isWordChar c = false

/-- The token that a type is written as; a signature takes several. -/
def token? : Ty → Option TokenKind
  | int => some .int
  | bool => some .bool
  | nothing => some .nothing
  | object cls => some (.ident cls)
  | func _ _ => none

theorem eq_of_token? {kind : TokenKind} (ha : a.token? = some kind) (hb : b.token? = some kind) :
    a = b := by
  cases a <;> cases b <;> grind [token?]

section Word

variable {kind : TokenKind}

/-- The word of a type is a whole run where no word goes on. -/
theorem run_render (h : a.Legible) (hkind : a.token? = some kind) (hafter : WordEnds after) :
    Run isWordChar a.render.toList after := by
  have hchars : a.render.toList ≠ [] ∧ ∀ c ∈ a.render.toList, isWordChar c = true := by
    cases a with
    | int | bool | nothing => simp [render, isWordChar, Char.isAlphanum, Char.isAlpha, Char.isLower]
    | object cls =>
      have hname := h.writable.1
      refine ⟨?_, fun c => isWordChar_of_isName hname⟩
      obtain ⟨c, rest, hcls, -⟩ := hname
      simp [render, hcls]
    | func => cases hkind
  exact ⟨hchars.1, hchars.2, hafter⟩

/-- The word of a type is read as its token: no class has the name of another
    type. -/
theorem ofWord_render (h : a.Legible) (hkind : a.token? = some kind) :
    TokenKind.ofWord a.render = kind := by
  cases a with
  | int | bool | nothing =>
    cases hkind
    simp [render, TokenKind.ofWord, TokenKind.keywords, List.lookup]
  | object cls =>
    cases hkind
    rw [render, TokenKind.ofWord]
    cases hfound : TokenKind.keywords.lookup cls with
    | none => rfl
    | some kind =>
      have hmem := (lookup_eq_some_iff_mem keywords_nodup).mp hfound
      exact absurd (fixed?_of_mem hmem) (h.writable.2 kind)
  | func => cases hkind

end Word

/-! ## Signatures -/

/-- What the text of types goes on with behind the first one. -/
def listTail : List Ty → List Char
  | [] => []
  | ty :: rest => ',' :: ' ' :: (renderList (ty :: rest)).toList

theorem toList_renderList_cons (ty : Ty) (rest : List Ty) :
    (renderList (ty :: rest)).toList = ty.render.toList ++ listTail rest := by
  cases rest <;> simp [renderList, listTail]

theorem toList_render_func (result : Ty) (params : List Ty) :
    (func result params).render.toList = '(' :: ((renderList params).toList ++
      ')' :: ' ' :: '-' :: '>' :: ' ' :: result.render.toList) := by
  simp [render]

/-- The text of a type does not start like the end of a list. -/
theorem exists_head_render (h : a.Legible) : ∃ c rest, a.render.toList = c :: rest ∧ c ≠ ')' := by
  cases hkind : a.token? with
  | none =>
    cases a with
    | func result params => exact ⟨_, _, toList_render_func result params, by decide⟩
    | _ => cases hkind
  | some kind =>
    have hrun : Run isWordChar a.render.toList [] := run_render h hkind (by simp [WordEnds])
    obtain ⟨c, rest, htext⟩ := List.exists_cons_of_ne_nil hrun.nonempty
    refine ⟨c, rest, htext, ?_⟩
    rintro rfl
    exact absurd (hrun.all ')' (by simp [htext])) (by decide)

/-- A word determines the type that it is the text of, and where the text ends. -/
theorem render_append_inj_of_token? {kind : TokenKind} (ha : a.Legible) (hb : b.Legible)
    (hkind : a.token? = some kind) (hafter : WordEnds after) (hafter' : WordEnds after')
    (h : a.render.toList ++ after = b.render.toList ++ after') : a = b ∧ after = after' := by
  have hrun := run_render ha hkind hafter
  cases hkind' : b.token? with
  | none =>
    -- the text of a signature starts with no word
    cases b with
    | func result params =>
      obtain ⟨c, rest, htext⟩ := List.exists_cons_of_ne_nil hrun.nonempty
      have hword := hrun.all c (by simp [htext])
      rw [htext, toList_render_func] at h
      rw [(List.cons.inj h).1] at hword
      exact absurd hword (by decide)
    | _ => cases hkind'
  | some kind' =>
    have hrun' := run_render hb hkind' hafter'
    obtain ⟨htext, hrest⟩ := append_whole_inj hrun.all hrun'.all hafter hafter' h
    have hkinds : kind' = kind := by
      rw [← ofWord_render hb hkind', ← String.toList_inj.mp htext, ofWord_render ha hkind]
    exact ⟨eq_of_token? hkind (hkinds ▸ hkind'), hrest⟩

mutual

/-- The text of a type determines the type and where the text ends. -/
theorem render_append_inj : ∀ {a b : Ty} {after after' : List Char}, a.Legible → b.Legible →
    WordEnds after → WordEnds after' → a.render.toList ++ after = b.render.toList ++ after' →
    a = b ∧ after = after'
  | int, _, _, _, ha, hb, hafter, hafter', h
  | bool, _, _, _, ha, hb, hafter, hafter', h
  | nothing, _, _, _, ha, hb, hafter, hafter', h
  | object _, _, _, _, ha, hb, hafter, hafter', h =>
    render_append_inj_of_token? ha hb rfl hafter hafter' h
  | func result params, b, after, after', ha, hb, hafter, hafter', h => by
    cases hkind : b.token? with
    | some kind =>
      obtain ⟨heq, hrest⟩ := render_append_inj_of_token? hb ha hkind hafter' hafter h.symm
      exact ⟨heq.symm, hrest.symm⟩
    | none =>
      cases b with
      | func result' params' =>
        simp only [toList_render_func, List.cons_append, List.append_assoc] at h
        obtain ⟨rfl, hbehind⟩ := renderList_append_inj ha.of_func.2 hb.of_func.2 (List.cons.inj h).2
        simp only [List.cons.injEq, true_and] at hbehind
        obtain ⟨rfl, hrest⟩ :=
          render_append_inj ha.of_func.1 hb.of_func.1 hafter hafter' hbehind
        exact ⟨rfl, hrest⟩
      | _ => cases hkind

/-- So does the text of a list of types in front of a parenthesis. -/
theorem renderList_append_inj : ∀ {as bs : List Ty} {after after' : List Char},
    AllLegible as → AllLegible bs →
    (renderList as).toList ++ ')' :: after = (renderList bs).toList ++ ')' :: after' →
    as = bs ∧ after = after'
  | [], [], _, _, _, _, h => ⟨rfl, (List.cons.inj h).2⟩
  | [], b :: bs, after, after', _, hb, h => by
    obtain ⟨c, rest, htext, hc⟩ := exists_head_render hb.of_cons.1
    rw [toList_renderList_cons, htext] at h
    exact absurd (List.cons.inj h).1.symm hc
  | a :: as, [], after, after', ha, _, h => by
    obtain ⟨c, rest, htext, hc⟩ := exists_head_render ha.of_cons.1
    rw [toList_renderList_cons, htext] at h
    exact absurd (List.cons.inj h).1 hc
  | a :: as, b :: bs, after, after', ha, hb, h => by
    have hends : ∀ (tys : List Ty) (behind : List Char),
        WordEnds (listTail tys ++ ')' :: behind) := by
      rintro (_ | _) behind c ⟨⟩ <;> decide
    rw [toList_renderList_cons, toList_renderList_cons, List.append_assoc, List.append_assoc] at h
    obtain ⟨rfl, hrest⟩ := render_append_inj ha.of_cons.1 hb.of_cons.1 (hends _ _) (hends _ _) h
    match as, bs, hrest with
    | [], [], hrest => exact ⟨rfl, (List.cons.inj hrest).2⟩
    | [], _ :: _, hrest => exact absurd (List.cons.inj hrest).1 (by decide)
    | _ :: _, [], hrest => exact absurd (List.cons.inj hrest).1 (by decide)
    | a' :: as, b' :: bs, hrest =>
      simp only [listTail, List.cons_append, List.cons.injEq, true_and] at hrest
      obtain ⟨htail, hbehind⟩ := renderList_append_inj ha.of_cons.2 hb.of_cons.2 hrest
      exact ⟨by rw [htail], hbehind⟩

end

end Ty

end ClassLang
