import ClassLang.Grammar.Cursor
import ClassLang.Proofs.Grammar.Unique
import ClassLang.Proofs.Sequence
import Mathlib.Data.List.Forall2

/-! # Readers and rules

    When a reader of tokens reads what the right side of a rule spells.

    * **`Agrees`**: whatever the reader reads is spelled, and whatever is
      spelled is read.  The second is demanded where less than `n` tokens come,
      so that it can be proved by induction on `n`.
    * One lemma for each way in which readers are put together: **`bind`**,
      **`map`**, **`accept`**, **`manyWhile`**, **`manyUntil`** and **`commas`**. -/

namespace ClassLang.Grammar

/-! ## Places -/

/-- The kinds of the tokens that are still to come. -/
def Cursor.kinds (c : Cursor) : List TokenKind := c.rest.map Token.kind

section cursor

variable {c c' : Cursor} {kind : TokenKind} {w : List TokenKind}

theorem Cursor.length_kinds (c : Cursor) : c.kinds.length = c.rest.length := List.length_map _

theorem Cursor.kindAt_eq (c : Cursor) (n : Nat) : c.kindAt n = c.kinds[n]? := by
  rw [kindAt, kinds, List.getElem?_map]

theorem Cursor.kinds_next (c : Cursor) : c.next.kinds = c.kinds.tail := by
  rw [next, kinds, kinds, List.map_tail]

/-- The next token, and what comes behind it. -/
theorem Cursor.kinds_eq_cons (h : c.kindAt 0 = some kind) : c.kinds = kind :: c.next.kinds := by
  rw [kindAt_eq] at h
  rw [kinds_next]
  cases hk : c.kinds with
  | nil =>
    rw [hk] at h
    cases h
  | cons k rest =>
    rw [hk] at h
    cases h
    rfl

/-- What stands at the cursor, read off the kinds. -/
theorem Cursor.of_kinds (h : c.kinds = kind :: w) : c.kindAt 0 = some kind ∧ c.next.kinds = w := by
  constructor
  · rw [kindAt_eq, h, List.getElem?_cons_zero]
  · rw [kinds_next, h, List.tail_cons]

/-- Behind a token there are fewer. -/
theorem Cursor.next_lt {n : Nat} (h : c.kinds = kind :: w) (hc : c.rest.length < n + 1) :
    c.next.rest.length < n := by
  have hlength := congrArg List.length h
  rw [List.length_cons, ← (of_kinds h).2, c.length_kinds, c.next.length_kinds] at hlength
  omega

theorem Avoids.kindAt_ne {kinds : List TokenKind} (h : Avoids kinds c.kinds) (hk : kind ∈ kinds) :
    c.kindAt 0 ≠ some kind := by
  intro hkind
  rw [Cursor.kindAt_eq, ← List.head?_eq_getElem?] at hkind
  exact h kind hkind hk

/-- The next token says which of two readers goes on. -/
theorem accept_bind_ok_iff {α : Type} {y z : Parse α} {x : α} :
    (accept kind >>= fun t => if t = true then y else z) c = .ok x c' ↔
      (c.kindAt 0 = some kind ∧ y c.next = .ok x c') ∨
        (c.kindAt 0 ≠ some kind ∧ z c = .ok x c') := by
  by_cases hk : c.kindAt 0 = some kind
  · have hacc : accept kind c = .ok true c.next := if_pos hk
    constructor
    · intro h
      obtain ⟨t, c₁, ht, h⟩ := estate_bind_ok_iff.mp h
      cases hacc.symm.trans ht
      exact Or.inl ⟨hk, h⟩
    · rintro (⟨_, h⟩ | ⟨hne, _⟩)
      · exact estate_bind_ok_iff.mpr ⟨true, c.next, hacc, h⟩
      · exact absurd hk hne
  · have hacc : accept kind c = .ok false c := if_neg hk
    constructor
    · intro h
      obtain ⟨t, c₁, ht, h⟩ := estate_bind_ok_iff.mp h
      cases hacc.symm.trans ht
      exact Or.inr ⟨hk, h⟩
    · rintro (⟨hk', _⟩ | ⟨_, h⟩)
      · exact absurd hk' hk
      · exact estate_bind_ok_iff.mpr ⟨false, c, hacc, h⟩

end cursor

/-! ## What derivations take -/

section taken

variable {r : Rhs} {v : r.Value} {w w' : List TokenKind}

theorem Rhs.Spells.suffix (h : r.Spells w v w') : w' <:+ w := by
  obtain ⟨t, rfl, _⟩ := h
  exact List.suffix_append _ _

/-- Every derivation from the right side takes a token. -/
def Rhs.takes : Rhs → Bool
  | token _ | ident | int => true
  | sym .program => false
  | sym _ => true
  | seq a b => a.takes || b.takes
  | alt a b => a.takes && b.takes
  | many _ | maybe _ => false

theorem rules_takes {s : Sym} (h : (Rhs.sym s).takes = true) : (rules s).takes = true := by
  cases s with
  | program => cases h
  | _ => rfl

theorem Derivation.yield_ne_nil (t : Derivation r) (h : r.takes = true) : t.yield ≠ [] := by
  induction t with
  | token _ | ident _ | int _ => exact List.cons_ne_nil _ _
  | sym t ih => exact ih (rules_takes h)
  | seq t u iht ihu =>
    intro hnil
    obtain ⟨ht, hu⟩ := List.append_eq_nil_iff.mp hnil
    rcases Bool.or_eq_true_iff.mp h with h | h
    · exact iht h ht
    · exact ihu h hu
  | left t ih => exact ih (Bool.and_eq_true_iff.mp h).1
  | right t ih => exact ih (Bool.and_eq_true_iff.mp h).2
  | nil | cons _ _ | none | some _ => cases h

theorem Rhs.Spells.length_lt (h : r.Spells w v w') (hr : r.takes = true) :
    w'.length < w.length := by
  obtain ⟨t, rfl, _⟩ := h
  have hne := List.length_pos_iff.mpr (t.yield_ne_nil hr)
  rw [List.length_append]
  omega

end taken

/-! ## Agreement -/

/-- The reader reads what the right side spells, with results for which the
    values stand, if it goes on as `F` says. -/
structure Agrees {α : Type} (n : Nat) (reader : Parse α) (r : Rhs)
    (F : List TokenKind → Prop) (P : α → r.Value → Prop) : Prop where
  sound : ∀ {c x c'}, reader c = .ok x c' → ∃ v, r.Spells c.kinds v c'.kinds ∧ P x v
  complete : ∀ {c v w'}, c.rest.length < n → r.Spells c.kinds v w' → F w' →
    ∃ x c', reader c = .ok x c' ∧ c'.kinds = w' ∧ P x v

namespace Agrees

variable {α β : Type} {n m : Nat} {x : Parse α} {f : α → Parse β} {a b : Rhs}
  {F G : List TokenKind → Prop} {k : TokenKind}

/-- What follows is no further along than the start. -/
theorem length_lt {c c' : Cursor} {v : a.Value} {w' : List TokenKind}
    (h : a.Spells c.kinds v w') (hc : c.rest.length < n) (hc' : c'.kinds = w') :
    c'.rest.length < n := by
  have hle := h.suffix.length_le
  rw [← hc', c.length_kinds, c'.length_kinds] at hle
  omega

theorem mono {P : α → a.Value → Prop} (h : Agrees n x a F P) (hm : m ≤ n)
    (hG : ∀ w, G w → F w) : Agrees m x a G P where
  sound := h.sound
  complete := fun hc hv hF => h.complete (Nat.lt_of_lt_of_le hc hm) hv (hG _ hF)

theorem weaken {P Q : α → a.Value → Prop} (h : Agrees n x a F P) (hQ : ∀ z v, P z v → Q z v) :
    Agrees n x a F Q where
  sound := fun hz => by
    obtain ⟨v, hv, hP⟩ := h.sound hz
    exact ⟨v, hv, hQ _ v hP⟩
  complete := fun hc hv hF => by
    obtain ⟨z, c', hz, hc', hP⟩ := h.complete hc hv hF
    exact ⟨z, c', hz, hc', hQ z _ hP⟩

/-- Where less may follow. -/
theorem before {P : α → a.Value → Prop} (h : Agrees n x a F P) (hG : ∀ w, G w → F w) :
    Agrees n x a G P :=
  h.mono (Nat.le_refl n) hG

/-- The value of a rule. -/
theorem sym {s : Sym} {P : α → (rules s).Value → Prop} {Q : α → s.Value → Prop}
    (h : Agrees n x (rules s) F P) (hQ : ∀ z v, P z v → Q z (s.build v)) :
    Agrees n x (.sym s) F Q where
  sound := by
    intro c z c' hz
    obtain ⟨v, hv, hP⟩ := h.sound hz
    exact ⟨s.build v, spells_sym.mpr ⟨v, hv, rfl⟩, hQ z v hP⟩
  complete := by
    intro c v w' hc hv hF
    obtain ⟨u, hu, rfl⟩ := spells_sym.mp hv
    obtain ⟨z, c', hz, hc', hP⟩ := h.complete hc hu hF
    exact ⟨z, c', hz, hc', hQ z u hP⟩

/-- The value of the first part of a row. -/
theorem sym_seq {s : Sym} {P : α → (rules s).Value × b.Value → Prop}
    {Q : α → s.Value × b.Value → Prop} (h : Agrees n x (.seq (rules s) b) F P)
    (hQ : ∀ z v u, P z (v, u) → Q z (s.build v, u)) : Agrees n x (.seq (.sym s) b) F Q where
  sound := by
    intro c z c' hz
    obtain ⟨⟨v, u⟩, hv, hP⟩ := h.sound hz
    obtain ⟨w₁, h₁, h₂⟩ := spells_seq.mp hv
    exact ⟨(s.build v, u), spells_seq.mpr ⟨w₁, spells_sym.mpr ⟨v, h₁, rfl⟩, h₂⟩, hQ z v u hP⟩
  complete := by
    intro c v w' hc hv hF
    obtain ⟨v, u⟩ := v
    obtain ⟨w₁, h₁, h₂⟩ := spells_seq.mp hv
    obtain ⟨y, hy, hbuild⟩ := spells_sym.mp h₁
    have hall : (Rhs.seq (rules s) b).Spells c.kinds (y, u) w' := spells_seq.mpr ⟨w₁, hy, h₂⟩
    obtain ⟨z, c', hz, hc', hP⟩ := h.complete hc hall hF
    have hbuild : s.build y = v := hbuild
    exact ⟨z, c', hz, hc', hbuild ▸ hQ z y u hP⟩

/-! ### One after the other -/

theorem bind {P : α → a.Value → Prop} {Q : α → β → b.Value → Prop}
    (hx : Agrees n x a (b.Starts F) P) (hf : ∀ y, Agrees n (f y) b F (Q y)) :
    Agrees n (x >>= f) (.seq a b) F fun z v => ∃ y, P y v.1 ∧ Q y z v.2 where
  sound := by
    intro c z c' hz
    obtain ⟨y, c₁, hy, hz⟩ := estate_bind_ok_iff.mp hz
    obtain ⟨v, hv, hP⟩ := hx.sound hy
    obtain ⟨u, hu, hQ⟩ := (hf y).sound hz
    exact ⟨(v, u), spells_seq.mpr ⟨_, hv, hu⟩, y, hP, hQ⟩
  complete := by
    intro c v w' hc hv hF
    obtain ⟨w₁, h₁, h₂⟩ := spells_seq.mp hv
    obtain ⟨y, c₁, hy, hc₁, hP⟩ := hx.complete hc h₁ (h₂.starts hF)
    obtain ⟨z, c', hz, hc', hQ⟩ := (hf y).complete (length_lt h₁ hc hc₁) (hc₁ ▸ h₂) hF
    exact ⟨z, c', estate_bind_ok_iff.mpr ⟨y, c₁, hy, hz⟩, hc', y, hP, hQ⟩

theorem map {g : α → β} {P : α → a.Value → Prop} {Q : β → a.Value → Prop}
    (hx : Agrees n x a F P) (hQ : ∀ y v, P y v → Q (g y) v) :
    Agrees n (x >>= fun y => pure (g y)) a F Q where
  sound := by
    intro c z c' hz
    obtain ⟨y, c₁, hy, hpure⟩ := estate_bind_ok_iff.mp hz
    cases hpure
    obtain ⟨v, hv, hP⟩ := hx.sound hy
    exact ⟨v, hv, hQ y v hP⟩
  complete := by
    intro c v w' hc hv hF
    obtain ⟨y, c', hy, hc', hP⟩ := hx.complete hc hv hF
    exact ⟨g y, c', estate_bind_ok_iff.mpr ⟨y, c', hy, rfl⟩, hc', hQ y v hP⟩

/-- The line of a node is not spelled. -/
theorem line {g : Nat → Parse β} {Q : Nat → β → b.Value → Prop}
    (hg : ∀ l, Agrees n (g l) b F (Q l)) :
    Agrees n (lineHere >>= g) b F fun z v => ∃ l, Q l z v where
  sound := by
    intro c z c' hz
    obtain ⟨l, c₁, hl, hz⟩ := estate_bind_ok_iff.mp hz
    cases hl
    obtain ⟨v, hv, hQ⟩ := (hg _).sound hz
    exact ⟨v, hv, c.line, hQ⟩
  complete := by
    intro c v w' hc hv hF
    obtain ⟨z, c', hz, hc', hQ⟩ := (hg c.line).complete hc hv hF
    exact ⟨z, c', estate_bind_ok_iff.mpr ⟨_, c, rfl, hz⟩, hc', c.line, hQ⟩

/-! ### Tokens -/

theorem expect : Agrees n (Grammar.expect k) (.token k) F fun _ _ => True where
  sound := by
    intro c z c' hz
    unfold Grammar.expect at hz
    split at hz
    · next hk =>
      cases hz
      exact ⟨(), spells_token.mpr (Cursor.kinds_eq_cons hk), trivial⟩
    · cases hz
  complete := by
    intro c v w' _ hv _
    obtain ⟨hk, hnext⟩ := Cursor.of_kinds (spells_token.mp hv)
    exact ⟨(), c.next, if_pos hk, hnext, trivial⟩

theorem ident : Agrees n Grammar.ident .ident F fun (x : String) (v : String) => x = v where
  sound := by
    intro c x c' hx
    unfold Grammar.ident at hx
    split at hx
    · next hk =>
      cases hx
      exact ⟨x, spells_ident.mpr (Cursor.kinds_eq_cons hk), rfl⟩
    · cases hx
  complete := by
    intro c v w' _ hv _
    obtain ⟨hk, hnext⟩ := Cursor.of_kinds (spells_ident.mp hv)
    refine ⟨v, c.next, ?_, hnext, rfl⟩
    rw [Grammar.ident, hk]

/-- A token behind which there is a result. -/
theorem last {z : β} : Agrees n (do Grammar.expect k; return z) (.token k) F
    fun r _ => r = z :=
  expect.map fun _ _ _ => rfl

/-- After a token there are fewer. -/
theorem token_bind {g : Unit → Parse β} {Q : β → b.Value → Prop} (hg : Agrees n (g ()) b F Q) :
    Agrees (n + 1) (Grammar.expect k >>= g) (.seq (.token k) b) F fun z v => Q z v.2 where
  sound := by
    intro c z c' hz
    obtain ⟨_, c₁, hy, hz⟩ := estate_bind_ok_iff.mp hz
    obtain ⟨v, hv, _⟩ := (expect (n := 0) (F := fun _ => True)).sound hy
    obtain ⟨u, hu, hQ⟩ := hg.sound hz
    exact ⟨(v, u), spells_seq.mpr ⟨_, hv, hu⟩, hQ⟩
  complete := by
    intro c v w' hc hv hF
    obtain ⟨w₁, h₁, h₂⟩ := spells_seq.mp hv
    have hkinds := spells_token.mp h₁
    obtain ⟨hk, hnext⟩ := Cursor.of_kinds hkinds
    obtain ⟨z, c', hz, hc', hQ⟩ := hg.complete (Cursor.next_lt hkinds hc) (hnext ▸ h₂) hF
    exact ⟨z, c', estate_bind_ok_iff.mpr ⟨(), c.next, if_pos hk, hz⟩, hc', hQ⟩

/-- One reader goes on behind a token, and another one if something else comes. -/
theorem accept {y z : Parse β} {P : β → a.Value → Prop} {Q : β → b.Value → Prop}
    (hy : Agrees n y a F P) (hz : Agrees (n + 1) z b F Q)
    (hb : ∀ w, b.Starts F w → Avoids [k] w) :
    Agrees (n + 1) (Grammar.accept k >>= fun t => if t = true then y else z)
      (.alt (.seq (.token k) a) b) F fun r v => v.elim (fun u => P r u.2) (Q r) where
  sound := by
    intro c r c' hr
    rcases accept_bind_ok_iff.mp hr with ⟨hk, hr⟩ | ⟨_, hr⟩
    · obtain ⟨v, hv, hP⟩ := hy.sound hr
      have hfirst : (Rhs.seq (.token k) a).Spells c.kinds ((), v) c'.kinds :=
        spells_seq.mpr ⟨c.next.kinds, spells_token.mpr (Cursor.kinds_eq_cons hk), hv⟩
      exact ⟨.inl ((), v), hfirst.left, hP⟩
    · obtain ⟨v, hv, hQ⟩ := hz.sound hr
      exact ⟨.inr v, hv.right, hQ⟩
  complete := by
    intro c v w' hc hv hF
    rcases spells_alt.mp hv with ⟨u, rfl, hu⟩ | ⟨u, rfl, hu⟩
    · obtain ⟨w₁, h₁, h₂⟩ := spells_seq.mp hu
      have hkinds := spells_token.mp h₁
      obtain ⟨hk, hnext⟩ := Cursor.of_kinds hkinds
      obtain ⟨r, c', hr, hc', hP⟩ := hy.complete (Cursor.next_lt hkinds hc) (hnext ▸ h₂) hF
      exact ⟨r, c', accept_bind_ok_iff.mpr (Or.inl ⟨hk, hr⟩), hc', hP⟩
    · have hne := (hb _ (hu.starts hF)).kindAt_ne (List.mem_singleton_self k)
      obtain ⟨r, c', hr, hc', hQ⟩ := hz.complete hc hu hF
      exact ⟨r, c', accept_bind_ok_iff.mpr (Or.inr ⟨hne, hr⟩), hc', hQ⟩

/-- The first reader takes two parts of a row at once. -/
theorem bind_pair {r : Rhs} {P : α → a.Value × b.Value → Prop} {Q : α → β → r.Value → Prop}
    (hx : Agrees n x (.seq a b) (r.Starts F) P) (hf : ∀ y, Agrees n (f y) r F (Q y)) :
    Agrees n (x >>= f) (.seq a (.seq b r)) F
      fun z v => ∃ y, P y (v.1, v.2.1) ∧ Q y z v.2.2 where
  sound := by
    intro c z c' hz
    obtain ⟨⟨⟨v₁, v₂⟩, v₃⟩, hv, y, hP, hQ⟩ := (hx.bind hf).sound hz
    obtain ⟨w₂, h₁₂, h₃⟩ := spells_seq.mp hv
    obtain ⟨w₁, h₁, h₂⟩ := spells_seq.mp h₁₂
    have htail : (Rhs.seq b r).Spells w₁ (v₂, v₃) c'.kinds := spells_seq.mpr ⟨w₂, h₂, h₃⟩
    exact ⟨(v₁, v₂, v₃), spells_seq.mpr ⟨w₁, h₁, htail⟩, y, hP, hQ⟩
  complete := by
    intro c v w' hc hv hF
    obtain ⟨w₁, h₁, htail⟩ := spells_seq.mp hv
    obtain ⟨w₂, h₂, h₃⟩ := spells_seq.mp htail
    have h₁₂ : (Rhs.seq a b).Spells c.kinds (v.1, v.2.1) w₂ := spells_seq.mpr ⟨w₁, h₁, h₂⟩
    have hall : (Rhs.seq (.seq a b) r).Spells c.kinds ((v.1, v.2.1), v.2.2) w' :=
      spells_seq.mpr ⟨w₂, h₁₂, h₃⟩
    exact (hx.bind hf).complete hc hall hF

/-- What stands in front of a closing token, unless that comes at once. -/
theorem unlessClosed {k : TokenKind} {y : Parse β} {z : β}
    {Q : β → a.Value → Prop}
    (hy : Agrees n y (.seq a (.token k)) F fun r v => Q r v.1)
    (ha : ∀ w, a.Starts ((Rhs.token k).Starts F) w → Avoids [k] w) :
    Agrees n (Grammar.accept k >>= fun t => if t = true then pure z else y)
      (.seq (.maybe a) (.token k)) F
      fun r (v : Option a.Value × Unit) => v.1.elim (r = z) (Q r) where
  sound := by
    intro c r c' hr
    rcases accept_bind_ok_iff.mp hr with ⟨hk, hr⟩ | ⟨_, hr⟩
    · cases hr
      refine ⟨(none, ()), spells_seq.mpr ⟨c.kinds, ?_, ?_⟩, rfl⟩
      · exact spells_maybe.mpr (Or.inl ⟨rfl, rfl⟩)
      · exact spells_token.mpr (Cursor.kinds_eq_cons hk)
    · obtain ⟨v, hv, hQ⟩ := hy.sound hr
      obtain ⟨w₁, h₁, h₂⟩ := spells_seq.mp hv
      refine ⟨(some v.1, ()), spells_seq.mpr ⟨w₁, ?_, h₂⟩, hQ⟩
      exact spells_maybe.mpr (Or.inr ⟨v.1, rfl, h₁⟩)
  complete := by
    rintro c ⟨v, u⟩ w' hc hv hF
    obtain ⟨w₁, h₁, h₂⟩ := spells_seq.mp hv
    rcases spells_maybe.mp h₁ with ⟨hnone, hw⟩ | ⟨x, hsome, hx⟩
    · cases hnone
      obtain ⟨hk, hnext⟩ := Cursor.of_kinds (hw.trans (spells_token.mp h₂))
      exact ⟨z, c.next, accept_bind_ok_iff.mpr (Or.inl ⟨hk, rfl⟩), hnext, rfl⟩
    · cases hsome
      have hne := (ha _ (hx.starts (h₂.starts hF))).kindAt_ne (List.mem_singleton_self k)
      have hall : (Rhs.seq a (.token k)).Spells c.kinds (x, ()) w' :=
        spells_seq.mpr ⟨w₁, hx, h₂⟩
      obtain ⟨r, c', hr, hc', hQ⟩ := hy.complete hc hall hF
      exact ⟨r, c', accept_bind_ok_iff.mpr (Or.inr ⟨hne, hr⟩), hc', hQ⟩

/-- A token that stands for a result, or else something different. -/
theorem acceptToken {y : Parse β} {z : β} {Q : β → b.Value → Prop} (hy : Agrees n y b F Q)
    (hb : ∀ w, b.Starts F w → Avoids [k] w) :
    Agrees n (Grammar.accept k >>= fun t => if t = true then pure z else y)
      (.alt (.token k) b) F fun r v => v.elim (fun _ => r = z) (Q r) where
  sound := by
    intro c r c' hr
    rcases accept_bind_ok_iff.mp hr with ⟨hk, hr⟩ | ⟨_, hr⟩
    · cases hr
      exact ⟨.inl (), (spells_token.mpr (Cursor.kinds_eq_cons hk)).left, rfl⟩
    · obtain ⟨v, hv, hQ⟩ := hy.sound hr
      exact ⟨.inr v, hv.right, hQ⟩
  complete := by
    intro c v w' hc hv hF
    rcases spells_alt.mp hv with ⟨u, rfl, hu⟩ | ⟨u, rfl, hu⟩
    · obtain ⟨hk, hnext⟩ := Cursor.of_kinds (spells_token.mp hu)
      exact ⟨z, c.next, accept_bind_ok_iff.mpr (Or.inl ⟨hk, rfl⟩), hnext, rfl⟩
    · have hne := (hb _ (hu.starts hF)).kindAt_ne (List.mem_singleton_self k)
      obtain ⟨r, c', hr, hc', hQ⟩ := hy.complete hc hu hF
      exact ⟨r, c', accept_bind_ok_iff.mpr (Or.inr ⟨hne, hr⟩), hc', hQ⟩

/-- Something that a token announces, if it is there. -/
theorem optional {y : Parse β} {z : β} {Q : β → a.Value → Prop} (hy : Agrees n y a F Q)
    (hF : ∀ w, F w → Avoids [k] w) :
    Agrees n (Grammar.accept k >>= fun t => if t = true then y else pure z)
      (.maybe (.seq (.token k) a)) F
      fun r (v : Option (Unit × a.Value)) => v.elim (r = z) fun u => Q r u.2 where
  sound := by
    intro c r c' hr
    rcases accept_bind_ok_iff.mp hr with ⟨hk, hr⟩ | ⟨_, hr⟩
    · obtain ⟨v, hv, hQ⟩ := hy.sound hr
      have hseq : (Rhs.seq (.token k) a).Spells c.kinds ((), v) c'.kinds :=
        spells_seq.mpr ⟨c.next.kinds, spells_token.mpr (Cursor.kinds_eq_cons hk), hv⟩
      exact ⟨some ((), v), spells_maybe.mpr (Or.inr ⟨_, rfl, hseq⟩), hQ⟩
    · cases hr
      exact ⟨none, spells_maybe.mpr (Or.inl ⟨rfl, rfl⟩), rfl⟩
  complete := by
    intro c v w' hc hv hw'
    rcases spells_maybe.mp hv with ⟨rfl, hkinds⟩ | ⟨u, rfl, hu⟩
    · have hne := (hF _ (hkinds ▸ hw')).kindAt_ne (List.mem_singleton_self k)
      exact ⟨z, c, accept_bind_ok_iff.mpr (Or.inr ⟨hne, rfl⟩), hkinds, rfl⟩
    · obtain ⟨w₁, h₁, h₂⟩ := spells_seq.mp hu
      obtain ⟨hk, hnext⟩ := Cursor.of_kinds (spells_token.mp h₁)
      obtain ⟨r, c', hr, hc', hQ⟩ := hy.complete (length_lt h₁ hc hnext) (hnext ▸ h₂) hw'
      exact ⟨r, c', accept_bind_ok_iff.mpr (Or.inl ⟨hk, hr⟩), hc', hQ⟩

/-- Another right side that spells the same. -/
theorem congr {P : α → a.Value → Prop} {Q : α → b.Value → Prop} (h : Agrees n x a F P)
    (hab : ∀ {w v w'}, a.Spells w v w' → ∃ u, b.Spells w u w' ∧ ∀ z, P z v → Q z u)
    (hba : ∀ {w u w'}, b.Spells w u w' → ∃ v, a.Spells w v w' ∧ ∀ z, P z v → Q z u) :
    Agrees n x b F Q where
  sound := by
    intro c z c' hz
    obtain ⟨v, hv, hP⟩ := h.sound hz
    obtain ⟨u, hu, hQ⟩ := hab hv
    exact ⟨u, hu, hQ z hP⟩
  complete := by
    intro c u w' hc hu hF
    obtain ⟨v, hv, hQ⟩ := hba hu
    obtain ⟨z, c', hz, hc', hP⟩ := h.complete hc hv hF
    exact ⟨z, c', hz, hc', hQ z hP⟩

end Agrees

/-! ## Repetition -/

section repetition

variable {α : Type} {n : Nat} {step : Parse (Option α)} {item : Parse α} {r : Rhs}
  {F : List TokenKind → Prop} {P : α → r.Value → Prop}

/-- One step of a repetition: it reads an item, or it declines where the
    repetition ends. -/
structure Steps (n : Nat) (step : Parse (Option α)) (r : Rhs) (F : List TokenKind → Prop)
    (P : α → r.Value → Prop) : Prop where
  takes : r.takes = true
  sound : ∀ {c y c'}, step c = .ok (some y) c' → ∃ v, r.Spells c.kinds v c'.kinds ∧ P y v
  complete : ∀ {c v w'}, c.rest.length < n → r.Spells c.kinds v w' →
    (Rhs.many r).Starts F w' → ∃ y c', step c = .ok (some y) c' ∧ c'.kinds = w' ∧ P y v
  stop : ∀ {c}, F c.kinds → ∃ c', step c = .ok none c'

/-- An item leaves fewer tokens. -/
theorem Steps.length_lt (h : Steps n step r F P) {c c' : Cursor} {v : r.Value}
    (hv : r.Spells c.kinds v c'.kinds) : c'.rest.length < c.rest.length := by
  have hlt := hv.length_lt h.takes
  rwa [c.length_kinds, c'.length_kinds] at hlt

/-- What is collected are items, up to a place where the step declines. -/
theorem Steps.collectUpTo_sound (h : Steps n step r F P) :
    ∀ fuel {c ys c'}, c.rest.length < fuel → collectUpTo step fuel c = .ok ys c' →
      ∃ u vs, (Rhs.many r).Spells c.kinds vs u.kinds ∧ List.Forall₂ P ys vs ∧
        step u = .ok none c'
  | 0, _, _, _, hfuel, _ => absurd hfuel (Nat.not_lt_zero _)
  | fuel + 1, c, ys, c', hfuel, hys => by
    obtain ⟨o, c₁, ho, hys⟩ := estate_bind_ok_iff.mp hys
    cases o with
    | none =>
      cases hys
      exact ⟨c, [], spells_nil.mpr rfl, .nil, ho⟩
    | some y =>
      obtain ⟨rest, c₂, hrest, hpure⟩ := estate_bind_ok_iff.mp hys
      cases hpure
      obtain ⟨v, hv, hP⟩ := h.sound ho
      have hlt := h.length_lt hv
      obtain ⟨u, vs, hvs, hall, hstop⟩ := h.collectUpTo_sound fuel (by omega) hrest
      exact ⟨u, v :: vs, spells_cons.mpr ⟨_, hv, hvs⟩, .cons hP hall, hstop⟩

/-- All items are collected. -/
theorem Steps.collectUpTo_complete (h : Steps n step r F P) {w' : List TokenKind} (hF : F w') :
    ∀ {vs : List r.Value} {fuel c}, c.rest.length < fuel → c.rest.length < n →
      (Rhs.many r).Spells c.kinds vs w' →
      ∃ ys u c', collectUpTo step fuel c = .ok ys c' ∧ List.Forall₂ P ys vs ∧
        u.kinds = w' ∧ step u = .ok none c' := by
  intro vs
  induction vs with
  | nil =>
    intro fuel c hfuel _ hvs
    have hkinds := spells_nil.mp hvs
    obtain ⟨c', hstop⟩ := h.stop (hkinds ▸ hF)
    obtain ⟨fuel, rfl⟩ := Nat.exists_eq_succ_of_ne_zero (Nat.ne_of_gt (Nat.zero_lt_of_lt hfuel))
    exact ⟨[], c, c', estate_bind_ok_iff.mpr ⟨none, c', hstop, rfl⟩, .nil, hkinds, hstop⟩
  | cons v vs ih =>
    intro fuel c hfuel hc hvs
    obtain ⟨w₁, hv, hvs⟩ := spells_cons.mp hvs
    obtain ⟨y, c₁, hy, hc₁, hP⟩ := h.complete hc hv (hvs.starts hF)
    rw [← hc₁] at hv hvs
    have hlt := h.length_lt hv
    obtain ⟨fuel, rfl⟩ := Nat.exists_eq_succ_of_ne_zero (Nat.ne_of_gt (Nat.zero_lt_of_lt hfuel))
    obtain ⟨ys, u, c', hys, hall, hu, hstop⟩ := ih (by omega : c₁.rest.length < fuel) (by omega) hvs
    refine ⟨y :: ys, u, c', ?_, .cons hP hall, hu, hstop⟩
    refine estate_bind_ok_iff.mpr ⟨some y, c₁, hy, ?_⟩
    exact estate_bind_ok_iff.mpr ⟨ys, c', hys, rfl⟩

/-- A repetition that stops in front of what follows. -/
theorem Steps.collect (h : Steps n step r F P) (hstop : ∀ {c c'}, step c = .ok none c' → c' = c) :
    Agrees n (collect step) (.many r) F (List.Forall₂ P) where
  sound := by
    intro c ys c' hys
    obtain ⟨u, vs, hvs, hall, hu⟩ := h.collectUpTo_sound _ (Nat.lt_succ_self _) hys
    cases hstop hu
    exact ⟨vs, hvs, hall⟩
  complete := by
    intro c vs w' hc hvs hF
    obtain ⟨ys, u, c', hys, hall, hu, hdecline⟩ :=
      h.collectUpTo_complete hF (Nat.lt_succ_self _) hc hvs
    cases hstop hdecline
    exact ⟨ys, u, hys, hu, hall⟩

/-- One step of reading items as long as the next tokens look like one. -/
theorem Agrees.whileSteps {more : Parse Bool} {p : List TokenKind → Bool}
    (hmore : ∀ c, more c = .ok (p c.kinds) c)
    (hitem : Agrees n item r ((Rhs.many r).Starts F) P) (htakes : r.takes = true)
    (hyes : ∀ w, r.Starts ((Rhs.many r).Starts F) w → p w = true)
    (hno : ∀ w, F w → p w = false) :
    Steps n (do if ← more then return some (← item) else return none) r F P where
  takes := htakes
  sound := by
    intro c y c' hy
    obtain ⟨t, c₁, ht, hy⟩ := estate_bind_ok_iff.mp hy
    cases (hmore c).symm.trans ht
    split at hy
    · obtain ⟨z, c₂, hz, hpure⟩ := estate_bind_ok_iff.mp hy
      cases hpure
      exact hitem.sound hz
    · cases hy
  complete := by
    intro c v w' hc hv hF
    obtain ⟨y, c', hy, hc', hP⟩ := hitem.complete hc hv hF
    refine ⟨y, c', estate_bind_ok_iff.mpr ⟨true, c, ?_, ?_⟩, hc', hP⟩
    · rw [hmore, hyes _ (hv.starts hF)]
    · exact estate_bind_ok_iff.mpr ⟨y, c', hy, rfl⟩
  stop := by
    intro c hF
    refine ⟨c, estate_bind_ok_iff.mpr ⟨false, c, ?_, rfl⟩⟩
    rw [hmore, hno _ hF]

/-- The step declines where the next tokens look different. -/
theorem while_none {more : Parse Bool} {p : List TokenKind → Bool}
    (hmore : ∀ c, more c = .ok (p c.kinds) c) {c c' : Cursor}
    (h : (do if ← more then return some (← item) else return none : Parse (Option α)) c =
      .ok none c') : c' = c ∧ p c.kinds = false := by
  obtain ⟨t, c₁, ht, h⟩ := estate_bind_ok_iff.mp h
  cases (hmore c).symm.trans ht
  split at h
  · obtain ⟨_, _, _, hpure⟩ := estate_bind_ok_iff.mp h
    cases hpure
  · next hp =>
    cases h
    exact ⟨rfl, eq_false_of_ne_true hp⟩

/-- Items as long as the next tokens look like one. -/
theorem Agrees.manyWhile {more : Parse Bool} {p : List TokenKind → Bool}
    (hmore : ∀ c, more c = .ok (p c.kinds) c)
    (hitem : Agrees n item r ((Rhs.many r).Starts F) P) (htakes : r.takes = true)
    (hyes : ∀ w, r.Starts ((Rhs.many r).Starts F) w → p w = true)
    (hno : ∀ w, F w → p w = false) :
    Agrees n (manyWhile more item) (.many r) F (List.Forall₂ P) :=
  (hitem.whileSteps hmore htakes hyes hno).collect fun h => (while_none hmore h).1

/-- Items that are led by commas. -/
theorem Agrees.commas (hitem : Agrees n item r
      ((Rhs.many (inRow (.token .comma) [r])).Starts F) P)
    (hF : ∀ w, F w → Avoids [.comma] w) :
    Agrees n (Grammar.manyWhile (Grammar.accept .comma) item)
      (.many (inRow (.token .comma) [r])) F
      (List.Forall₂ fun (y : α) (v : Unit × r.Value) => P y v.2) := by
  refine Steps.collect (r := inRow (.token .comma) [r]) ⟨rfl, ?_, ?_, ?_⟩ ?_
  · intro c y c' hy
    rcases accept_bind_ok_iff.mp hy with ⟨hk, hy⟩ | ⟨_, hy⟩
    · obtain ⟨z, c₂, hz, hpure⟩ := estate_bind_ok_iff.mp hy
      cases hpure
      obtain ⟨v, hv, hP⟩ := hitem.sound hz
      refine ⟨((), v), spells_seq.mpr ⟨c.next.kinds, ?_, hv⟩, hP⟩
      exact spells_token.mpr (Cursor.kinds_eq_cons hk)
    · cases hy
  · intro c v w' hc hv hF
    obtain ⟨w₁, h₁, h₂⟩ := spells_seq.mp hv
    obtain ⟨hk, hnext⟩ := Cursor.of_kinds (spells_token.mp h₁)
    obtain ⟨y, c', hy, hc', hP⟩ := hitem.complete (Agrees.length_lt h₁ hc hnext) (hnext ▸ h₂) hF
    refine ⟨y, c', accept_bind_ok_iff.mpr (Or.inl ⟨hk, ?_⟩), hc', hP⟩
    exact estate_bind_ok_iff.mpr ⟨y, c', hy, rfl⟩
  · intro c hc
    have hne := (hF _ hc).kindAt_ne (List.mem_singleton_self _)
    exact ⟨c, accept_bind_ok_iff.mpr (Or.inr ⟨hne, rfl⟩)⟩
  · intro c c' hc'
    rcases accept_bind_ok_iff.mp hc' with ⟨_, hc'⟩ | ⟨_, hc'⟩
    · obtain ⟨_, _, _, hpure⟩ := estate_bind_ok_iff.mp hc'
      cases hpure
    · cases hc'
      rfl

/-- Items up to a closing token. -/
theorem Agrees.manyUntil {k : TokenKind}
    (hitem : Agrees n item r ((Rhs.many r).Starts ((Rhs.token k).Starts F)) P)
    (htakes : r.takes = true)
    (hclose : ∀ w, r.Starts ((Rhs.many r).Starts ((Rhs.token k).Starts F)) w →
      Avoids [k] w) :
    Agrees n (Grammar.manyUntil k item) (.seq (.many r) (.token k)) F
      fun ys v => List.Forall₂ P ys v.1 := by
  have hsteps : Steps n (do if ← Grammar.accept k then return none else return some (← item)) r
      ((Rhs.token k).Starts F) P := by
    refine ⟨htakes, ?_, ?_, ?_⟩
    · intro c y c' hy
      rcases accept_bind_ok_iff.mp hy with ⟨_, hy⟩ | ⟨_, hy⟩
      · cases hy
      · obtain ⟨z, c₂, hz, hpure⟩ := estate_bind_ok_iff.mp hy
        cases hpure
        exact hitem.sound hz
    · intro c v w' hc hv hF
      obtain ⟨y, c', hy, hc', hP⟩ := hitem.complete hc hv hF
      have hne := (hclose _ (hv.starts hF)).kindAt_ne (List.mem_singleton_self k)
      refine ⟨y, c', accept_bind_ok_iff.mpr (Or.inr ⟨hne, ?_⟩), hc', hP⟩
      exact estate_bind_ok_iff.mpr ⟨y, c', hy, rfl⟩
    · intro c hc
      obtain ⟨w', hw, _⟩ := starts_token.mp hc
      exact ⟨c.next, accept_bind_ok_iff.mpr (Or.inl ⟨(Cursor.of_kinds hw).1, rfl⟩)⟩
  -- where the step declines the closing token is taken
  have hdecline : ∀ {u c'}, (do if ← Grammar.accept k then return none else return some (← item)
      : Parse (Option α)) u = .ok none c' → u.kinds = k :: c'.kinds := by
    intro u c' hu
    rcases accept_bind_ok_iff.mp hu with ⟨hk, hu⟩ | ⟨_, hu⟩
    · cases hu
      exact Cursor.kinds_eq_cons hk
    · obtain ⟨_, _, _, hpure⟩ := estate_bind_ok_iff.mp hu
      cases hpure
  refine ⟨?_, ?_⟩
  · intro c ys c' hys
    obtain ⟨u, vs, hvs, hall, hu⟩ := hsteps.collectUpTo_sound _ (Nat.lt_succ_self _) hys
    refine ⟨(vs, ()), spells_seq.mpr ⟨u.kinds, hvs, ?_⟩, hall⟩
    exact spells_token.mpr (hdecline hu)
  · intro c v w' hc hv hF
    obtain ⟨w₁, hvs, hlast⟩ := spells_seq.mp hv
    have hkinds := spells_token.mp hlast
    obtain ⟨ys, u, c', hys, hall, hu, hstop⟩ :=
      hsteps.collectUpTo_complete (hlast.starts hF) (Nat.lt_succ_self _) hc hvs
    have hend := hdecline hstop
    rw [hu, hkinds] at hend
    exact ⟨ys, c', hys, (List.cons.inj hend).2.symm, hall⟩

/-- A list with commas, and a token behind it. -/
theorem Agrees.row {k : TokenKind} (hne : k ≠ .comma)
    (hitem : Agrees n item r ((Rhs.many (inRow (.token .comma) [r])).Starts
      ((Rhs.token k).Starts F)) P) :
    Agrees n (do
        let first ← item
        let others ← Grammar.manyWhile (Grammar.accept .comma) item
        Grammar.expect k
        return first :: others)
      (.seq (listed r) (.token k)) F
      fun ys (v : (r.Value × List (Unit × r.Value)) × Unit) =>
        List.Forall₂ P ys (v.1.1 :: v.1.2.map (·.2)) := by
  have havoids : ∀ w, (Rhs.token k).Starts F w → Avoids [.comma] w :=
    fun w => avoids_of_token (by simpa using hne)
  have hfirst := hitem.before fun w => starts_seq.mp
  have hall := hfirst.bind fun first => (hitem.commas havoids).bind fun others =>
    Agrees.last (z := first :: others)
  refine hall.congr ?_ ?_
  · rintro w ⟨x, xs, u⟩ w' hv
    obtain ⟨w₁, h₁, hv⟩ := spells_seq.mp hv
    obtain ⟨w₂, h₂, h₃⟩ := spells_seq.mp hv
    have hrow : (listed r).Spells w (x, xs) w₂ :=
      spells_seq.mpr ⟨w₁, h₁, h₂⟩
    refine ⟨((x, xs), u), spells_seq.mpr ⟨w₂, hrow, h₃⟩, ?_⟩
    rintro ys ⟨first, hfirst, others, hothers, rfl⟩
    exact .cons hfirst (List.forall₂_map_right_iff.mpr hothers)
  · rintro w ⟨⟨x, xs⟩, u⟩ w' hv
    obtain ⟨w₂, hrow, h₃⟩ := spells_seq.mp hv
    obtain ⟨w₁, h₁, h₂⟩ := spells_seq.mp hrow
    have htail : (Rhs.seq (.many (inRow (.token .comma) [r])) (.token k)).Spells w₁ (xs, u) w' :=
      spells_seq.mpr ⟨w₂, h₂, h₃⟩
    refine ⟨(x, xs, u), spells_seq.mpr ⟨w₁, h₁, htail⟩, ?_⟩
    rintro ys ⟨first, hfirst, others, hothers, rfl⟩
    exact .cons hfirst (List.forall₂_map_right_iff.mpr hothers)

/-- Results that are determined by the values. -/
theorem map_eq_of_forall₂ {β γ : Type} {f : β → γ} {ys : List β} {vs : List γ}
    (h : List.Forall₂ (fun y v => f y = v) ys vs) : ys.map f = vs := by
  induction h with
  | nil => rfl
  | cons hy _ ih => rw [List.map_cons, hy, ih]

/-- A list in parentheses. -/
theorem Agrees.enclosed {row : Parse (List α)} {Q : List α → r.Value → Prop}
    (hrow : Agrees n row (.seq r (.token .closeParen)) F fun ys v => Q ys v.1)
    (hr : ∀ w, r.Starts ((Rhs.token .closeParen).Starts F) w → Avoids [.closeParen] w) :
    Agrees (n + 1) (do
        Grammar.expect .openParen
        if ← Grammar.accept .closeParen then return []
        row)
      (Grammar.enclosed r) F
      fun ys (v : Unit × Option r.Value × Unit) => v.2.1.elim (ys = []) (Q ys) := by
  have hinner := Agrees.unlessClosed (z := []) hrow hr
  exact Agrees.token_bind (b := .seq (.maybe r) (.token .closeParen))
    (Q := fun ys (v : Option r.Value × Unit) => v.1.elim (ys = []) (Q ys)) hinner

end repetition

end ClassLang.Grammar
