import ClassLang.Proofs.Simulation.Stage

/-! # Variables and new objects on the machine

    The code that reads and makes what a store holds.

    * **`Running.receiver`**: the frame holds the address of the object on which
      the method runs, and **`Stage.field`**: every field that a name resolves
      to lies in this object at the offset of its slot.
    * **`Stage.load`** is the code that reads a variable.
    * **`Stage.allocate`** is the code that makes an object. -/

namespace ClassLang

/-- The field of an object lies in the object, at the offset of its slot. -/
theorem Known.Lies.field {known : Known} {roots : List String} {r : Ref} {a : Int}
    {c d owner x : String} {sl : Slot} (hk : known.Regular)
    (h : known.Lies roots r (.object d) a) (hi : known.Inherits d c)
    (hf : known.HasField c ⟨owner, x⟩ sl) :
    known.Lies roots (r.sub owner x) sl.ty (a + sl.offset) := by
  have hstep : known.Leads (.object d) [⟨owner, x⟩] sl.ty (sl.offset + 0) :=
    .field (hf.inherited hk hi) .here
  rw [Int.add_zero] at hstep
  exact h.append hstep

namespace Machine

variable {M : Machine} {known : Known} {before : List Int} {site : Site} {V : View} {m : Method}
  {calls : Calls} {need b d : Nat} {ρ : Env} {σ : Store} {s : State} {x : String} {ty : Ty}
  {code : List Line}

/-! ## Places -/

/-- The word of the receiver is in the stack. -/
theorem HasFrame.hasSlot_self {roots : List String} (h : M.HasFrame known roots m b ρ s)
    (hb : b ≤ d) (hd : M.HasSlot d) : M.HasSlot (m.selfSlot b) := by
  have hdeep := h.deep
  unfold Method.selfSlot
  exact hd.of_le (by omega) (by omega)

/-- The words of the variables are in the stack. -/
theorem HasFrame.hasSlot_var {roots : List String} (h : M.HasFrame known roots m b ρ s)
    (hb : b + m.localCount ≤ d) (hd : M.HasSlot d) {k : Nat} (hk : k < m.variables.length) :
    M.HasSlot (m.slotOf b k) := by
  obtain ⟨hone, hle⟩ := Method.slotOf_bounds h.deep hk
  exact hd.of_le hone (by omega)

/-- The frame holds the address of the object on which the method runs. -/
theorem Running.receiver (hk : known.Regular) (h : M.Running known before V m b ρ σ d s) :
    ∃ cls a, known.Lies σ.roots ρ.self (.object cls) a ∧ known.Inherits cls V.cls ∧
      s.memory (M.slot (m.selfSlot b)) = M.word a := by
  obtain ⟨u, a, hlies, hword⟩ := h.frame.self
  have hself := h.env.self
  generalize hval : Value.object ρ.self = val at hself
  obtain _ | _ | _ | ⟨hroot, hleads, hi⟩ := hself
  cases hval
  obtain ⟨rfl, _⟩ := hlies.unique hk ⟨_, _, hroot, hleads, rfl⟩
  exact ⟨_, a, hlies, hi, hword⟩

/-- A name that resolves to a field has the slot of this field. -/
theorem Stage.field (S : M.Stage known before site V m calls need) {owner : String}
    (hx : V.vars.lookup x = none) (hr : V.known.resolve V.cls x = some (owner, ty))
    (hty : ty.Plain) :
    ∃ sl, site.locate x = .ok (.field sl) ∧ sl.ty = ty ∧ known.HasField V.cls ⟨owner, x⟩ sl := by
  obtain ⟨sl, hown, hname, hsty, hloc, _, _⟩ := S.serves.locate_member hx hr hty
  have howner := (Known.inherits_of_resolve hr).declares_right
  rw [← S.slots owner howner] at hown
  exact ⟨sl, hloc, hsty, S.within.inherits (Known.inherits_of_resolve hr), hown, hname⟩

/-- The operand of the receiver. -/
theorem Stage.receiver_eq (S : M.Stage known before site V m calls need)
    (hb : m.params.length + 3 ≤ b) :
    site.receiver = .mem (4 * ((b : Int) - m.selfSlot b)) .ebp := by
  rw [Site.receiver, S.serves.frame, Method.receiver_eq hb]

/-! ## Reading -/

/-- The code of a variable that lies in the frame. -/
theorem Stage.load_frame (S : M.Stage known before site V m calls need)
    (hx : V.vars.lookup x = some ty) (hcode : site.load x = .ok code) :
    M.Evaluates known before V m code 1 (V.read · x) := by
  intro b ρ σ d s v σ' R hat hread hd _
  have hread : V.read ρ x σ = .ok (v, σ') := hread
  obtain ⟨k, hk⟩ := Site.Serves.exists_index_of_lookup hx
  rw [Site.load, S.serves.locate_variable hk] at hcode
  cases hcode
  unfold View.read at hread
  rw [hx] at hread
  cases hv : ρ.vars x with
  | none =>
    rw [hv] at hread
    cases hread
  | some v' =>
    rw [hv] at hread
    cases hread
    rw [S.serves.vars] at hk
    have hlt := (List.getElem?_eq_some_iff.mp hk).1
    have hslot := R.frame.hasSlot_var (by have := R.deep; omega) hd hlt
    have hvalue := value_frame S.placed R.frame.ebp (Method.offsetOf_eq R.frame.deep) hslot
    obtain ⟨s', hs'⟩ := push_pushed S.placed hat hvalue R.esp hd
    exact ⟨s', hs'.gave S.regular R.mirrors (R.frame.vars k x ty v hk hv)⟩

/-- The code of a variable that lies in the object. -/
theorem Stage.load_field (S : M.Stage known before site V m calls need) {owner : String}
    (hx : V.vars.lookup x = none) (hr : V.known.resolve V.cls x = some (owner, ty))
    (hty : ty.Plain) (hcode : site.load x = .ok code) :
    M.Evaluates known before V m code 1 (V.read · x) := by
  intro b ρ σ d s v σ' R hat hread hd _
  have hread : V.read ρ x σ = .ok (v, σ') := hread
  obtain ⟨sl, hloc, rfl, hf⟩ := S.field hx hr hty
  obtain ⟨cls, a, hlies, hi, hself⟩ := R.receiver S.regular
  have hfield := hlies.field S.regular hi hf
  have hslot := R.frame.hasSlot_self (by have := R.deep; omega) hd
  rw [Site.load, hloc, S.receiver_eq R.frame.deep] at hcode
  unfold View.read at hread
  rw [hx] at hread
  simp only [hr] at hread
  obtain ⟨hvalue, rfl⟩ : σ.field ρ.self owner x sl.ty = some v ∧ σ = σ' := by
    cases hvalue : σ.field ρ.self owner x sl.ty with
    | none =>
      rw [hvalue] at hread
      cases hread
    | some w =>
      rw [hvalue] at hread
      cases hread
      exact ⟨rfl, rfl⟩
  cases hslty : sl.ty with
  | object c =>
    -- the address of the held object
    rw [hslty] at hfield hvalue
    cases hvalue
    simp only [bind, Except.bind, hslty] at hcode
    cases hcode
    obtain ⟨s', hs'⟩ := push_address_pushed S.placed R.frame.ebp rfl hslot hat R.esp hd hself
    exact ⟨s', hs'.gave S.regular R.mirrors ⟨_, _, hfield, rfl⟩⟩
  | func => exact (hslty ▸ hty).elim
  | _ =>
    have hno : ∀ c, sl.ty ≠ .object c := by
      intro c h
      rw [hslty] at h
      cases h
    rw [hslty] at hfield hno hvalue
    simp only [bind, Except.bind, hslty] at hcode
    cases hcode
    have hword := R.mirrors.hasWord S.regular hfield hno
    obtain ⟨s', hs'⟩ := push_field_pushed S.placed R.frame.ebp rfl hslot hat R.esp hd hself hword
    exact ⟨s', hs'.gave S.regular R.mirrors (R.mirrors.cells _ _ _ v hfield hno hvalue)⟩

/-- The code of a variable gives its value. -/
theorem Stage.load (S : M.Stage known before site V m calls need) (hx : V.varTy? x = some ty)
    (hty : ty.Storable) (hcode : site.load x = .ok code) :
    M.Evaluates known before V m code 1 (V.read · x) := by
  unfold View.varTy? at hx
  cases hv : V.vars.lookup x with
  | some ty' => exact S.load_frame hv hcode
  | none =>
    rw [hv] at hx
    obtain ⟨⟨owner, ty'⟩, hr, rfl⟩ := Option.map_eq_some_iff.mp hx
    exact S.load_field hv hr (Site.Serves.plain_of_storable hty) hcode

/-! ## Making -/

/-- The words of an object are as many as its bytes tell. -/
theorem wordCount_eq (known : Known) (cls : String) :
    4 * ((((known.objectSize cls).toNat + 3) / 4 : Nat) : Int) = known.objectSize cls := by
  obtain ⟨j, hj⟩ := known.objectSize_dvd cls
  have hsize := known.objectSize_nonneg cls
  omega

/-- The code that makes an object gives a reference to the object. -/
theorem Stage.allocate (S : M.Stage known before site V m calls need) {cls : String}
    (hc : V.known.Declares cls) (hcode : site.allocate cls = .ok code) :
    M.Evaluates known before V m code 1
      (fun _ σ => .ok (.object (σ.make cls).1, (σ.make cls).2)) := by
  intro b ρ σ d s v σ' R hat heval hd hheap
  cases heval
  have hsize : (V.known.layout cls).size = known.objectSize cls := (S.sizes cls hc).symm
  rw [Site.allocate, S.serves.layouts.declared cls hc] at hcode
  cases hcode
  rw [hsize] at hat ⊢
  have hcount := wordCount_eq known cls
  generalize hn : ((known.objectSize cls).toNat + 3) / 4 = n at hcount
  have hoffsets : wordOffsets (known.objectSize cls) =
      (List.range n).map fun (i : Nat) => 4 * (i : Int) := by
    rw [wordOffsets, hn]
    rfl
  have hheap' : M.heap.low + (known.roomOf σ.roots + known.objectSize cls) ≤ M.heap.high := by
    have hroom := known.roomOf_append σ.roots [cls]
    rw [Known.roomOf_singleton] at hroom
    rw [← hroom]
    exact hheap
  have hnonneg := known.roomOf_nonneg σ.roots
  have hwords : ∀ i < n, M.HasWord (known.roomOf σ.roots + 4 * i) := fun i hi =>
    ⟨by omega, Int.dvd_add (known.roomOf_dvd _) ⟨i, rfl⟩, by omega⟩
  obtain ⟨s', hruns, hline, hesp, hebp, hout, hword, htop, hzero, hsame⟩ :=
    allocate_pushed S.placed hoffsets hat R.mirrors.top R.esp hd hwords
  have hlast : (σ.roots ++ [cls])[σ.roots.length]? = some cls := by simp
  refine ⟨s', ⟨hruns, hebp, ?_⟩, ?_, hesp, ?_, ?_⟩
  · intro k h1 hkd
    have hslot := hd.of_le h1 (Nat.le_succ_of_le hkd)
    refine hsame _ ?_ ?_ ?_
    · intro heq
      have := (slot_inj S.placed hslot hd).mp heq
      omega
    · exact fun heq => symbol_ne_slot S.placed (by simp) hslot heq.symm
    · exact fun i hi heq => word_ne_slot S.placed (hwords i hi) hslot heq.symm
  · rw [hline, hoffsets]
    simp [instrs]
  · rw [hword]
    refine ⟨.object cls, _, ⟨cls, 0, hlast, .here, rfl⟩, ?_⟩
    rw [Int.add_zero]
    show M.word _ = M.word (known.roomOf ((σ.roots ++ [cls]).take σ.roots.length))
    rw [List.take_left]
  · refine R.mirrors.make S.regular R.store cls hheap ?_ ?_ ?_ hout
    · exact fun i hi => hzero i (by omega)
    · intro k hk hlt
      refine hsame _ (word_ne_slot S.placed hk hd) ?_ ?_
      · exact fun heq => symbol_ne_word S.placed (by simp) hk heq.symm
      · intro i hi heq
        have := (word_inj S.placed hk (hwords i hi)).mp heq
        omega
    · rw [htop, Known.roomOf_append, Known.roomOf_singleton]

end Machine

end ClassLang
