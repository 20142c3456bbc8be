import ClassLang.Fault

/-! # Word arithmetic

    Offsets and sizes are signed words of 32 bits.  They are kept as integers,
    and every operation on them either gives the exact result or is a fault:
    no offset ever wraps around.  Only a count that is converted to a word does,
    **`truncate`**. -/

namespace ClassLang.Word

/-- The bytes of a word: of an integer, a boolean or an address. -/
def size : Int := 4

/-- Is this integer a signed word of 32 bits? -/
def Fits (n : Int) : Prop := -2147483648 ≤ n ∧ n ≤ 2147483647

instance (n : Int) : Decidable (Fits n) := inferInstanceAs (Decidable (_ ∧ _))

/-- The exact result `n` of an operation, if it is a word. -/
def exact (op : WordOp) (n : Int) : Except Fault Int :=
  if Fits n then .ok n else .error (.overflow op)

/-- The sum of two words. -/
def add (a b : Int) : Except Fault Int := exact .add (a + b)

/-- The difference of two words. -/
def sub (a b : Int) : Except Fault Int := exact .subtract (a - b)

/-- The product of two words. -/
def mul (a b : Int) : Except Fault Int := exact .multiply (a * b)

/-- The word that the lowest 32 bits of an integer stand for. -/
def truncate (n : Int) : Int := n.bmod 4294967296

/-- A word is converted as it is. -/
theorem truncate_of_fits {n : Int} (h : Fits n) : truncate n = n := by
  obtain ⟨hlow, hhigh⟩ := h
  exact Int.bmod_eq_of_le (by omega) (by omega)

/-- A result is given exactly where it is a word, and then it is exact. -/
theorem exact_eq_ok_iff {op : WordOp} {n m : Int} : exact op n = .ok m ↔ Fits n ∧ n = m := by
  unfold exact; split <;> simp_all

end ClassLang.Word
