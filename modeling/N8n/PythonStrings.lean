/-
Strings of Python: lists of code points, lone surrogates included.

* `str` — a string of the program text;
* `deleteDoubled` — `s.replace(cc, "")`, with what it does to a text in parts.
-/
import Mathlib.Data.List.Basic

namespace N8n.Python

abbrev CodePoint := Fin 0x110000

abbrev PyString := List CodePoint

instance : LawfulBEq PyString := inferInstance

theorem toNat_lt (c : Char) : c.toNat < 0x110000 := by
  rcases c.valid with h | ⟨-, h⟩
  · exact Nat.lt_trans h (by decide)
  · exact h

def chr (c : Char) : CodePoint := ⟨c.toNat, toNat_lt c⟩

def str (s : String) : PyString := s.toList.map chr

/-- `s.replace(cc, "")` for a doubled character. -/
def deleteDoubled (c : CodePoint) : PyString → PyString
  | a :: b :: rest =>
    if a = c ∧ b = c then deleteDoubled c rest else a :: deleteDoubled c (b :: rest)
  | [a] => [a]
  | [] => []

def firstPart (c : CodePoint) (s : PyString) : PyString := s.takeWhile (· ≠ c)

def startsWith (c : CodePoint) (s : PyString) : Bool := s.head? = some c

end N8n.Python
