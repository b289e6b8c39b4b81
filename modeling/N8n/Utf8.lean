/-
Text as bytes in UTF-8, as a text encoder writes it and a text decoder reads it.

The decoder drops a byte order mark at the start and puts a replacement character in place of
bytes that are no character.

* **`encode_decode`** — bytes that are UTF-8 are read as a text whose bytes they are, but for the
  mark.
-/
import Mathlib.Data.List.Infix

namespace N8n.Utf8

/-- The bytes of a text. -/
def encode (text : String) : List UInt8 := text.toList.flatMap String.utf8EncodeChar

def replacement : Char := '\uFFFD'

def byteOrderMark : Char := '\uFEFF'

/-- After a first byte: how many bytes follow, and the bounds of the next one. -/
def continuation (b : UInt8) : Option (ℕ × UInt8 × UInt8) :=
  if 0xC2 ≤ b ∧ b ≤ 0xDF then some (1, 0x80, 0xBF)
  else if b = 0xE0 then some (2, 0xA0, 0xBF)
  else if b = 0xED then some (2, 0x80, 0x9F)
  else if 0xE1 ≤ b ∧ b ≤ 0xEF then some (2, 0x80, 0xBF)
  else if b = 0xF0 then some (3, 0x90, 0xBF)
  else if 0xF1 ≤ b ∧ b ≤ 0xF3 then some (3, 0x80, 0xBF)
  else if b = 0xF4 then some (3, 0x80, 0x8F)
  else none

/-- How many bytes behind the first one are read before it turns out that there is no character;
one replacement stands for all of them. -/
def wasted (b : UInt8) (bytes : List UInt8) : ℕ :=
  match continuation b, bytes with
  | some (count, lower, upper), next :: rest =>
    if lower ≤ next ∧ next ≤ upper then
      1 + ((rest.take (count - 1)).takeWhile fun b => 0x80 ≤ b ∧ b ≤ 0xBF).length
    else 0
  | _, _ => 0

/-- The characters of bytes, if the first ones belong to a character before. -/
def decodeFrom : ℕ → List UInt8 → List Char
  | _, [] => []
  | k + 1, _ :: bytes => decodeFrom k bytes
  | 0, b :: bytes => match (b :: bytes).toByteArray.utf8DecodeChar? 0 with
    | some c => c :: decodeFrom (c.utf8Size - 1) bytes
    | none => replacement :: decodeFrom (wasted b bytes) bytes

/-- The bytes of a byte order mark. -/
def mark : List UInt8 := [0xEF, 0xBB, 0xBF]

/-- The bytes behind a byte order mark at the start, if there is one. -/
def withoutMark (bytes : List UInt8) : List UInt8 :=
  if mark <+: bytes then bytes.drop mark.length else bytes

def decode (bytes : List UInt8) : String := String.ofList (decodeFrom 0 (withoutMark bytes))

/-- Bytes of some text. -/
def IsUtf8 (bytes : List UInt8) : Prop := ∃ text, encode text = bytes

variable {text : String} {bytes : List UInt8}

theorem decodeFrom_skip (skipped : List UInt8) :
    decodeFrom skipped.length (skipped ++ bytes) = decodeFrom 0 bytes := by
  induction skipped with
  | nil => rfl
  | cons b skipped ih => exact ih

theorem decodeFrom_char (c : Char) :
    decodeFrom 0 (String.utf8EncodeChar c ++ bytes) = c :: decodeFrom 0 bytes := by
  have hread : (String.utf8EncodeChar c ++ bytes).toByteArray.utf8DecodeChar? 0 = some c := by
    rw [List.toByteArray_append]
    exact ByteArray.utf8DecodeChar?_utf8EncodeChar_append
  have hlength := String.length_utf8EncodeChar c
  rcases hc : String.utf8EncodeChar c with _ | ⟨b, rest⟩
  · exact absurd hc String.utf8EncodeChar_ne_nil
  · rw [hc] at hread hlength
    have hrest : c.utf8Size - 1 = rest.length := by
      rw [← hlength, List.length_cons, Nat.add_sub_cancel]
    rw [List.cons_append] at hread ⊢
    rw [decodeFrom, hread]
    exact congrArg (c :: ·) (hrest ▸ decodeFrom_skip rest)

theorem decodeFrom_chars (cs : List Char) :
    decodeFrom 0 (cs.flatMap String.utf8EncodeChar) = cs := by
  induction cs with
  | nil => rfl
  | cons c cs ih => rw [List.flatMap_cons, decodeFrom_char, ih]

theorem decodeFrom_encode : decodeFrom 0 (encode text) = text.toList := decodeFrom_chars _

theorem encode_injective : Function.Injective encode := by
  intro text other h
  rw [← String.toList_inj, ← decodeFrom_encode, h, decodeFrom_encode]

theorem encode_mark : String.utf8EncodeChar byteOrderMark = mark := by decide

theorem mark_prefix_encode_iff : mark <+: encode text ↔ text.toList.head? = some byteOrderMark := by
  constructor
  · rintro ⟨rest, h⟩
    rw [← decodeFrom_encode, ← h, ← encode_mark, decodeFrom_char]
    rfl
  · intro h
    obtain ⟨cs, hcs⟩ := List.head?_eq_some_iff.mp h
    rw [encode, hcs, List.flatMap_cons, encode_mark]
    exact List.prefix_append _ _

theorem decode_encode (h : text.toList.head? ≠ some byteOrderMark) : decode (encode text) = text := by
  rw [decode, withoutMark, if_neg (mt mark_prefix_encode_iff.mp h), decodeFrom_encode,
    String.ofList_toList]

theorem IsUtf8.withoutMark (h : IsUtf8 bytes) : IsUtf8 (withoutMark bytes) := by
  rw [Utf8.withoutMark]
  split
  · next hmark =>
    obtain ⟨text, rfl⟩ := h
    obtain ⟨cs, hcs⟩ := List.head?_eq_some_iff.mp (mark_prefix_encode_iff.mp hmark)
    refine ⟨String.ofList cs, ?_⟩
    rw [encode, encode, hcs, String.toList_ofList, List.flatMap_cons, encode_mark,
      List.drop_left]
  · exact h

/-- **Reading and writing back**: bytes that are UTF-8 come back without their mark. -/
theorem encode_decode (h : IsUtf8 bytes) : encode (decode bytes) = withoutMark bytes := by
  obtain ⟨text, htext⟩ := h.withoutMark
  rw [decode, ← htext, decodeFrom_encode, String.ofList_toList]

theorem withoutMark_eq_self_iff : withoutMark bytes = bytes ↔ ¬ mark <+: bytes := by
  rw [withoutMark]
  split
  · next h =>
    refine iff_of_false (fun heq => ?_) (not_not_intro h)
    have hlength := congrArg List.length heq
    have hle := h.length_le
    simp only [List.length_drop, mark, List.length_cons, List.length_nil] at hlength hle
    omega
  · next h => exact iff_of_true rfl h

/-- A truncated character is one replacement, and so is a byte that starts none. -/
example : decodeFrom 0 [0x61, 0xE2, 0x82, 0xFF] = ['a', replacement, replacement] := by decide

end N8n.Utf8
