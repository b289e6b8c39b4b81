/-
Values of the host language, as far as the engine carries them around.

`JsValue` is what a node parameter or a field of an item may hold: a primitive,
an array or a plain object.  Numbers are never computed with here, so they are
kept as rationals.  The type is a tree: parameters and item data are JSON.

Equality of trees is decidable (`instDecidableEqJsValue`), so that models built
from them can be evaluated.
-/
import Mathlib.Data.Rat.Init
import Mathlib.Data.List.Basic

namespace N8n

inductive JsValue where
  | undefined
  | null
  | boolean (b : Bool)
  | number (n : ℚ)
  | string (s : String)
  | array (items : List JsValue)
  | object (fields : List (String × JsValue))

namespace JsValue

instance : Inhabited JsValue := ⟨undefined⟩

mutual
def beq : JsValue → JsValue → Bool
  | undefined, undefined => true
  | null, null => true
  | boolean a, boolean b => a == b
  | number a, number b => decide (a = b)
  | string a, string b => a == b
  | array a, array b => beqItems a b
  | object a, object b => beqFields a b
  | _, _ => false

def beqItems : List JsValue → List JsValue → Bool
  | [], [] => true
  | a :: as, b :: bs => beq a b && beqItems as bs
  | _, _ => false

def beqFields : List (String × JsValue) → List (String × JsValue) → Bool
  | [], [] => true
  | (k, a) :: as, (l, b) :: bs => k == l && beq a b && beqFields as bs
  | _, _ => false
end

mutual
theorem eq_of_beq : ∀ {a b : JsValue}, beq a b = true → a = b
  | undefined, b, h => by cases b <;> simp_all [beq]
  | null, b, h => by cases b <;> simp_all [beq]
  | boolean _, b, h => by cases b <;> simp_all [beq]
  | number _, b, h => by cases b <;> simp_all [beq]
  | string _, b, h => by cases b <;> simp_all [beq]
  | array as, b, h => by
    cases b with
    | array bs =>
      have hitems : as = bs := eq_of_beqItems (by simpa [beq] using h)
      rw [hitems]
    | _ => simp [beq] at h
  | object as, b, h => by
    cases b with
    | object bs =>
      have hfields : as = bs := eq_of_beqFields (by simpa [beq] using h)
      rw [hfields]
    | _ => simp [beq] at h

theorem eq_of_beqItems : ∀ {as bs : List JsValue}, beqItems as bs = true → as = bs
  | [], bs, h => by cases bs <;> simp_all [beqItems]
  | a :: as, bs, h => by
    cases bs with
    | nil => simp [beqItems] at h
    | cons b bs =>
      rw [beqItems, Bool.and_eq_true] at h
      rw [eq_of_beq h.1, eq_of_beqItems h.2]

theorem eq_of_beqFields :
    ∀ {as bs : List (String × JsValue)}, beqFields as bs = true → as = bs
  | [], bs, h => by cases bs <;> simp_all [beqFields]
  | (k, a) :: as, bs, h => by
    cases bs with
    | nil => simp [beqFields] at h
    | cons b bs =>
      obtain ⟨l, b⟩ := b
      simp only [beqFields, Bool.and_eq_true, beq_iff_eq] at h
      rw [h.1.1, eq_of_beq h.1.2, eq_of_beqFields h.2]
end

mutual
theorem beq_refl : ∀ a : JsValue, beq a a = true
  | undefined => rfl
  | null => rfl
  | boolean b => by simp [beq]
  | number n => by simp [beq]
  | string s => by simp [beq]
  | array as => by simpa [beq] using beqItems_refl as
  | object as => by simpa [beq] using beqFields_refl as

theorem beqItems_refl : ∀ as : List JsValue, beqItems as as = true
  | [] => rfl
  | a :: as => by rw [beqItems, beq_refl a, beqItems_refl as, Bool.and_self]

theorem beqFields_refl : ∀ as : List (String × JsValue), beqFields as as = true
  | [] => rfl
  | (k, a) :: as => by
    rw [beqFields, beq_refl a, beqFields_refl as, beq_self_eq_true, Bool.and_self,
      Bool.and_self]
end

instance : DecidableEq JsValue := fun a b =>
  decidable_of_iff (beq a b = true) ⟨eq_of_beq, fun h => h ▸ beq_refl a⟩

def setField (fields : List (String × JsValue)) (key : String) (v : JsValue) :
    List (String × JsValue) :=
  if fields.any (fun f => f.1 = key) then
    fields.map fun f => if f.1 = key then (key, v) else f
  else fields ++ [(key, v)]

def fields : JsValue → List (String × JsValue)
  | object fields => fields
  | _ => []

def spread (a b : List (String × JsValue)) : List (String × JsValue) :=
  b.foldl (fun fields f => setField fields f.1 f.2) a

def truthy : JsValue → Bool
  | undefined => false
  | null => false
  | boolean b => b
  | number n => n ≠ 0
  | string s => s ≠ ""
  | array _ => true
  | object _ => true

def get : JsValue → String → JsValue
  | object fields, key => ((fields.find? (fun f => f.1 = key)).map Prod.snd).getD undefined
  | _, _ => undefined

end JsValue

end N8n
