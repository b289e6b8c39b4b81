/-
Base64.

Three bytes are four digits of six bits; one or two bytes at the end are two or three digits, and
the text is filled up with `=`.  Reading a text stops at the first `=`; it skips what is no digit,
and it takes the digits of the URL alphabet too.

* **`decode_encode`** — what is written is read again.
-/
import Mathlib.Data.List.Basic

namespace N8n.Base64

def alphabet : List Char :=
  "ABCDEFGHIJKLMNOPQRSTUVWXYZabcdefghijklmnopqrstuvwxyz0123456789+/".toList

def digitChar (n : ℕ) : Char := alphabet.getD n '='

def digitValue (c : Char) : Option ℕ :=
  if c = '-' then some 62 else if c = '_' then some 63 else alphabet.idxOf? c

/-- The digits of the bytes, without the padding. -/
def digits : List UInt8 → List ℕ
  | a :: b :: c :: bytes =>
    let n := a.toNat * 65536 + b.toNat * 256 + c.toNat
    n / 262144 :: n / 4096 % 64 :: n / 64 % 64 :: n % 64 :: digits bytes
  | [a, b] =>
    let n := (a.toNat * 256 + b.toNat) * 4
    [n / 4096, n / 64 % 64, n % 64]
  | [a] => [a.toNat * 16 / 64, a.toNat * 16 % 64]
  | [] => []

/-- A single digit at the end is dropped. -/
def undigits : List ℕ → List UInt8
  | p :: q :: r :: s :: digits =>
    let n := p * 262144 + q * 4096 + r * 64 + s
    .ofNat (n / 65536) :: .ofNat (n / 256 % 256) :: .ofNat (n % 256) :: undigits digits
  | [p, q, r] =>
    let n := (p * 4096 + q * 64 + r) / 4
    [.ofNat (n / 256), .ofNat (n % 256)]
  | [p, q] => [.ofNat ((p * 64 + q) / 16)]
  | _ => []

def encode (bytes : List UInt8) : String :=
  String.ofList ((digits bytes).map digitChar ++ List.replicate ((3 - bytes.length % 3) % 3) '=')

def decode (text : String) : List UInt8 :=
  undigits ((text.toList.takeWhile (· ≠ '=')).filterMap digitValue)

theorem digits_lt : ∀ (bytes : List UInt8), ∀ n ∈ digits bytes, n < 64
  | a :: b :: c :: bytes => by
    have ha := a.toNat_lt
    have hb := b.toNat_lt
    have hc := c.toNat_lt
    simp only [digits, List.forall_mem_cons]
    exact ⟨by omega, by omega, by omega, by omega, digits_lt bytes⟩
  | [a, b] => by
    have ha := a.toNat_lt
    have hb := b.toNat_lt
    simp only [digits, List.forall_mem_cons]
    exact ⟨by omega, by omega, by omega, List.forall_mem_nil _⟩
  | [a] => by
    have ha := a.toNat_lt
    simp only [digits, List.forall_mem_cons]
    exact ⟨by omega, by omega, List.forall_mem_nil _⟩
  | [] => List.forall_mem_nil _

theorem ofNat_eq {n : ℕ} {a : UInt8} (h : n = a.toNat) : UInt8.ofNat n = a := by
  rw [h, UInt8.ofNat_toNat]

theorem undigits_digits : ∀ bytes : List UInt8, undigits (digits bytes) = bytes
  | a :: b :: c :: bytes => by
    have ha := a.toNat_lt
    have hb := b.toNat_lt
    have hc := c.toNat_lt
    simp only [digits, undigits, undigits_digits bytes]
    rw [ofNat_eq (a := a), ofNat_eq (a := b), ofNat_eq (a := c)] <;> omega
  | [a, b] => by
    have ha := a.toNat_lt
    have hb := b.toNat_lt
    simp only [digits, undigits]
    rw [ofNat_eq (a := a), ofNat_eq (a := b)] <;> omega
  | [a] => by
    have ha := a.toNat_lt
    simp only [digits, undigits]
    rw [ofNat_eq (a := a)]
    omega
  | [] => rfl

theorem digitValue_digitChar : ∀ n < 64, digitValue (digitChar n) = some n ∧ digitChar n ≠ '=' := by
  decide +kernel

theorem filterMap_digitValue {ns : List ℕ} (h : ∀ n ∈ ns, n < 64) :
    (ns.map digitChar).filterMap digitValue = ns := by
  rw [List.filterMap_map]
  refine (List.filterMap_congr fun n hn => ?_).trans List.filterMap_some
  exact (digitValue_digitChar n (h n hn)).1

/-- **A buffer is read from the text that is written for it**. -/
theorem decode_encode (bytes : List UInt8) : decode (encode bytes) = bytes := by
  have hlt := digits_lt bytes
  have hdigits : ∀ c ∈ (digits bytes).map digitChar, (decide (c ≠ '=')) = true := by
    intro c hc
    obtain ⟨n, hn, rfl⟩ := List.mem_map.mp hc
    exact decide_eq_true (digitValue_digitChar n (hlt n hn)).2
  have hpadding : (List.replicate ((3 - bytes.length % 3) % 3) '=').takeWhile
      (fun c => decide (c ≠ '=')) = [] := by
    rw [List.takeWhile_replicate]
    rfl
  rw [decode, encode, String.toList_ofList, List.takeWhile_append_of_pos hdigits, hpadding,
    List.append_nil, filterMap_digitValue hlt, undigits_digits]

end N8n.Base64
