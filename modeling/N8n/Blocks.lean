/-
Numbers laid out in consecutive blocks.

`Blocks` cuts the natural numbers into consecutive blocks, the `k`-th of length
`len k`: days into months or years, weeks into years.

* `start k` — the first number of block `k`;
* `block n` — the block that `n` lies in, with `block_eq_iff`.
-/
import Mathlib.Data.Nat.Find
import Mathlib.Order.Monotone.Basic
import Mathlib.Order.Nat

namespace N8n

/-- The lengths of consecutive blocks, none of them empty. -/
structure Blocks where
  len : ℕ → ℕ
  len_pos : ∀ k, 0 < len k

namespace Blocks

variable (b : Blocks)

/-- The first number of a block. -/
def start : ℕ → ℕ
  | 0 => 0
  | k + 1 => start k + b.len k

def block (n : ℕ) : ℕ := Nat.findGreatest (fun k => b.start k ≤ n) n

def offset (n : ℕ) : ℕ := n - b.start (b.block n)

variable {b} {k n i : ℕ}

theorem start_succ : b.start (k + 1) = b.start k + b.len k := rfl

theorem start_lt_start_succ (k : ℕ) : b.start k < b.start (k + 1) :=
  Nat.lt_add_of_pos_right (b.len_pos k)

theorem start_mono : Monotone b.start :=
  monotone_nat_of_le_succ fun k => Nat.le_of_lt (start_lt_start_succ k)

theorem le_start (k : ℕ) : k ≤ b.start k := by
  induction k with
  | zero => exact Nat.zero_le _
  | succ k ih => exact Nat.succ_le_of_lt (lt_of_le_of_lt ih (start_lt_start_succ k))

theorem block_unique {j : ℕ} (hk : b.start k ≤ n) (hk' : n < b.start (k + 1))
    (hj : b.start j ≤ n) (hj' : n < b.start (j + 1)) : k = j := by
  rcases Nat.lt_trichotomy k j with h | h | h
  · have hle : b.start (k + 1) ≤ b.start j := start_mono (Nat.succ_le_of_lt h)
    omega
  · exact h
  · have hle : b.start (j + 1) ≤ b.start k := start_mono (Nat.succ_le_of_lt h)
    omega

theorem start_block_le (n : ℕ) : b.start (b.block n) ≤ n :=
  Nat.findGreatest_spec (P := fun k => b.start k ≤ n) (Nat.zero_le n) (Nat.zero_le n)

theorem lt_start_block_succ (n : ℕ) : n < b.start (b.block n + 1) := by
  by_contra hle
  have hle : b.start (b.block n + 1) ≤ n := Nat.not_lt.mp hle
  have hgreatest := Nat.le_findGreatest (P := fun k => b.start k ≤ n)
    (le_trans (le_start (b.block n + 1)) hle) hle
  exact Nat.not_succ_le_self _ hgreatest

theorem block_eq_iff : b.block n = k ↔ b.start k ≤ n ∧ n < b.start (k + 1) := by
  constructor
  · rintro rfl
    exact ⟨start_block_le n, lt_start_block_succ n⟩
  · rintro ⟨hk, hk'⟩
    exact block_unique (start_block_le n) (lt_start_block_succ n) hk hk'

theorem offset_lt (n : ℕ) : b.offset n < b.len (b.block n) := by
  have hle := start_block_le (b := b) n
  have hlt := lt_start_block_succ (b := b) n
  rw [start_succ] at hlt
  rw [offset]
  omega

theorem start_add_offset (n : ℕ) : b.start (b.block n) + b.offset n = n :=
  Nat.add_sub_of_le (start_block_le n)

theorem block_start_add (hi : i < b.len k) : b.block (b.start k + i) = k :=
  block_eq_iff.mpr ⟨Nat.le_add_right _ _, Nat.add_lt_add_left hi _⟩

theorem offset_start_add (hi : i < b.len k) : b.offset (b.start k + i) = i := by
  rw [offset, block_start_add hi, Nat.add_sub_cancel_left]

theorem offset_add (hi : b.offset n + i < b.len (b.block n)) :
    b.block (n + i) = b.block n ∧ b.offset (n + i) = b.offset n + i := by
  have hn : n + i = b.start (b.block n) + (b.offset n + i) := by
    rw [← Nat.add_assoc, start_add_offset]
  exact ⟨hn ▸ block_start_add hi, hn ▸ offset_start_add hi⟩

theorem offset_add_next (hi : b.len (b.block n) ≤ b.offset n + i)
    (hi' : b.offset n + i < b.len (b.block n) + b.len (b.block n + 1)) :
    b.block (n + i) = b.block n + 1 ∧
      b.offset (n + i) = b.offset n + i - b.len (b.block n) := by
  have hstart := start_add_offset (b := b) n
  have hn : n + i = b.start (b.block n + 1) + (b.offset n + i - b.len (b.block n)) := by
    rw [start_succ]
    omega
  have hlt : b.offset n + i - b.len (b.block n) < b.len (b.block n + 1) := by omega
  exact ⟨hn ▸ block_start_add hlt, hn ▸ offset_start_add hlt⟩

end Blocks

end N8n
