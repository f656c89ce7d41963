import Mathlib.Algebra.GroupWithZero.Nat
import Mathlib.Data.Nat.Basic
import Mathlib.Tactic.Common

/-! # Networks

  Blocks of addresses in CIDR notation, for addresses of any width:

  - `Cidr`: the addresses that share the first `len` bits of `base`;
  - `Cidr.under`: a block behind a prefix of a wider address, and
    `Cidr.under_contains`: which addresses it has.
-/

namespace Network

variable {w k : ℕ}

/-- `base/len` -/
structure Cidr (w : ℕ) where
  base : BitVec w
  len : ℕ
  len_le : len ≤ w

namespace Cidr

/-- The address has the first bits of the base. -/
def Contains (p : Cidr w) (addr : BitVec w) : Prop :=
  addr.toNat / 2 ^ (w - p.len) = p.base.toNat / 2 ^ (w - p.len)

instance (p : Cidr w) (addr : BitVec w) : Decidable (p.Contains addr) :=
  inferInstanceAs (Decidable (_ = _))

/-- The block behind the prefix `hi`. -/
def under (p : Cidr w) (hi : BitVec k) : Cidr (k + w) where
  base := hi ++ p.base
  len := k + p.len
  len_le := Nat.add_le_add_left p.len_le k

/-- An address is in it when it has the prefix, and the rest is in the
    block. -/
theorem under_contains {p : Cidr w} {hi : BitVec k} {addr : BitVec (k + w)} :
    (p.under hi).Contains addr ↔ addr.toNat / 2 ^ w = hi.toNat ∧ p.Contains (addr.setWidth w) := by
  have hlen : k + w - (k + p.len) = w - p.len := Nat.add_sub_add_left k w p.len
  have hsplit : 2 ^ w = 2 ^ (w - p.len) * 2 ^ p.len := by
    rw [← Nat.pow_add, Nat.sub_add_cancel p.len_le]
  have hpos : 0 < 2 ^ (w - p.len) := Nat.two_pow_pos _
  have hbase : (hi ++ p.base).toNat = hi.toNat * 2 ^ w + p.base.toNat := by
    rw [BitVec.toNat_append, ← Nat.shiftLeft_add_eq_or_of_lt p.base.isLt, Nat.shiftLeft_eq]
  -- the part of a number above the rest
  have hdiv : ∀ h r, (h * 2 ^ w + r) / 2 ^ (w - p.len) =
      h * 2 ^ p.len + r / 2 ^ (w - p.len) := by
    intro h r
    rw [hsplit, Nat.mul_left_comm, Nat.mul_add_div hpos]
  have haddr := Nat.div_add_mod' addr.toNat (2 ^ w)
  unfold Contains
  rw [show (p.under hi).len = k + p.len from rfl, show (p.under hi).base = hi ++ p.base from rfl,
    hlen, hbase, BitVec.toNat_setWidth, hdiv]
  constructor
  · intro h
    have hhigh : addr.toNat / 2 ^ w = hi.toNat := by
      have hlow : p.base.toNat / 2 ^ (w - p.len) < 2 ^ p.len :=
        Nat.div_lt_of_lt_mul (hsplit ▸ p.base.isLt)
      rw [hsplit, ← Nat.div_div_eq_div_mul, h, Nat.mul_comm, Nat.mul_add_div (Nat.two_pow_pos _),
        Nat.div_eq_of_lt hlow, Nat.add_zero]
    refine ⟨hhigh, ?_⟩
    rw [← haddr, hhigh, hdiv] at h
    exact Nat.add_left_cancel h
  · rintro ⟨hhigh, hlow⟩
    rw [← haddr, hhigh, hdiv, hlow]

end Cidr

end Network
