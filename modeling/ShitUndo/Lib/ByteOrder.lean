import Mathlib.Algebra.GroupWithZero.Nat

/-!
# Numbers as bytes

The bytes of a number at a fixed width, in either byte order, and the number of a list of bytes.
-/

inductive ByteOrder where
  | little | big
deriving DecidableEq, Repr

namespace ByteOrder

variable {order : ByteOrder} {k n : Nat}

/-- The low `k` bytes of `n`, the lowest first. -/
def digits : Nat → Nat → List UInt8
  | 0, _ => []
  | k + 1, n => .ofNat n :: digits k (n / 256)

/-- The number with these bytes, the lowest first. -/
def value : List UInt8 → Nat
  | [] => 0
  | b :: bytes => b.toNat + 256 * value bytes

@[simp] theorem length_digits : (digits k n).length = k := by
  induction k generalizing n with
  | zero => rfl
  | succ k ih => rw [digits, List.length_cons, ih]

theorem value_digits : value (digits k n) = n % 256 ^ k := by
  induction k generalizing n with
  | zero => simp [digits, value, Nat.mod_one]
  | succ k ih =>
    rw [digits, value, ih, Nat.pow_succ', Nat.mod_mul]
    simp

def toBytes (k n : Nat) : ByteOrder → List UInt8
  | little => digits k n
  | big => (digits k n).reverse

def ofBytes (bytes : List UInt8) : ByteOrder → Nat
  | little => value bytes
  | big => value bytes.reverse

@[simp] theorem length_toBytes : (order.toBytes k n).length = k := by
  cases order <;> simp [toBytes]

theorem ofBytes_toBytes (hn : n < 256 ^ k) : order.ofBytes (order.toBytes k n) = n := by
  cases order <;> simp [ofBytes, toBytes, value_digits, Nat.mod_eq_of_lt hn]

end ByteOrder
