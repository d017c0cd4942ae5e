/-!
# Positional numerals

A number written with a fixed count of digits in some base, the most significant digit first.
Addresses are such numerals twice over: their segments are digits in base 256 or 65536, and a
group of an IPv6 address is four digits in base 16.
-/

namespace NetPattern.Positional

/-- The last `width` digits of a number, the most significant first. -/
def digits (base : Nat) : Nat → Nat → List Nat
  | 0, _ => []
  | width + 1, n => digits base width (n / base) ++ [n % base]

/-- The number that a list of digits stands for. -/
def value (base : Nat) (ds : List Nat) : Nat :=
  ds.foldl (fun total digit => total * base + digit) 0

@[simp] theorem length_digits (base width n : Nat) : (digits base width n).length = width := by
  induction width generalizing n with
  | zero => rfl
  | succ width ih => simp [digits, ih]

theorem value_nil (base : Nat) : value base [] = 0 := rfl

/-- Appending a digit moves the others up by one place. -/
theorem value_concat (base : Nat) (ds : List Nat) (digit : Nat) :
    value base (ds ++ [digit]) = value base ds * base + digit := by
  simp [value]

end NetPattern.Positional
