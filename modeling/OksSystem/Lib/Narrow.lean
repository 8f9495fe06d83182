import Mathlib.Data.Int.Init

/-!
# Numbers cut to an `int`

* `toInt` : the remainder by 2^32 that a signed word of 32 bits holds;
* `toInt_of_lt`, `toInt_lt` : it is the number below 2^31, and less than the number from there on.
-/

namespace OksSystem.Narrow

/-- What is left of a number in an `int`. -/
def toInt (n : Nat) : Int := Int.bmod n 4294967296

variable {n : Nat}

theorem toInt_of_lt (h : n < 2147483648) : toInt n = n := by
  unfold toInt
  rw [Int.bmod_def]
  omega

theorem toInt_lt (h : 2147483648 ≤ n) : toInt n < n := by
  unfold toInt
  rw [Int.bmod_def]
  omega

theorem toInt_le (n : Nat) : toInt n ≤ n := by
  rcases Nat.lt_or_ge n 2147483648 with h | h
  · exact Int.le_of_eq (toInt_of_lt h)
  · exact Int.le_of_lt (toInt_lt h)

theorem le_toInt (n : Nat) : -2147483648 ≤ toInt n := by
  unfold toInt
  rw [Int.bmod_def]
  omega

end OksSystem.Narrow
