import Onion5.Foundations.Bytes

/-!
# C++ outcomes, integers and substrings

A C++ function that does not return normally does one of three other things (`Stop`): it lets an
exception out, it reaches undefined behaviour, or it runs forever. The integer conversions are
those of a 64-bit target with 32-bit `int` (`toInt`, `toSize`); `substr` is
`std::string::substr`, which throws when it starts past the end of the string.
-/

namespace Onion5

/-- Ways of not returning. -/
inductive Stop
  /-- An exception leaves the function. -/
  | throws
  /-- Undefined behaviour: an overflow of a signed integer or an access outside a buffer. -/
  | undefined
  /-- The function runs forever. -/
  | diverges
  deriving DecidableEq

/-- What a C++ function does: return a value, or stop in one of the other ways. -/
abbrev Run (α : Type) := Except Stop α

@[simp] theorem Run.pure_eq {α : Type} (a : α) : (pure a : Run α) = .ok a := rfl

@[simp] theorem Run.ok_bind {α β : Type} (a : α) (f : α → Run β) :
    ((.ok a : Run α) >>= f) = f a := rfl

/-- A step that returns is followed by the rest. -/
theorem Run.bind_eq_ok {α β : Type} {x : Run α} {f : α → Run β} {r : β} :
    x >>= f = .ok r ↔ ∃ a, x = .ok a ∧ f a = .ok r := by
  cases x with
  | error e => simp [bind, Except.bind]
  | ok a => simp [bind, Except.bind]

/-! ## Integers -/

/-- Conversion to `int`. -/
def toInt (x : ℤ) : ℤ := Int.bmod x (2 ^ 32)

/-- Conversion to `size_t`. -/
def toSize (x : ℤ) : ℕ := (x % 2 ^ 64).toNat

theorem toInt_of_lt {n : ℕ} (h : n < 2 ^ 31) : toInt n = n := by
  unfold toInt
  rw [Int.bmod_eq_of_le] <;> omega

/-- A difference of sizes that does not go below zero. -/
theorem toSize_sub {n k : ℕ} (hk : k ≤ n) (h : n < 2 ^ 64) : toSize ((n : ℤ) - k) = n - k := by
  unfold toSize
  omega

/-! ## Substrings -/

/-- `s.substr(pos, count)`. -/
def substr (s : Bytes) (pos count : ℕ) : Run Bytes :=
  if s.length < pos then .error .throws else .ok ((s.drop pos).take count)

theorem substr_of_le {s : Bytes} {pos : ℕ} (h : pos ≤ s.length) (count : ℕ) :
    substr s pos count = .ok ((s.drop pos).take count) := by
  rw [substr, if_neg (not_lt.2 h)]

end Onion5
