import Onion5.Foundations.Cpp

/-!
# Decimal numbers

Numbers written in ASCII digits, and `std::stoi`, which reads one from the start of a C string.

* `ofDecimal_decimal`: the digits of a number read as the number.
* `stoi_digits`: so does `stoi`, whatever follows that is not a digit.
-/

namespace Onion5

/-- `std::isspace` in the C locale. -/
def isSpace (c : UInt8) : Bool := c = 32 ∨ (9 ≤ c ∧ c ≤ 13)

def isDigit (c : UInt8) : Bool := 48 ≤ c ∧ c ≤ 57

/-- The character of a digit. -/
def digit (d : ℕ) : UInt8 := UInt8.ofNat (48 + d)

/-- The number that digits write. -/
def ofDecimal (s : Bytes) : ℕ := s.foldl (fun n c => n * 10 + (c.toNat - 48)) 0

/-- `std::to_string` of a number. -/
def decimal (n : ℕ) : Bytes :=
  if n < 10 then [digit n] else decimal (n / 10) ++ [digit (n % 10)]

/-- `std::stoi`. -/
def stoi (s : Bytes) : Run ℤ :=
  let s := (cstr s).dropWhile isSpace
  let neg : Bool := s.head? = some 45
  let s := if s.head? = some 45 ∨ s.head? = some 43 then s.tail else s
  let digits := s.takeWhile isDigit
  let value : ℤ := if neg then -ofDecimal digits else ofDecimal digits
  if digits = [] then .error .throws
  else if -2 ^ 31 ≤ value ∧ value < 2 ^ 31 then .ok value
  else .error .throws

/-! ## Digits -/

theorem toNat_digit {d : ℕ} (h : d < 10) : (digit d).toNat = 48 + d := by
  rw [digit, UInt8.toNat_ofNat', Nat.mod_eq_of_lt (by omega)]

theorem isDigit_digit {d : ℕ} (h : d < 10) : isDigit (digit d) := by
  have hd := toNat_digit h
  simp only [isDigit, UInt8.le_iff_toNat_le, hd, decide_eq_true_eq]
  exact ⟨by simp, by simp; omega⟩

/-- A character between two digits is a digit between them. -/
theorem exists_digit {c : UInt8} {lo hi : ℕ} (hhi : hi < 10) (h : digit lo ≤ c ∧ c ≤ digit hi)
    (hlo : lo < 10) : ∃ d, lo ≤ d ∧ d ≤ hi ∧ c = digit d := by
  rw [UInt8.le_iff_toNat_le, UInt8.le_iff_toNat_le, toNat_digit hlo, toNat_digit hhi] at h
  refine ⟨c.toNat - 48, by omega, by omega, UInt8.toNat_inj.1 ?_⟩
  rw [toNat_digit (by omega)]
  omega

theorem digit_le_digit {d e : ℕ} (h : d ≤ e) (he : e < 10) : digit d ≤ digit e := by
  rw [UInt8.le_iff_toNat_le, toNat_digit (by omega), toNat_digit he]
  omega

theorem exists_of_isDigit {c : UInt8} (h : isDigit c) : ∃ d < 10, c = digit d := by
  obtain ⟨d, -, hd, rfl⟩ := exists_digit (by decide)
    (show digit 0 ≤ c ∧ c ≤ digit 9 by simpa [isDigit, digit] using h) (by decide)
  exact ⟨d, by omega, rfl⟩

theorem not_isSpace_of_isDigit {c : UInt8} (h : isDigit c) : ¬ isSpace c := by
  simp only [isDigit, isSpace, decide_eq_true_eq, UInt8.le_iff_toNat_le, ← UInt8.toNat_inj,
    UInt8.reduceToNat] at h ⊢
  omega

/-! ## Numbers -/

theorem decimal_of_lt {n : ℕ} (h : n < 10) : decimal n = [digit n] := by
  rw [decimal, if_pos h]

/-- One more digit. -/
theorem decimal_append {n d : ℕ} (hn : 0 < n) (hd : d < 10) :
    decimal (10 * n + d) = decimal n ++ [digit d] := by
  rw [decimal, if_neg (by omega), show (10 * n + d) / 10 = n by omega,
    show (10 * n + d) % 10 = d by omega]

theorem decimal_ne_nil (n : ℕ) : decimal n ≠ [] := by
  rw [decimal]
  split_ifs
  · exact List.cons_ne_nil _ _
  · simp

theorem isDigit_of_mem_decimal {n : ℕ} {c : UInt8} (h : c ∈ decimal n) : isDigit c := by
  induction n using Nat.strongRecOn with
  | ind n ih =>
    rw [decimal] at h
    split_ifs at h with hn
    · rw [List.mem_singleton.1 h]
      exact isDigit_digit hn
    · rw [List.mem_append, List.mem_singleton] at h
      rcases h with h | rfl
      · exact ih (n / 10) (by omega) h
      · exact isDigit_digit (by omega)

/-- A character that is no digit is not in a number. -/
theorem notMem_decimal {c : UInt8} (h : isDigit c = false) (n : ℕ) : c ∉ decimal n := by
  intro hc
  simpa [h] using isDigit_of_mem_decimal hc

theorem length_decimal_le (n : ℕ) : (decimal n).length ≤ n + 1 := by
  induction n using Nat.strongRecOn with
  | ind n ih =>
    rw [decimal]
    split_ifs with hn
    · simp
    · have := ih (n / 10) (by omega)
      rw [List.length_append, List.length_singleton]
      omega

/-- The numbers of `k + 1` digits. -/
theorem length_decimal_eq {k n : ℕ} (hle : 10 ^ k ≤ n) (hlt : n < 10 ^ (k + 1)) :
    (decimal n).length = k + 1 := by
  induction k generalizing n with
  | zero => rw [decimal_of_lt (by simpa using hlt), List.length_singleton]
  | succ k ih =>
    rw [pow_succ] at hle hlt
    have hpos : 0 < 10 ^ k := Nat.pow_pos (by decide)
    rw [decimal, if_neg (by omega), List.length_append, ih (by omega) (by omega)]
    rfl

/-- **The digits of a number read as the number.** -/
theorem ofDecimal_decimal (n : ℕ) : ofDecimal (decimal n) = n := by
  induction n using Nat.strongRecOn with
  | ind n ih =>
    rw [decimal]
    split_ifs with hn
    · simp [ofDecimal, toNat_digit hn]
    · have hlast : n % 10 < 10 := by omega
      have hread := ih (n / 10) (by omega)
      rw [ofDecimal] at hread ⊢
      rw [List.foldl_append, hread]
      simp only [List.foldl_cons, List.foldl_nil, toNat_digit hlast]
      omega

theorem decimal_injective : Function.Injective decimal :=
  Function.LeftInverse.injective ofDecimal_decimal

/-- **`stoi` reads digits**, up to the first character that is none. -/
theorem stoi_digits {digits : Bytes} (hne : digits ≠ []) (hd : ∀ c ∈ digits, isDigit c)
    (hlt : ofDecimal digits < 2 ^ 31) {c : UInt8} (hc : isDigit c = false) (hc0 : c ≠ 0)
    {s : Bytes} (hs : 0 ∉ s) : stoi (digits ++ c :: s) = .ok (ofDecimal digits : ℤ) := by
  obtain ⟨x, rest, hx⟩ := List.exists_cons_of_ne_nil hne
  have hxd : isDigit x := hd x (hx ▸ List.mem_cons_self)
  have hcstr : cstr (digits ++ c :: s) = digits ++ c :: s := by
    refine cstr_eq_self ?_
    rw [List.mem_append, List.mem_cons]
    rintro (h | h | h)
    · exact absurd (hd 0 h) (by decide)
    · exact hc0 h.symm
    · exact hs h
  have hspace : (digits ++ c :: s).dropWhile isSpace = digits ++ c :: s := by
    rw [hx, List.cons_append, List.dropWhile_cons_of_neg (not_isSpace_of_isDigit hxd)]
  have hhead : (digits ++ c :: s).head? = some x := by rw [hx]; rfl
  have hsign : x ≠ 45 ∧ x ≠ 43 := by
    constructor <;> rintro rfl <;> cases hxd
  have hdigits : (digits ++ c :: s).takeWhile isDigit = digits := by
    rw [List.takeWhile_append_of_pos hd, List.takeWhile_cons_of_neg (by simp [hc]),
      List.append_nil]
  simp only [stoi, hcstr, hspace, hhead, Option.some_inj, hsign.1, hsign.2, or_self, if_false,
    hdigits, hne, decide_false, Bool.false_eq_true]
  rw [if_pos ⟨by omega, by exact_mod_cast hlt⟩]

end Onion5
