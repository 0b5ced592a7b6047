import Mathlib.Data.List.Basic
import Mathlib.Data.List.TakeWhile
import Mathlib.Data.List.Induction
import Mathlib.Algebra.Order.Ring.Nat
import Mathlib.Tactic.Ring

/-!
# Byte strings

Byte strings as lists of `UInt8`, with the three readings a C++ program gives them:

* `cstr`, the C string that starts a byte string (everything before its first NUL byte);
* `ofBE` and `be`, a byte string as a big-endian number and back (`ofBE_be`, `be_ofBE`);
* `overlay`, a buffer after a read that stored only the bytes that were there.
-/

namespace Onion5

/-- Byte strings: the contents of files, frames and `std::string`s. -/
abbrev Bytes := List UInt8

/-- The bytes of an ASCII string literal. -/
def ascii (s : String) : Bytes := s.toList.map fun c => UInt8.ofNat c.toNat

/-- `std::isalnum` in the C locale. -/
def isAlnum (c : UInt8) : Bool := (48 ≤ c ∧ c ≤ 57) ∨ (65 ≤ c ∧ c ≤ 90) ∨ (97 ≤ c ∧ c ≤ 122)

/-! ## Up to a byte -/

section Until

variable {c : UInt8} {a : Bytes}

theorem takeWhile_ne_self (h : c ∉ a) : a.takeWhile (· ≠ c) = a :=
  List.takeWhile_eq_self_iff.2 fun x hx => by simpa using fun hc : x = c => h (hc ▸ hx)

theorem dropWhile_ne_self (h : c ∉ a) : a.dropWhile (· ≠ c) = [] :=
  List.dropWhile_eq_nil_iff.2 fun x hx => by simpa using fun hc : x = c => h (hc ▸ hx)

theorem takeWhile_ne_append (h : c ∉ a) (b : Bytes) : (a ++ c :: b).takeWhile (· ≠ c) = a := by
  rw [List.takeWhile_append_of_pos fun x hx => by simpa using fun hc : x = c => h (hc ▸ hx)]
  simp

theorem dropWhile_ne_append (h : c ∉ a) (b : Bytes) : (a ++ c :: b).dropWhile (· ≠ c) = c :: b := by
  rw [List.dropWhile_append_of_pos fun x hx => by simpa using fun hc : x = c => h (hc ▸ hx)]
  simp

/-- A byte that occurs splits the string at its first occurrence. -/
theorem exists_takeWhile_ne (h : c ∈ a) : ∃ b, a = a.takeWhile (· ≠ c) ++ c :: b := by
  have hne : a.dropWhile (· ≠ c) ≠ [] := by
    rw [Ne, List.dropWhile_eq_nil_iff]
    exact fun hall => by simpa using hall c h
  have hhead : (a.dropWhile (· ≠ c)).head hne = c := by
    simpa using List.head_dropWhile_not (· ≠ c) hne
  refine ⟨(a.dropWhile (· ≠ c)).tail, ?_⟩
  conv_lhs => rw [← List.takeWhile_append_dropWhile (p := (· ≠ c)) (l := a)]
  rw [← List.cons_head_tail hne, hhead]
  rfl

theorem notMem_takeWhile_ne (c : UInt8) (a : Bytes) : c ∉ a.takeWhile (· ≠ c) := by
  intro h
  simpa using List.mem_takeWhile_imp h

end Until

/-! ## C strings -/

/-- The C string at the start of `b`: what a callee given `b.c_str()` sees. -/
def cstr (b : Bytes) : Bytes := b.takeWhile (· ≠ 0)

theorem zero_notMem_cstr (b : Bytes) : 0 ∉ cstr b := notMem_takeWhile_ne 0 b

/-- A string without NUL bytes is its own C string. -/
theorem cstr_eq_self {b : Bytes} (h : 0 ∉ b) : cstr b = b := takeWhile_ne_self h

@[simp] theorem cstr_nil : cstr [] = [] := rfl

/-- The C string of a NUL-free string followed by `b` reaches into `b`. -/
theorem cstr_append {a : Bytes} (h : 0 ∉ a) (b : Bytes) : cstr (a ++ b) = a ++ cstr b := by
  rw [cstr, List.takeWhile_append_of_pos]
  · rfl
  · intro x hx
    simpa using fun hx0 : x = 0 => h (hx0 ▸ hx)

/-- A NUL byte ends the C string. -/
theorem cstr_append_zero {a : Bytes} (h : 0 ∉ a) (b : Bytes) : cstr (a ++ 0 :: b) = a :=
  takeWhile_ne_append h b

theorem length_cstr_le (b : Bytes) : (cstr b).length ≤ b.length :=
  (List.takeWhile_sublist _).length_le

/-! ## Big-endian numbers -/

/-- The number whose big-endian bytes are `b`. -/
def ofBE (b : Bytes) : ℕ := b.foldl (fun n x => n * 256 + x.toNat) 0

/-- The last `k` big-endian bytes of `n`. -/
def be : ℕ → ℕ → Bytes
  | 0, _ => []
  | k + 1, n => be k (n / 256) ++ [UInt8.ofNat n]

@[simp] theorem length_be (k n : ℕ) : (be k n).length = k := by
  induction k generalizing n with
  | zero => rfl
  | succ k ih => simp [be, ih]

theorem be_add (j k n : ℕ) : be (j + k) n = be j (n / 256 ^ k) ++ be k n := by
  induction k generalizing n with
  | zero => simp [be]
  | succ k ih =>
    rw [← Nat.add_assoc, be, ih, be, ← List.append_assoc, Nat.div_div_eq_div_mul, pow_succ']

@[simp] theorem ofBE_nil : ofBE [] = 0 := rfl

@[simp] theorem ofBE_concat (b : Bytes) (x : UInt8) : ofBE (b ++ [x]) = ofBE b * 256 + x.toNat := by
  simp [ofBE]

theorem ofBE_append (a b : Bytes) : ofBE (a ++ b) = ofBE a * 256 ^ b.length + ofBE b := by
  induction b using List.reverseRec with
  | nil => simp
  | append_singleton b x ih =>
    rw [← List.append_assoc, ofBE_concat, ofBE_concat, ih, List.length_append,
      List.length_singleton, pow_succ]
    ring

theorem ofBE_replicate (k : ℕ) : ofBE (List.replicate k 0) = 0 := by
  induction k with
  | zero => rfl
  | succ k ih => rw [List.replicate_succ', ofBE_concat, ih]; rfl

/-- Writing a number in `k` bytes and reading it back reduces it modulo `256 ^ k`. -/
theorem ofBE_be (k n : ℕ) : ofBE (be k n) = n % 256 ^ k := by
  induction k generalizing n with
  | zero => simp [be, Nat.mod_one]
  | succ k ih =>
    have hx : (UInt8.ofNat n).toNat = n % 256 := UInt8.toNat_ofNat'
    have hn : n % 256 ^ (k + 1) = n % 256 + 256 * (n / 256 % 256 ^ k) := by
      rw [pow_succ', Nat.mod_mul]
    rw [be, ofBE_concat, ih, hx, hn]
    omega

theorem ofBE_be_of_lt {k n : ℕ} (h : n < 256 ^ k) : ofBE (be k n) = n := by
  rw [ofBE_be, Nat.mod_eq_of_lt h]

theorem ofBE_lt (b : Bytes) : ofBE b < 256 ^ b.length := by
  induction b using List.reverseRec with
  | nil => exact Nat.one_pos
  | append_singleton b x ih =>
    have hx : x.toNat < 256 := x.toNat_lt
    rw [ofBE_concat, List.length_append, List.length_singleton, pow_succ]
    omega

/-- Every byte string is the bytes of a number. -/
theorem be_ofBE (b : Bytes) : be b.length (ofBE b) = b := by
  induction b using List.reverseRec with
  | nil => rfl
  | append_singleton b x ih =>
    have hx : x.toNat < 256 := x.toNat_lt
    have hdiv : (ofBE b * 256 + x.toNat) / 256 = ofBE b := by omega
    have hlast : UInt8.ofNat (ofBE b * 256 + x.toNat) = x := by
      rw [← UInt8.toNat_inj, UInt8.toNat_ofNat']
      omega
    rw [List.length_append, List.length_singleton, ofBE_concat, be, hdiv, hlast, ih]

theorem be_ofBE_of_length {b : Bytes} {k : ℕ} (h : b.length = k) : be k (ofBE b) = b :=
  h ▸ be_ofBE b

/-! ## Buffers -/

/-- The buffer `dst` after `got` has been stored at its start. -/
def overlay (got dst : Bytes) : Bytes := got ++ dst.drop got.length

theorem length_overlay {got dst : Bytes} (h : got.length ≤ dst.length) :
    (overlay got dst).length = dst.length := by
  simp only [overlay, List.length_append, List.length_drop]
  omega

/-- A read as long as the buffer replaces it. -/
theorem overlay_of_length {got dst : Bytes} (h : dst.length ≤ got.length) :
    overlay got dst = got := by
  rw [overlay, List.drop_eq_nil_of_le h, List.append_nil]

@[simp] theorem take_overlay (got dst : Bytes) : (overlay got dst).take got.length = got := by
  simp [overlay]

end Onion5
