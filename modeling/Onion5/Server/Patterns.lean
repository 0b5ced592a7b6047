import Onion5.Server.RestServer

/-!
# The languages of the patterns

What the two regular expressions of the handler accept.

* `mem_githubIdRegex`: an id is an alphanumeric character and at most 38 more, or hyphens.
* `mem_octetRegex`: an octet is a number below 256 without leading zeros.
* `mem_ipv4AddressRegex`: an address is four octets with any three characters between them that
  end no line, so `isDottedQuad_iff`: it is a dotted quad exactly when it has three dots.
-/

namespace Onion5

open Regex

/-! ## Ids -/

/-- An alphanumeric character, and at most 38 more that are alphanumeric or hyphens. -/
theorem mem_githubIdRegex {w : Bytes} : w ∈ lang githubIdRegex ↔
    ∃ c s, w = c :: s ∧ isAlnum c ∧ s.length ≤ 38 ∧ ∀ x ∈ s, isAlnum x ∨ x = 45 := by
  rw [githubIdRegex, mem_seq]
  constructor
  · rintro ⟨_, ⟨c, hc, rfl⟩, s, ⟨k, hk, hs⟩, rfl⟩
    obtain ⟨hlen, hall⟩ := mem_pow_cls.1 hs
    exact ⟨c, s, rfl, hc, by omega, fun x hx => by simpa using hall x hx⟩
  · rintro ⟨c, s, rfl, hc, hlen, hall⟩
    exact ⟨[c], ⟨c, hc, rfl⟩, s, ⟨s.length, hlen, mem_pow_cls.2 ⟨by omega, fun x hx => by
      simpa using hall x hx⟩⟩, rfl⟩

/-- The characters that no id has. -/
theorem notMem_of_githubId {w : Bytes} (h : githubIdRegex.fullMatch w) {x : UInt8}
    (hx : isAlnum x = false) (hx' : x ≠ 45) : x ∉ w := by
  obtain ⟨c, s, rfl, hc, -, hall⟩ := mem_githubIdRegex.1 (fullMatch_iff.1 h)
  rw [List.mem_cons, not_or]
  refine ⟨?_, fun hmem => ?_⟩
  · rintro rfl
    simp [hx] at hc
  · simpa [hx, hx'] using hall x hmem

theorem isAlnum_of_isDigit {c : UInt8} (h : isDigit c) : isAlnum c := by
  simp only [isDigit, decide_eq_true_eq] at h
  simp only [isAlnum, decide_eq_true_eq]
  exact .inl h

/-- A number of at most 39 digits is an id. -/
theorem githubId_decimal {n : ℕ} (h : (decimal n).length ≤ 39) :
    githubIdRegex.fullMatch (decimal n) := by
  rw [fullMatch_iff, mem_githubIdRegex]
  obtain ⟨c, s, hcs⟩ := List.exists_cons_of_ne_nil (decimal_ne_nil n)
  rw [hcs, List.length_cons] at h
  refine ⟨c, s, hcs, ?_, by omega, fun x hx => .inl ?_⟩
  · exact isAlnum_of_isDigit (isDigit_of_mem_decimal (hcs ▸ List.mem_cons_self))
  · exact isAlnum_of_isDigit (isDigit_of_mem_decimal (hcs ▸ List.mem_cons_of_mem _ hx))

/-! ## Octets -/

section Octets

variable {p : UInt8 → Bool} {lo hi : ℕ} {w : Bytes}

/-- The characters of a class are the digits from `lo` to `hi`. -/
def IsRange (p : UInt8 → Bool) (lo hi : ℕ) : Prop :=
  lo ≤ hi ∧ hi < 10 ∧ ∀ c, p c = true ↔ digit lo ≤ c ∧ c ≤ digit hi

theorem IsRange.mem_cls (h : IsRange p lo hi) :
    w ∈ lang (.cls p) ↔ ∃ d, lo ≤ d ∧ d ≤ hi ∧ w = [digit d] := by
  obtain ⟨hle, hhi, hp⟩ := h
  constructor
  · rintro ⟨c, hc, rfl⟩
    obtain ⟨d, hd, hd', rfl⟩ := exists_digit hhi ((hp c).1 hc) (by omega)
    exact ⟨d, hd, hd', rfl⟩
  · rintro ⟨d, hd, hd', rfl⟩
    exact ⟨digit d, (hp _).2 ⟨digit_le_digit hd (by omega), digit_le_digit hd' hhi⟩, rfl⟩

theorem IsRange.mem_seq (h : IsRange p lo hi) {e : Regex UInt8} :
    w ∈ lang (.seq (.cls p) e) ↔ ∃ d, lo ≤ d ∧ d ≤ hi ∧ ∃ s ∈ lang e, w = digit d :: s := by
  rw [Regex.mem_seq]
  constructor
  · rintro ⟨a, ha, s, hs, rfl⟩
    obtain ⟨d, hd, hd', rfl⟩ := h.mem_cls.1 ha
    exact ⟨d, hd, hd', s, hs, rfl⟩
  · rintro ⟨d, hd, hd', s, hs, rfl⟩
    exact ⟨[digit d], h.mem_cls.2 ⟨d, hd, hd', rfl⟩, s, hs, rfl⟩

theorem isRange_isDigit : IsRange isDigit 0 9 :=
  ⟨by decide, by decide, fun c => by simp [isDigit, digit]⟩

/-- Numbers of two digits. -/
theorem decimal_two {a b : ℕ} (ha : 0 < a) (ha' : a < 10) (hb : b < 10) :
    decimal (10 * a + b) = [digit a, digit b] := by
  rw [decimal_append ha hb, decimal_of_lt ha']
  rfl

/-- Numbers of three digits. -/
theorem decimal_three {a b c : ℕ} (ha : 0 < a) (ha' : a < 10) (hb : b < 10) (hc : c < 10) :
    decimal (10 * (10 * a + b) + c) = [digit a, digit b, digit c] := by
  rw [decimal_append (by omega) hc, decimal_two ha ha' hb]
  rfl

theorem mem_two_digits : w ∈ lang (.rep (.cls isDigit) 2 0) ↔
    ∃ b < 10, ∃ c < 10, w = [digit b, digit c] := by
  rw [mem_rep]
  constructor
  · rintro ⟨k, hk, hw⟩
    obtain rfl : k = 0 := by omega
    obtain ⟨hlen, hall⟩ := mem_pow_cls.1 hw
    match w, hlen with
    | [x, y], _ =>
      obtain ⟨b, hb, rfl⟩ := exists_of_isDigit (hall x (by simp))
      obtain ⟨c, hc, rfl⟩ := exists_of_isDigit (hall y (by simp))
      exact ⟨b, hb, c, hc, rfl⟩
  · rintro ⟨b, hb, c, hc, rfl⟩
    refine ⟨0, le_rfl, mem_pow_cls.2 ⟨rfl, ?_⟩⟩
    simp [isDigit_digit hb, isDigit_digit hc]

theorem isRange_singleton {d : ℕ} (h : d < 10) : IsRange (· = digit d) d d :=
  ⟨le_rfl, h, fun c => by
    rw [decide_eq_true_iff, UInt8.le_antisymm_iff, and_comm]⟩

/-- `[1-9][0-9]` -/
theorem mem_tens (h : IsRange p 1 9) : w ∈ lang (.seq (.cls p) (.cls isDigit)) ↔
    ∃ n, 10 ≤ n ∧ n < 100 ∧ w = decimal n := by
  simp only [h.mem_seq, isRange_isDigit.mem_cls]
  constructor
  · rintro ⟨a, ha, ha', _, ⟨b, -, hb, rfl⟩, rfl⟩
    exact ⟨10 * a + b, by omega, by omega, (decimal_two ha (by omega) (by omega)).symm⟩
  · rintro ⟨n, hn, hn', rfl⟩
    refine ⟨n / 10, by omega, by omega, _, ⟨n % 10, by omega, by omega, rfl⟩, ?_⟩
    rw [← decimal_two (by omega) (by omega) (by omega), Nat.div_add_mod]

/-- `1[0-9]{2}` -/
theorem mem_hundreds (h : IsRange p 1 1) :
    w ∈ lang (.seq (.cls p) (.rep (.cls isDigit) 2 0)) ↔
      ∃ n, 100 ≤ n ∧ n < 200 ∧ w = decimal n := by
  simp only [h.mem_seq, mem_two_digits]
  constructor
  · rintro ⟨a, ha, ha', _, ⟨b, hb, c, hc, rfl⟩, rfl⟩
    exact ⟨10 * (10 * a + b) + c, by omega, by omega,
      (decimal_three ha (by omega) hb hc).symm⟩
  · rintro ⟨n, hn, hn', rfl⟩
    refine ⟨n / 10 / 10, by omega, by omega, _, ⟨n / 10 % 10, by omega, n % 10, by omega, rfl⟩, ?_⟩
    rw [← decimal_three (by omega) (by omega) (by omega) (by omega), Nat.div_add_mod,
      Nat.div_add_mod]

/-- `2[0-4][0-9]` and `25[0-5]` -/
theorem mem_two_hundreds {q r : UInt8 → Bool} {lo' hi' : ℕ} (h : IsRange r 2 2)
    (hp : IsRange p lo hi) (hq : IsRange q lo' hi') :
    w ∈ lang (.seq (.cls r) (.seq (.cls p) (.cls q))) ↔
      ∃ b c, lo ≤ b ∧ b ≤ hi ∧ lo' ≤ c ∧ c ≤ hi' ∧ w = decimal (200 + 10 * b + c) := by
  have hb := hp.2.1
  have hc := hq.2.1
  simp only [h.mem_seq, hp.mem_seq, hq.mem_cls]
  constructor
  · rintro ⟨a, ha, ha', _, ⟨b, hb, hb', _, ⟨c, hc, hc', rfl⟩, rfl⟩, rfl⟩
    obtain rfl : a = 2 := by omega
    refine ⟨b, c, hb, hb', hc, hc', ?_⟩
    rw [← decimal_three (by decide) (by decide) (by omega) (by omega)]
    congr 1
    omega
  · rintro ⟨b, c, hb, hb', hc, hc', rfl⟩
    refine ⟨2, le_rfl, le_rfl, _, ⟨b, hb, hb', _, ⟨c, hc, hc', rfl⟩, rfl⟩, ?_⟩
    rw [← decimal_three (by decide) (by decide) (by omega) (by omega)]
    congr 1
    omega

/-- **An octet is a number below 256**, written without leading zeros. -/
theorem mem_octetRegex : w ∈ lang octetRegex ↔ ∃ n < 256, w = decimal n := by
  have h19 : IsRange (fun c => 49 ≤ c ∧ c ≤ 57) 1 9 :=
    ⟨by decide, by decide, fun c => by simp [digit]⟩
  have h04 : IsRange (fun c => 48 ≤ c ∧ c ≤ 52) 0 4 :=
    ⟨by decide, by decide, fun c => by simp [digit]⟩
  have h05 : IsRange (fun c => 48 ≤ c ∧ c ≤ 53) 0 5 :=
    ⟨by decide, by decide, fun c => by simp [digit]⟩
  have h1 : IsRange (· = 49) 1 1 := isRange_singleton (by decide)
  have h2 : IsRange (· = 50) 2 2 := isRange_singleton (by decide)
  have h5 : IsRange (· = 53) 5 5 := isRange_singleton (by decide)
  simp only [octetRegex, mem_alt, isRange_isDigit.mem_cls, mem_tens h19, mem_hundreds h1,
    mem_two_hundreds h2 h04 isRange_isDigit, mem_two_hundreds h2 h5 h05]
  constructor
  · rintro (⟨d, -, hd, rfl⟩ | ⟨n, -, hn, rfl⟩ | ⟨n, -, hn, rfl⟩ | ⟨b, c, -, hb, -, hc, rfl⟩ |
      ⟨b, c, hb, hb', -, hc, rfl⟩)
    · exact ⟨d, by omega, (decimal_of_lt (by omega)).symm⟩
    all_goals exact ⟨_, by omega, rfl⟩
  · rintro ⟨n, hn, rfl⟩
    by_cases h1 : n < 10
    · exact .inl ⟨n, by omega, by omega, decimal_of_lt h1⟩
    by_cases h2 : n < 100
    · exact .inr (.inl ⟨n, by omega, h2, rfl⟩)
    by_cases h3 : n < 200
    · exact .inr (.inr (.inl ⟨n, by omega, h3, rfl⟩))
    by_cases h4 : n < 250
    · refine .inr (.inr (.inr (.inl ⟨n / 10 % 10, n % 10, by omega, by omega, by omega, by omega,
        ?_⟩)))
      congr 1
      omega
    · refine .inr (.inr (.inr (.inr ⟨5, n % 10, by omega, by omega, by omega, by omega, ?_⟩)))
      congr 1
      omega

end Octets

/-! ## Addresses -/

/-- Four octets separated by dots. -/
def IsDottedQuad (w : Bytes) : Prop :=
  ∃ a < 256, ∃ b < 256, ∃ c < 256, ∃ d < 256,
    w = decimal a ++ 46 :: (decimal b ++ 46 :: (decimal c ++ 46 :: decimal d))

/-- A character that ends no line. -/
def NotNewline (c : UInt8) : Prop := c ≠ 10 ∧ c ≠ 13

theorem mem_octet_any {w : Bytes} : w ∈ lang (.seq octetRegex anyClass) ↔
    ∃ n < 256, ∃ x, NotNewline x ∧ w = decimal n ++ [x] := by
  rw [mem_seq]
  constructor
  · rintro ⟨a, ha, _, ⟨x, hx, rfl⟩, rfl⟩
    obtain ⟨n, hn, rfl⟩ := mem_octetRegex.1 ha
    exact ⟨n, hn, x, by simpa [NotNewline] using hx, rfl⟩
  · rintro ⟨n, hn, x, hx, rfl⟩
    exact ⟨_, mem_octetRegex.2 ⟨n, hn, rfl⟩, _, ⟨x, by simpa [NotNewline] using hx, rfl⟩, rfl⟩

/-- **An address is four octets with any characters between them.** -/
theorem mem_ipv4AddressRegex {w : Bytes} : w ∈ lang ipv4AddressRegex ↔
    ∃ a < 256, ∃ b < 256, ∃ c < 256, ∃ d < 256, ∃ x y z, NotNewline x ∧ NotNewline y ∧
      NotNewline z ∧ w = decimal a ++ x :: (decimal b ++ y :: (decimal c ++ z :: decimal d)) := by
  rw [ipv4AddressRegex, mem_seq]
  constructor
  · rintro ⟨_, ⟨k, hk, hw⟩, _, ht, rfl⟩
    obtain rfl : k = 0 := by omega
    obtain ⟨d, hd, rfl⟩ := mem_octetRegex.1 ht
    rw [add_zero, pow_succ', pow_succ', pow_one] at hw
    obtain ⟨_, hu, _, ⟨_, hv, _, hw, rfl⟩, rfl⟩ := hw
    obtain ⟨a, ha, x, hx, rfl⟩ := mem_octet_any.1 hu
    obtain ⟨b, hb, y, hy, rfl⟩ := mem_octet_any.1 hv
    obtain ⟨c, hc, z, hz, rfl⟩ := mem_octet_any.1 hw
    exact ⟨a, ha, b, hb, c, hc, d, hd, x, y, z, hx, hy, hz, by simp⟩
  · rintro ⟨a, ha, b, hb, c, hc, d, hd, x, y, z, hx, hy, hz, rfl⟩
    refine ⟨decimal a ++ [x] ++ (decimal b ++ [y] ++ (decimal c ++ [z])), ⟨0, le_rfl, ?_⟩, _,
      mem_octetRegex.2 ⟨d, hd, rfl⟩, ?_⟩
    · rw [add_zero, pow_succ', pow_succ', pow_one]
      exact ⟨_, mem_octet_any.2 ⟨a, ha, x, hx, rfl⟩, _, ⟨_, mem_octet_any.2 ⟨b, hb, y, hy, rfl⟩, _,
        mem_octet_any.2 ⟨c, hc, z, hz, rfl⟩, rfl⟩, rfl⟩
    · simp

theorem count_dot_decimal (n : ℕ) : (decimal n).count 46 = 0 :=
  List.count_eq_zero.2 (notMem_decimal rfl n)

/-- **An accepted address is a dotted quad exactly when it has three dots.** -/
theorem isDottedQuad_iff {w : Bytes} (h : ipv4AddressRegex.fullMatch w) :
    IsDottedQuad w ↔ w.count 46 = 3 := by
  constructor
  · rintro ⟨a, -, b, -, c, -, d, -, rfl⟩
    simp [count_dot_decimal]
  · obtain ⟨a, ha, b, hb, c, hc, d, hd, x, y, z, -, -, -, rfl⟩ :=
      mem_ipv4AddressRegex.1 (fullMatch_iff.1 h)
    intro hcount
    simp only [List.count_append, List.count_cons, count_dot_decimal, beq_iff_eq] at hcount
    have hx : x = 46 ∧ y = 46 ∧ z = 46 := by
      split_ifs at hcount <;> simp_all
    obtain ⟨rfl, rfl, rfl⟩ := hx
    exact ⟨a, ha, b, hb, c, hc, d, hd, rfl⟩

end Onion5
