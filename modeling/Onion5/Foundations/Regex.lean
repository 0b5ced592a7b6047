import Mathlib.Computability.Language

/-!
# Bounded regular expressions

Regular expressions over character classes with bounded repetition. `lang` is the language of an
expression, in Mathlib's terms; `rests` is a matcher that returns what can be left of a string
after a match at its start, and `fullMatch` says whether the whole string can match.

* `finds_rests`, `fullMatch_iff`: the matcher decides the language.
* `mem_pow_cls`: a class repeated.
-/

namespace Onion5

open Computability

/-- Regular expressions: one character of a class, and the bounded operations. -/
inductive Regex (α : Type)
  | cls (p : α → Bool)
  | seq (e f : Regex α)
  | alt (e f : Regex α)
  /-- at least `min` and at most `min + more` times -/
  | rep (e : Regex α) (min more : ℕ)

namespace Regex

variable {α : Type}

/-- The language of an expression. -/
def lang : Regex α → Language α
  | cls p => {w | ∃ c, p c ∧ w = [c]}
  | seq e f => lang e * lang f
  | alt e f => lang e + lang f
  | rep e min more => {w | ∃ k ≤ more, w ∈ lang e ^ (min + k)}

/-! ## The matcher -/

/-- Exactly `n` matches. -/
def times (f : List α → List (List α)) : ℕ → List α → List (List α)
  | 0, s => [s]
  | n + 1, s => (f s).flatMap (times f n)

/-- At most `n` matches. -/
def upTo (f : List α → List (List α)) : ℕ → List α → List (List α)
  | 0, s => [s]
  | n + 1, s => s :: (f s).flatMap (upTo f n)

/-- What can be left of a string after a match at its start. -/
def rests : Regex α → List α → List (List α)
  | cls _, [] => []
  | cls p, c :: s => if p c then [s] else []
  | seq e f, s => (rests e s).flatMap (rests f)
  | alt e f, s => rests e s ++ rests f s
  | rep e min more, s => (times (rests e) min s).flatMap (upTo (rests e) more)

/-- `std::regex_match`: the whole string matches. -/
def fullMatch [DecidableEq α] (e : Regex α) (s : List α) : Bool := [] ∈ rests e s

/-- At most `n` words of a language. -/
def atMost (l : Language α) (n : ℕ) : Language α := {w | ∃ k ≤ n, w ∈ l ^ k}

/-- `f` finds the matches of `l`. -/
def Finds (f : List α → List (List α)) (l : Language α) : Prop :=
  ∀ s r, r ∈ f s ↔ ∃ w ∈ l, w ++ r = s

section Finds

variable {f g : List α → List (List α)} {l m : Language α}

theorem finds_one : Finds (fun s : List α => [s]) 1 := by
  intro s r
  simp [Language.mem_one, eq_comm]

theorem Finds.mul (hf : Finds f l) (hg : Finds g m) : Finds (fun s => (f s).flatMap g) (l * m) := by
  intro s r
  simp only [List.mem_flatMap, Language.mem_mul]
  constructor
  · rintro ⟨t, ht, hr⟩
    obtain ⟨w, hw, rfl⟩ := (hf _ _).1 ht
    obtain ⟨v, hv, rfl⟩ := (hg _ _).1 hr
    exact ⟨w ++ v, ⟨w, hw, v, hv, rfl⟩, List.append_assoc _ _ _⟩
  · rintro ⟨_, ⟨w, hw, v, hv, rfl⟩, rfl⟩
    exact ⟨v ++ r, (hf _ _).2 ⟨w, hw, (List.append_assoc _ _ _).symm⟩, (hg _ _).2 ⟨v, hv, rfl⟩⟩

theorem Finds.add (hf : Finds f l) (hg : Finds g m) : Finds (fun s => f s ++ g s) (l + m) := by
  intro s r
  simp only [List.mem_append, hf s r, hg s r, Language.mem_add, or_and_right, exists_or]

theorem Finds.times (hf : Finds f l) (n : ℕ) : Finds (times f n) (l ^ n) := by
  induction n with
  | zero => exact finds_one
  | succ n ih =>
    rw [pow_succ']
    exact hf.mul ih

theorem Finds.upTo (hf : Finds f l) (n : ℕ) :
    Finds (upTo f n) (atMost l n) := by
  induction n with
  | zero =>
    intro s r
    constructor
    · intro h
      exact ⟨[], ⟨0, le_rfl, rfl⟩, List.mem_singleton.1 h⟩
    · rintro ⟨w, ⟨k, hk, hw⟩, rfl⟩
      rw [Nat.le_zero.1 hk, pow_zero, Language.mem_one] at hw
      simp [Regex.upTo, hw]
  | succ n ih =>
    intro s r
    have hmul := hf.mul ih s r
    rw [Regex.upTo, List.mem_cons, hmul]
    constructor
    · rintro (rfl | ⟨w, hw, rfl⟩)
      · exact ⟨[], ⟨0, Nat.zero_le _, rfl⟩, rfl⟩
      · obtain ⟨a, ha, b, ⟨k, hk, hb⟩, rfl⟩ := hw
        exact ⟨a ++ b, ⟨k + 1, by omega, pow_succ' l k ▸ ⟨a, ha, b, hb, rfl⟩⟩, rfl⟩
    · rintro ⟨w, ⟨k, hk, hw⟩, rfl⟩
      cases k with
      | zero =>
        left
        rw [pow_zero, Language.mem_one] at hw
        rw [hw, List.nil_append]
      | succ k =>
        right
        rw [pow_succ'] at hw
        obtain ⟨a, ha, b, hb, rfl⟩ := hw
        exact ⟨a ++ b, ⟨a, ha, b, ⟨k, by omega, hb⟩, rfl⟩, rfl⟩

end Finds

/-- **The matcher finds the matches of the language.** -/
theorem finds_rests (e : Regex α) : Finds (rests e) (lang e) := by
  induction e with
  | cls p =>
    intro s r
    cases s with
    | nil =>
      simp only [rests, List.not_mem_nil, false_iff, not_exists, not_and]
      rintro w ⟨c, -, rfl⟩
      simp
    | cons c s =>
      constructor
      · intro h
        rw [rests] at h
        split_ifs at h with hp
        · exact ⟨[c], ⟨c, hp, rfl⟩, by rw [List.mem_singleton.1 h]; rfl⟩
        · cases h
      · rintro ⟨w, ⟨x, hx, rfl⟩, h⟩
        cases h
        simp [rests, hx]
  | seq e f ihe ihf => exact ihe.mul ihf
  | alt e f ihe ihf => exact ihe.add ihf
  | rep e min more ih =>
    have hmul := (ih.times min).mul (ih.upTo more)
    intro s r
    rw [rests, hmul s r]
    have hlang : lang e ^ min * atMost (lang e) more = lang (rep e min more) := by
      ext w
      constructor
      · rintro ⟨a, ha, b, ⟨k, hk, hb⟩, rfl⟩
        exact ⟨k, hk, pow_add (lang e) min k ▸ ⟨a, ha, b, hb, rfl⟩⟩
      · rintro ⟨k, hk, hw⟩
        rw [pow_add] at hw
        obtain ⟨a, ha, b, hb, rfl⟩ := hw
        exact ⟨a, ha, b, ⟨k, hk, hb⟩, rfl⟩
    rw [hlang]

/-- **The matcher decides the language.** -/
theorem fullMatch_iff [DecidableEq α] {e : Regex α} {s : List α} : e.fullMatch s ↔ s ∈ lang e := by
  rw [fullMatch, decide_eq_true_iff, finds_rests e s []]
  simp

/-! ## Membership -/

theorem mem_seq {e f : Regex α} {s : List α} :
    s ∈ lang (seq e f) ↔ ∃ a ∈ lang e, ∃ b ∈ lang f, a ++ b = s := Language.mem_mul

theorem mem_alt {e f : Regex α} {s : List α} : s ∈ lang (alt e f) ↔ s ∈ lang e ∨ s ∈ lang f :=
  Language.mem_add _ _ _

theorem mem_rep {e : Regex α} {min more : ℕ} {s : List α} :
    s ∈ lang (rep e min more) ↔ ∃ k ≤ more, s ∈ lang e ^ (min + k) := Iff.rfl

/-- A class repeated. -/
theorem mem_pow_cls {p : α → Bool} {n : ℕ} {s : List α} :
    s ∈ lang (cls p) ^ n ↔ s.length = n ∧ ∀ c ∈ s, p c := by
  induction n generalizing s with
  | zero =>
    rw [pow_zero, Language.mem_one, List.length_eq_zero_iff]
    constructor
    · rintro rfl
      simp
    · exact And.left
  | succ n ih =>
    rw [pow_succ', Language.mem_mul]
    constructor
    · rintro ⟨a, ⟨c, hc, rfl⟩, b, hb, rfl⟩
      obtain ⟨hlen, hall⟩ := ih.1 hb
      simp [hlen, hc]
      exact hall
    · rintro ⟨hlen, hall⟩
      cases s with
      | nil => cases hlen
      | cons c s =>
        exact ⟨[c], ⟨c, hall c List.mem_cons_self, rfl⟩, s,
          ih.2 ⟨Nat.succ.inj hlen, fun x hx => hall x (List.mem_cons_of_mem _ hx)⟩, rfl⟩

end Regex

end Onion5
