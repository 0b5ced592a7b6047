import Onion5.Foundations.Cpp

/-!
# Message markers

The two-byte prefixes and postfixes of `config.h`, and what stands between two of them.
-/

namespace Onion5

def BROADCAST_PREFIX : Bytes := [0xBA, 0xAA]
def BROADCAST_POSTFIX : Bytes := [0xAA, 0xAD]

def LIST_PREFIX : Bytes := [0xD1, 0x5E]
def LIST_POSTFIX : Bytes := [0xAE, 0xEE]

def PING_PREFIX : Bytes := [0xFE, 0xED]
def PING_POSTFIX : Bytes := [0xFA, 0xCE]

def PONG_PREFIX : Bytes := [0xFE, 0xED]
def PONG_POSTFIX : Bytes := [0xF0, 0xDD]

def MESSAGE_PREFIX : Bytes := [0xDE, 0xAD]
def MESSAGE_POSTFIX : Bytes := [0xF0, 0x0D]

/-- `BUFSIZ` of the C library. -/
def BUFSIZ : ℕ := 8192

/-! ## Envelopes -/

/-- What stands between a two-byte prefix and a two-byte postfix. -/
def unwrap (pre post msg : Bytes) : Option Bytes :=
  if msg.take 2 = pre ∧ 4 ≤ msg.length ∧ msg.drop (msg.length - 2) = post then
    some ((msg.drop 2).take (msg.length - 4))
  else none

/-- `msg.substr(size - 2, 2)`, for an `int size`. -/
theorem substr_last_two {msg : Bytes} (hlen : msg.length < 2 ^ 31) (h2 : 2 ≤ msg.length) :
    substr msg (toSize (toInt msg.length - 2)) 2 = .ok (msg.drop (msg.length - 2)) := by
  have hpos : toSize (toInt msg.length - 2) = msg.length - 2 := by
    rw [toInt_of_lt hlen]
    exact toSize_sub h2 (by omega)
  rw [hpos, substr_of_le (by omega), List.take_of_length_le (by rw [List.length_drop]; omega)]

/-- `msg.substr(2, size - 4)`, for an `int size`. -/
theorem substr_between {msg : Bytes} (hlen : msg.length < 2 ^ 31) (h4 : 4 ≤ msg.length) :
    substr msg 2 (toSize (toInt msg.length - 4)) = .ok ((msg.drop 2).take (msg.length - 4)) := by
  have hcount : toSize (toInt msg.length - 4) = msg.length - 4 := by
    rw [toInt_of_lt hlen]
    exact toSize_sub h4 (by omega)
  rw [hcount, substr_of_le (by omega)]

theorem two_le_length {pre msg : Bytes} (hpre : pre.length = 2) (h : msg.take 2 = pre) :
    2 ≤ msg.length := by
  have := congrArg List.length h
  rw [List.length_take] at this
  omega

theorem unwrap_eq_some_iff {pre post msg x : Bytes} (hpre : pre.length = 2)
    (hpost : post.length = 2) : unwrap pre post msg = some x ↔ msg = pre ++ x ++ post := by
  unfold unwrap
  constructor
  · intro h
    split_ifs at h with hc
    cases h
    obtain ⟨h₁, h₂, h₃⟩ := hc
    have hdrop : (msg.drop 2).drop (msg.length - 4) = post := by
      rw [List.drop_drop, ← h₃]
      congr 1
      omega
    rw [← h₁, ← hdrop, List.append_assoc, List.take_append_drop, List.take_append_drop]
  · rintro rfl
    have hlen : (pre ++ x ++ post).length = x.length + 4 := by
      simp only [List.length_append]
      omega
    have htake : (pre ++ x ++ post).take 2 = pre := by
      rw [List.append_assoc, ← hpre, List.take_left]
    have hdrop : (pre ++ x ++ post).drop ((pre ++ x ++ post).length - 2) = post := by
      rw [hlen, show x.length + 4 - 2 = (pre ++ x).length by simp; omega, List.drop_left]
    have hmid : ((pre ++ x ++ post).drop 2).take ((pre ++ x ++ post).length - 4) = x := by
      rw [hlen, List.append_assoc, ← hpre, List.drop_left, Nat.add_sub_cancel, List.take_left]
    rw [if_pos ⟨htake, by omega, hdrop⟩, hmid]

/-- The strings in which a prefix and a postfix overlap. -/
theorem overlap_cases {a b c d : UInt8} {msg : Bytes} (hpre : msg.take 2 = [a, b])
    (hpost : msg.drop (msg.length - 2) = [c, d]) (hlen : msg.length < 4) :
    msg = [a, b] ∧ a = c ∧ b = d ∨ msg = [a, b, d] ∧ b = c := by
  rcases msg with _ | ⟨w, _ | ⟨x, _ | ⟨y, _ | ⟨z, rest⟩⟩⟩⟩
  · cases hpre
  · cases hpre
  · cases hpre
    cases hpost
    exact .inl ⟨rfl, rfl, rfl⟩
  · cases hpre
    cases hpost
    exact .inr ⟨rfl, rfl⟩
  · simp only [List.length_cons] at hlen
    omega

/-- Markers that do not overlap are in a string of at least four bytes. -/
theorem four_le_of_markers {a b c d : UInt8} {msg : Bytes} (hpre : msg.take 2 = [a, b])
    (hpost : msg.drop (msg.length - 2) = [c, d]) (hac : a ≠ c) (hbc : b ≠ c) :
    4 ≤ msg.length := by
  by_contra h
  rcases overlap_cases hpre hpost (not_le.1 h) with ⟨-, hne, -⟩ | ⟨-, hne⟩
  · exact hac hne
  · exact hbc hne

/-- The calls of `substr` take the parts of an envelope. -/
theorem substr_envelope {pre x post msg : Bytes} (hpre : pre.length = 2) (hpost : post.length = 2)
    (hmsg : msg = pre ++ x ++ post) (hlen : msg.length < 2 ^ 31) :
    msg.take 2 = pre ∧ substr msg (toSize (toInt msg.length - 2)) 2 = .ok post ∧
      substr msg 2 (toSize (toInt msg.length - 4)) = .ok x := by
  have hunwrap := (unwrap_eq_some_iff hpre hpost).2 hmsg
  unfold unwrap at hunwrap
  split_ifs at hunwrap with hc
  obtain ⟨htake, h4, hdrop⟩ := hc
  refine ⟨htake, ?_, ?_⟩
  · rw [substr_last_two hlen (by omega), hdrop]
  · rw [substr_between hlen h4, Option.some.inj hunwrap]

end Onion5
