import Onion5.Foundations.Bytes
import Onion5.Foundations.Cpp
import Onion5.Foundations.Traced

/-!
# Splitting strings

The model of `string_split` of `rest_server.cc`.

* `stringSplit_eq`: `string_split` is splitting at a character.
* `stringSplit_exact`: the pieces that it appends are those between the delimiters, and it calls
  `find` and `substr` within range, also on the empty string and at its ends.
-/

namespace Onion5

/-! ## Splitting strings -/

/-- `s.find(c, pos)`. -/
def find (s : Bytes) (c : UInt8) (pos : ℕ) : Option ℕ :=
  let before := (s.drop pos).takeWhile (· ≠ c)
  if before.length = (s.drop pos).length then none else some (pos + before.length)

/-- What is before and after the character found. -/
theorem drop_eq_of_find {s : Bytes} {c : UInt8} {pos current : ℕ}
    (h : find s c pos = some current) :
    ∃ before, c ∉ before ∧ current = pos + before.length ∧
      s.drop pos = before ++ c :: s.drop (current + 1) := by
  simp only [find] at h
  split_ifs at h with hlen
  cases h
  have hc : c ∈ s.drop pos := by
    by_contra hc
    exact hlen (congrArg List.length (takeWhile_ne_self hc))
  obtain ⟨after, hafter⟩ := exists_takeWhile_ne hc
  refine ⟨_, notMem_takeWhile_ne c _, rfl, ?_⟩
  generalize (s.drop pos).takeWhile (· ≠ c) = before at hafter
  have hdrop : s.drop (pos + before.length + 1) = after := by
    rw [add_assoc, ← List.drop_drop, hafter, ← List.drop_drop, List.drop_left]
    rfl
  rw [hdrop, hafter]

theorem notMem_of_find {s : Bytes} {c : UInt8} {pos : ℕ} (h : find s c pos = none) :
    c ∉ s.drop pos := by
  simp only [find] at h
  split_ifs at h with hlen
  have hpre : (s.drop pos).takeWhile (· ≠ c) <+: s.drop pos := List.takeWhile_prefix _
  have hself := hpre.eq_of_length hlen
  exact hself ▸ notMem_takeWhile_ne c (s.drop pos)

/-- The loop of `string_split` from `previous` on. -/
def stringSplitLoop (str : Bytes) (delim : UInt8) (previous : ℕ) : Run (List Bytes) :=
  match _h : find str delim previous with
  | none => do
    let piece ← substr str previous (2 ^ 64 - 1 - previous)
    return [piece]
  | some current => do
    let piece ← substr str previous (current - previous)
    let rest ← stringSplitLoop str delim (current + 1)
    return piece :: rest
termination_by str.length - previous
decreasing_by
  obtain ⟨before, -, rfl, hd⟩ := drop_eq_of_find _h
  have := congrArg List.length hd
  simp only [List.length_drop, List.length_append, List.length_cons] at this
  omega

/-- `string_split`. -/
def stringSplit (str : Bytes) (delim : UInt8) : Run (List Bytes) := stringSplitLoop str delim 0

/-- **Induction along the loop**, over positions within the string. -/
theorem find_induction {str : Bytes} (delim : UInt8)
    {motive : (previous : ℕ) → previous ≤ str.length → Prop}
    (last : ∀ previous hp, find str delim previous = none → motive previous hp)
    (next : ∀ previous before hp (hnext : previous + before.length + 1 ≤ str.length),
      find str delim previous = some (previous + before.length) → delim ∉ before →
      str.drop previous = before ++ delim :: str.drop (previous + before.length + 1) →
      motive (previous + before.length + 1) hnext → motive previous hp)
    (previous : ℕ) (hp : previous ≤ str.length) : motive previous hp := by
  induction hk : str.length - previous using Nat.strongRecOn generalizing previous with
  | ind k ih =>
    cases hfind : find str delim previous with
    | none => exact last previous hp hfind
    | some current =>
      obtain ⟨before, hbefore, rfl, hd⟩ := drop_eq_of_find hfind
      have hlen := congrArg List.length hd
      simp only [List.length_drop, List.length_append, List.length_cons] at hlen
      exact next previous before hp (by omega) hfind hbefore hd (ih _ (by omega) _ _ rfl)

theorem stringSplitLoop_last {str : Bytes} {delim : UInt8} {previous : ℕ}
    (hp : previous ≤ str.length) (hfind : find str delim previous = none) :
    stringSplitLoop str delim previous =
      .ok [(str.drop previous).take (2 ^ 64 - 1 - previous)] := by
  rw [stringSplitLoop]
  split
  · rw [substr_of_le hp]
    rfl
  · rename_i hsome
    rw [hfind] at hsome
    cases hsome

theorem stringSplitLoop_next {str before : Bytes} {delim : UInt8} {previous : ℕ}
    (hp : previous + before.length + 1 ≤ str.length)
    (hfind : find str delim previous = some (previous + before.length))
    (hd : str.drop previous = before ++ delim :: str.drop (previous + before.length + 1)) :
    stringSplitLoop str delim previous =
      stringSplitLoop str delim (previous + before.length + 1) >>= fun rest =>
        .ok (before :: rest) := by
  have htake : (str.drop previous).take (previous + before.length - previous) = before := by
    rw [hd, Nat.add_sub_cancel_left, List.take_left]
  rw [stringSplitLoop]
  split
  · rename_i hnone
    rw [hfind] at hnone
    cases hnone
  · rename_i current hsome
    rw [hfind] at hsome
    cases hsome
    rw [substr_of_le (by omega), htake]
    rfl

theorem stringSplitLoop_eq {str : Bytes} (hlen : str.length < 2 ^ 64) (delim : UInt8) {previous : ℕ}
    (hp : previous ≤ str.length) :
    stringSplitLoop str delim previous = .ok ((str.drop previous).splitOn delim) := by
  induction previous, hp using find_induction delim with
  | last previous hp hfind =>
    rw [stringSplitLoop_last hp hfind, List.splitOn_eq_singleton (notMem_of_find hfind),
      List.take_of_length_le (by rw [List.length_drop]; omega)]
  | next previous before hp hnext hfind hbefore hd ih =>
    rw [stringSplitLoop_next hnext hfind hd, ih, hd,
      List.splitOn_append_cons_self_of_not_mem hbefore]
    rfl

/-- **`string_split` splits.** -/
theorem stringSplit_eq {str : Bytes} (hlen : str.length < 2 ^ 64) (delim : UInt8) :
    stringSplit str delim = .ok (str.splitOn delim) := stringSplitLoop_eq hlen delim (Nat.zero_le _)

/-- `string_split` throws on no string. -/
theorem exists_stringSplitLoop (str : Bytes) (delim : UInt8) {previous : ℕ}
    (hp : previous ≤ str.length) : ∃ pieces, stringSplitLoop str delim previous = .ok pieces := by
  induction previous, hp using find_induction delim with
  | last previous hp hfind => exact ⟨_, stringSplitLoop_last hp hfind⟩
  | next previous before hp hnext hfind _ hd ih =>
    obtain ⟨pieces, hrest⟩ := ih
    rw [stringSplitLoop_next hnext hfind hd, hrest]
    exact ⟨_, rfl⟩

/-! ## The pieces of a string -/

/-- There is one more piece than there are delimiters, and no piece has one. -/
theorem splitOn_pieces {α : Type} [DecidableEq α] (delim : α) (xs : List α) :
    (xs.splitOn delim).length = xs.count delim + 1 ∧ ∀ piece ∈ xs.splitOn delim, delim ∉ piece := by
  induction xs with
  | nil => simp
  | cons x xs ih =>
    obtain ⟨hlen, hpieces⟩ := ih
    rw [List.splitOn_cons_eq_if_modifyHead]
    by_cases hx : x = delim
    · subst hx
      simp only [BEq.rfl, if_true, List.length_cons, hlen, List.count_cons_self, List.mem_cons,
        forall_eq_or_imp, List.not_mem_nil, not_false_eq_true, true_and]
      exact hpieces
    · rw [if_neg (by simpa using hx), List.length_modifyHead, hlen,
        List.count_cons_of_ne hx]
      refine ⟨rfl, ?_⟩
      obtain ⟨piece, pieces, hsplit⟩ := List.exists_cons_of_ne_nil (List.splitOn_ne_nil delim xs)
      rw [hsplit] at hpieces ⊢
      simp only [List.modifyHead_cons, List.mem_cons, forall_eq_or_imp, not_or] at hpieces ⊢
      exact ⟨⟨Ne.symm hx, hpieces.1⟩, hpieces.2⟩

/-! ## The calls of `string_split` -/

open Traced

/-- A call that `string_split` makes on the string. -/
inductive SplitCall
  | find (pos : ℕ)
  | substr (pos : ℕ) (count : ℤ)
  deriving DecidableEq

/-- The call is within range of a string of `size` bytes, and no difference of positions is
negative. -/
def SplitCall.Within (size : ℕ) : SplitCall → Prop
  | .find pos => pos ≤ size
  | .substr pos count => pos ≤ size ∧ 0 ≤ count

@[simp] theorem within_find {size pos : ℕ} : SplitCall.Within size (.find pos) ↔ pos ≤ size :=
  Iff.rfl

@[simp] theorem within_substr {size pos : ℕ} {count : ℤ} :
    SplitCall.Within size (.substr pos count) ↔ pos ≤ size ∧ 0 ≤ count := Iff.rfl

/-- The loop from `previous` on, with its calls and the vector that it appends to. -/
def stringSplitLoopTraced (str : Bytes) (cont : List Bytes) (delim : UInt8) (previous : ℕ) :
    Traced SplitCall Stop (List Bytes) := do
  note [.find previous]
  match _h : find str delim previous with
  | none => do
    -- `current` is `npos`
    note [.substr previous (2 ^ 64 - 1 - previous)]
    let piece ← lift (substr str previous (2 ^ 64 - 1 - previous))
    return cont ++ [piece]
  | some current => do
    note [.substr previous (current - previous)]
    let piece ← lift (substr str previous (current - previous))
    stringSplitLoopTraced str (cont ++ [piece]) delim (current + 1)
termination_by str.length - previous
decreasing_by
  obtain ⟨before, -, rfl, hd⟩ := drop_eq_of_find _h
  have := congrArg List.length hd
  simp only [List.length_drop, List.length_append, List.length_cons] at this
  omega

/-- `string_split`, with its calls: the vector `cont` afterwards. -/
def stringSplitTraced (str : Bytes) (cont : List Bytes) (delim : UInt8) :
    Traced SplitCall Stop (List Bytes) := stringSplitLoopTraced str cont delim 0

section Calls

variable {str before : Bytes} {cont : List Bytes} {delim : UInt8} {previous : ℕ}

theorem stringSplitLoopTraced_last (hfind : find str delim previous = none) :
    stringSplitLoopTraced str cont delim previous = (do
      note [.find previous]
      note [.substr previous (2 ^ 64 - 1 - previous)]
      let piece ← lift (substr str previous (2 ^ 64 - 1 - previous))
      return cont ++ [piece]) := by
  rw [stringSplitLoopTraced]
  congr 1
  funext _
  split
  · rfl
  · rename_i hsome
    rw [hfind] at hsome
    cases hsome

theorem stringSplitLoopTraced_next {current : ℕ} (hfind : find str delim previous = some current) :
    stringSplitLoopTraced str cont delim previous = (do
      note [.find previous]
      note [.substr previous (current - previous)]
      let piece ← lift (substr str previous (current - previous))
      stringSplitLoopTraced str (cont ++ [piece]) delim (current + 1)) := by
  rw [stringSplitLoopTraced]
  congr 1
  funext _
  split
  · rename_i hnone
    rw [hfind] at hnone
    cases hnone
  · rename_i hsome
    rw [hfind] at hsome
    cases hsome
    rfl

/-- Without the calls, the loop appends the pieces. -/
theorem result_stringSplitLoopTraced (cont : List Bytes) (hp : previous ≤ str.length) :
    (stringSplitLoopTraced str cont delim previous).result =
      (cont ++ ·) <$> stringSplitLoop str delim previous := by
  induction previous, hp using find_induction delim generalizing cont with
  | last previous hp hfind =>
    rw [stringSplitLoopTraced_last hfind, stringSplitLoop_last hp hfind]
    simp only [result_bind, result_note, result_lift, result_pure, substr_of_le hp, Run.ok_bind]
    rfl
  | next previous before hp hnext hfind _ hd ih =>
    have htake : (str.drop previous).take (previous + before.length - previous) = before := by
      rw [hd, Nat.add_sub_cancel_left, List.take_left]
    rw [stringSplitLoopTraced_next hfind, stringSplitLoop_next hnext hfind hd]
    simp only [result_bind, result_note, result_lift, substr_of_le hp, htake, Run.ok_bind, ih]
    cases stringSplitLoop str delim (previous + before.length + 1) with
    | error e => rfl
    | ok rest => exact congrArg Except.ok (List.append_assoc cont [before] rest)

/-- Every call of the loop is within range. -/
theorem safe_stringSplitLoopTraced (hlen : str.length < 2 ^ 64) (cont : List Bytes)
    (hp : previous ≤ str.length) :
    Safe (SplitCall.Within str.length) (stringSplitLoopTraced str cont delim previous) := by
  induction previous, hp using find_induction delim generalizing cont with
  | last previous hp hfind =>
    rw [stringSplitLoopTraced_last hfind]
    simp only [safe_bind_iff, safe_note_cons_iff, safe_note_nil, safe_lift_iff, safe_pure,
      within_find, within_substr, substr_of_le hp, hp, Except.ok.injEq, exists_eq', and_true,
      true_and, implies_true]
    omega
  | next previous before hp hnext hfind _ _ ih =>
    rw [stringSplitLoopTraced_next hfind]
    simp [safe_bind_iff, substr_of_le hp, hp, ih]

end Calls

/-- **`string_split` appends the pieces of the string**: one more than there are delimiters, none
with a delimiter in it, that joined give back the string; and its calls are within range. -/
theorem stringSplit_exact {str : Bytes} (hlen : str.length < 2 ^ 64) (cont : List Bytes)
    (delim : UInt8) :
    ∃ pieces, (stringSplitTraced str cont delim).result = .ok (cont ++ pieces) ∧
      pieces.length = str.count delim + 1 ∧ (∀ piece ∈ pieces, delim ∉ piece) ∧
      [delim].intercalate pieces = str ∧
      ∀ call ∈ (stringSplitTraced str cont delim).log, call.Within str.length := by
  obtain ⟨hcount, hpieces⟩ := splitOn_pieces delim str
  refine ⟨str.splitOn delim, ?_, hcount, hpieces, List.intercalate_splitOn delim,
    (safe_stringSplitLoopTraced hlen cont (Nat.zero_le _)).2⟩
  rw [stringSplitTraced, result_stringSplitLoopTraced cont (Nat.zero_le _),
    stringSplitLoop_eq hlen delim (Nat.zero_le _)]
  rfl

theorem stringSplit_exact_example :
    ∃ pieces, (stringSplitTraced (ascii "&a&&") [ascii "x"] 38).result =
        .ok ([ascii "x"] ++ pieces) ∧
      pieces.length = (ascii "&a&&").count 38 + 1 ∧ (∀ piece ∈ pieces, 38 ∉ piece) ∧
      [38].intercalate pieces = ascii "&a&&" ∧
      ∀ call ∈ (stringSplitTraced (ascii "&a&&") [ascii "x"] 38).log,
        call.Within (ascii "&a&&").length :=
  stringSplit_exact (by decide) [ascii "x"] 38

end Onion5
