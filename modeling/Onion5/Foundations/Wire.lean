import Onion5.Foundations.Bytes

/-!
# Length-delimited records

The part of the protobuf wire format that messages of strings and submessages use: numbers in
groups of seven bits (`varint`), and records of a tag byte, a length and a payload
(`writeRecord`). A reader takes records off a byte string until it is used up or does not start
with a record any more.

* `readVarint_varint`, `readRecords_writeRecords`: the readers invert the writers.
-/

namespace Onion5.Wire

/-! ## Numbers -/

/-- The groups of seven bits of `n`, least significant first, all but the last marked. -/
def varint (n : ℕ) : Bytes :=
  if n < 128 then [UInt8.ofNat n] else UInt8.ofNat (n % 128 + 128) :: varint (n / 128)

/-- The number at the start of a byte string, and what comes after it. -/
def readVarint : Bytes → Option (ℕ × Bytes)
  | [] => none
  | b :: bs =>
    if b.toNat < 128 then some (b.toNat, bs)
    else (readVarint bs).map fun r => (b.toNat - 128 + 128 * r.1, r.2)

theorem varint_of_lt {n : ℕ} (h : n < 128) : varint n = [UInt8.ofNat n] := by
  rw [varint, if_pos h]

theorem readVarint_varint (n : ℕ) (rest : Bytes) :
    readVarint (varint n ++ rest) = some (n, rest) := by
  induction n using Nat.strongRecOn with
  | ind n ih =>
    rw [varint]
    split_ifs with h
    · have hn : (UInt8.ofNat n).toNat = n := by
        rw [UInt8.toNat_ofNat', Nat.mod_eq_of_lt (by omega)]
      simp [readVarint, hn, h]
    · have hn : (UInt8.ofNat (n % 128 + 128)).toNat = n % 128 + 128 := by
        rw [UInt8.toNat_ofNat', Nat.mod_eq_of_lt (by omega)]
      rw [List.cons_append, readVarint, hn, if_neg (by omega), ih (n / 128) (by omega)]
      simp only [Option.map_some, Nat.add_sub_cancel, Nat.mod_add_div]

theorem length_readVarint_lt {b rest : Bytes} {n : ℕ} (h : readVarint b = some (n, rest)) :
    rest.length < b.length := by
  induction b generalizing n with
  | nil => cases h
  | cons x xs ih =>
    rw [readVarint] at h
    split_ifs at h
    · cases h
      exact Nat.lt_succ_self _
    · obtain ⟨r, hr, he⟩ := Option.map_eq_some_iff.1 h
      cases he
      exact Nat.lt_succ_of_lt (ih hr)

/-! ## Records -/

/-- A record: its tag, the length of its payload and the payload. -/
def writeRecord (r : UInt8 × Bytes) : Bytes := r.1 :: (varint r.2.length ++ r.2)

def writeRecords (rs : List (UInt8 × Bytes)) : Bytes := rs.flatMap writeRecord

/-- The record at the start of a byte string, and what comes after it. -/
def readRecord : Bytes → Option ((UInt8 × Bytes) × Bytes)
  | [] => none
  | tag :: bs =>
    match readVarint bs with
    | none => none
    | some (n, rest) =>
      if n ≤ rest.length then some ((tag, rest.take n), rest.drop n) else none

theorem readRecord_writeRecord (r : UInt8 × Bytes) (rest : Bytes) :
    readRecord (writeRecord r ++ rest) = some (r, rest) := by
  obtain ⟨tag, payload⟩ := r
  simp only [writeRecord, List.cons_append, List.append_assoc, readRecord, readVarint_varint]
  simp

theorem length_readRecord_lt {b rest : Bytes} {r : UInt8 × Bytes}
    (h : readRecord b = some (r, rest)) : rest.length < b.length := by
  cases b with
  | nil => cases h
  | cons tag bs =>
    rw [readRecord] at h
    split at h
    · cases h
    · rename_i n rest' hv
      have hlt := length_readVarint_lt hv
      split_ifs at h
      cases h
      rw [List.length_drop, List.length_cons]
      omega

/-- The records of a byte string, and whether they make it up. -/
def readRecords (b : Bytes) : List (UInt8 × Bytes) × Bool :=
  if b = [] then ([], true)
  else
    match _h : readRecord b with
    | none => ([], false)
    | some (r, rest) => (r :: (readRecords rest).1, (readRecords rest).2)
termination_by b.length
decreasing_by all_goals exact length_readRecord_lt _h

/-- Records written are read before what follows them. -/
theorem readRecords_writeRecords_append (rs : List (UInt8 × Bytes)) (rest : Bytes) :
    readRecords (writeRecords rs ++ rest) =
      (rs ++ (readRecords rest).1, (readRecords rest).2) := by
  induction rs with
  | nil => rfl
  | cons r rs ih =>
    rw [writeRecords, List.flatMap_cons, ← writeRecords, List.append_assoc, readRecords,
      if_neg (by simp [writeRecord])]
    split
    · rename_i h
      rw [readRecord_writeRecord] at h
      cases h
    · rename_i r' rest' h
      rw [readRecord_writeRecord] at h
      cases h
      rw [ih, List.cons_append]

/-- **Records are read as they were written.** -/
theorem readRecords_writeRecords (rs : List (UInt8 × Bytes)) :
    readRecords (writeRecords rs) = (rs, true) := by
  have hnil : readRecords [] = ([], true) := by rw [readRecords, if_pos rfl]
  rw [← List.append_nil (writeRecords rs), readRecords_writeRecords_append, hnil, List.append_nil]

theorem length_writeRecord_of_lt (tag : UInt8) {payload : Bytes} (h : payload.length < 128) :
    (writeRecord (tag, payload)).length = payload.length + 2 := by
  rw [writeRecord, varint_of_lt h]
  simp

end Onion5.Wire
