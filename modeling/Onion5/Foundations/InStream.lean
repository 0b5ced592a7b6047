import Onion5.Foundations.Bytes

/-!
# Input streams

A `std::istream` over a regular file, or over a connection on which nothing more will be sent, as
far as its readers see it: the bytes not yet read and the end-of-file flag. A read that finds fewer
bytes than it asks for stores those and raises the flag (together with the fail flag, so one flag
stands for both); every later read stores nothing.

* `InStream.getline` is `std::getline`.
* `InStream.read` is `is.read(buff, n)` with the `is.gcount()` bytes it stored, and
  `InStream.readInto` the buffer afterwards.
* `InStream.seek` is the stream after some bytes have been asked for: reads move along it
  (`read_seek`), whether the file has the bytes or not.
* `InStream.chunks` is the loop `while (!is.eof()) { is.read(buff, n); … }`, as the list of the
  chunks its body sees. On an open stream the chunks are the rest of the file (`flatten_chunks`).
-/

namespace Onion5

/-- A `std::istream`: the bytes not yet read, and whether a read has hit the end of the file. -/
structure InStream where
  rest : Bytes
  eof : Bool
  deriving DecidableEq

namespace InStream

/-- `is.open(…)` on a file that can be opened. -/
def opened (file : Bytes) : InStream := ⟨file, false⟩

/-- What a stream still has for its readers. -/
def unread (is : InStream) : Bytes := if is.eof then [] else is.rest

@[simp] theorem unread_opened (file : Bytes) : (opened file).unread = file := rfl

/-- `is.read(buff, n)`: the bytes stored, and the stream afterwards. -/
def read (is : InStream) (n : ℕ) : Bytes × InStream :=
  if is.eof then ([], is)
  else if n ≤ is.rest.length then (is.rest.take n, ⟨is.rest.drop n, false⟩)
  else (is.rest, ⟨[], true⟩)

/-- `std::getline(is, str)`: the string and the stream afterwards. At the end of the stream the
string stays as it was; the end counts as a line end for what comes before it. -/
def getline (is : InStream) (str : Bytes) : Bytes × InStream :=
  if is.eof then (str, is)
  else
    match is.rest.dropWhile (· ≠ 10) with
    | [] => (is.rest, ⟨[], true⟩)
    | _ :: rest => (is.rest.takeWhile (· ≠ 10), ⟨rest, false⟩)

/-- `is.read(dst, n)` into a buffer whose content matters afterwards. -/
def readInto (is : InStream) (dst : Bytes) (n : ℕ) : Bytes × InStream :=
  let r := is.read n
  (overlay r.1 dst, r.2)

/-- A read inside the file. -/
theorem read_append {a : Bytes} {n : ℕ} (h : a.length = n) (b : Bytes) :
    read ⟨a ++ b, false⟩ n = (a, ⟨b, false⟩) := by
  subst h
  simp [read]

theorem read_of_le {b : Bytes} {n : ℕ} (h : n ≤ b.length) :
    read ⟨b, false⟩ n = (b.take n, ⟨b.drop n, false⟩) := by
  simp [read, h]

/-- A read that reaches the end of the file. -/
theorem read_of_lt {b : Bytes} {n : ℕ} (h : b.length < n) :
    read ⟨b, false⟩ n = (b, ⟨[], true⟩) := by
  simp [read, not_le.2 h]

theorem read_eof (b : Bytes) (n : ℕ) : read ⟨b, true⟩ n = ([], ⟨b, true⟩) := rfl

/-- A read after which the stream has not ended has found all it asked for. -/
theorem read_whole (is : InStream) (n : ℕ) (he : (is.read n).2.eof = false) :
    (is.read n).1.length = n ∧ is = ⟨(is.read n).1 ++ (is.read n).2.rest, false⟩ := by
  obtain ⟨rest, eof⟩ := is
  cases eof with
  | true =>
    rw [read_eof] at he
    cases he
  | false =>
    by_cases hle : n ≤ rest.length
    · rw [read_of_le hle]
      exact ⟨List.length_take_of_le hle, by rw [List.take_append_drop]⟩
    · rw [read_of_lt (not_le.1 hle)] at he
      cases he

/-- What a read stores. -/
theorem read_fst (b : Bytes) (n : ℕ) : (read ⟨b, false⟩ n).1 = b.take n := by
  by_cases hle : n ≤ b.length
  · rw [read_of_le hle]
  · rw [read_of_lt (not_le.1 hle), List.take_of_length_le (by omega)]

theorem length_read_le (is : InStream) (n : ℕ) : (is.read n).1.length ≤ n := by
  unfold read
  split_ifs with he hn
  · exact Nat.zero_le _
  · exact List.length_take_le _ _
  · exact (not_le.1 hn).le

/-- The stream over `file` from which `p` bytes have been asked for. -/
def seek (file : Bytes) (p : ℕ) : InStream := ⟨file.drop p, file.length < p⟩

theorem seek_zero (file : Bytes) : seek file 0 = opened file := rfl

theorem seek_of_le {file : Bytes} {p : ℕ} (h : p ≤ file.length) :
    seek file p = ⟨file.drop p, false⟩ := by
  rw [seek, decide_eq_false (not_lt.2 h)]

theorem seek_of_lt {file : Bytes} {p : ℕ} (h : file.length < p) : seek file p = ⟨[], true⟩ := by
  rw [seek, decide_eq_true h, List.drop_eq_nil_of_le (by omega)]

/-- Reads move through the file, and past its end. -/
theorem read_seek (file : Bytes) (p n : ℕ) :
    (seek file p).read n = ((file.drop p).take n, seek file (p + n)) := by
  by_cases hp : file.length < p
  · rw [seek_of_lt hp, seek_of_lt (by omega), read_eof, List.drop_eq_nil_of_le (by omega),
      List.take_nil]
  · rw [seek_of_le (not_lt.1 hp)]
    have hlen : (file.drop p).length = file.length - p := List.length_drop
    by_cases hn : n ≤ (file.drop p).length
    · rw [read_of_le hn, List.drop_drop, seek_of_le (by omega)]
    · rw [read_of_lt (not_le.1 hn), List.take_of_length_le (by omega), seek_of_lt (by omega)]

theorem readInto_seek (file dst : Bytes) (p n : ℕ) :
    (seek file p).readInto dst n = (overlay ((file.drop p).take n) dst, seek file (p + n)) := by
  rw [readInto, read_seek]

/-- A line that is there. -/
theorem getline_append {line : Bytes} (h : 10 ∉ line) (rest str : Bytes) :
    getline ⟨line ++ 10 :: rest, false⟩ str = (line, ⟨rest, false⟩) := by
  rw [getline, dropWhile_ne_append h, takeWhile_ne_append h]
  rfl

/-- A line that the end of the stream ends. -/
theorem getline_of_notMem {line : Bytes} (h : 10 ∉ line) (str : Bytes) :
    getline ⟨line, false⟩ str = (line, ⟨[], true⟩) := by
  rw [getline, dropWhile_ne_self h]
  rfl

theorem readInto_append {a : Bytes} {n : ℕ} (h : a.length = n) (b dst : Bytes) :
    readInto ⟨a ++ b, false⟩ dst n = (overlay a dst, ⟨b, false⟩) := by
  simp [readInto, read_append h]

/-! ## Loops driven by the end of the file -/

/-- What is left to do for a loop that runs until the end of the file. -/
def todo (is : InStream) : ℕ := is.rest.length + if is.eof then 0 else 1

theorem todo_read_lt {is : InStream} (he : is.eof = false) {n : ℕ} (hn : 0 < n) :
    (is.read n).2.todo < is.todo := by
  obtain ⟨b, e⟩ := is
  obtain rfl : e = false := he
  by_cases h : n ≤ b.length
  · rw [read_of_le h]
    simp only [todo, List.length_drop, Bool.false_eq_true, if_false]
    omega
  · rw [read_of_lt (not_le.1 h)]
    simp [todo]

theorem todo_getline_lt {is : InStream} (he : is.eof = false) (str : Bytes) :
    (is.getline str).2.todo < is.todo := by
  obtain ⟨b, e⟩ := is
  obtain rfl : e = false := he
  have hlen := (List.dropWhile_suffix (p := (· ≠ 10)) (l := b)).length_le
  simp only [getline, Bool.false_eq_true, if_false]
  split
  · simp [todo]
  · rename_i rest h
    rw [h, List.length_cons] at hlen
    simp only [todo, Bool.false_eq_true, if_false]
    omega

/-- The chunks that `while (!is.eof()) { is.read(buff, n); … }` reads, in order. -/
def chunks (n : ℕ) (hn : 0 < n) (is : InStream) : List Bytes :=
  if _he : is.eof then []
  else (is.read n).1 :: chunks n hn (is.read n).2
termination_by is.todo
decreasing_by exact todo_read_lt (by simpa using _he) hn

theorem chunks_eof {n : ℕ} (hn : 0 < n) (b : Bytes) : chunks n hn ⟨b, true⟩ = [] := by
  rw [chunks]
  simp

theorem chunks_open {n : ℕ} (hn : 0 < n) (b : Bytes) :
    chunks n hn ⟨b, false⟩ = (read ⟨b, false⟩ n).1 :: chunks n hn (read ⟨b, false⟩ n).2 := by
  rw [chunks]
  simp

/-- **The loop reads the whole rest of the file.** -/
theorem flatten_chunks {n : ℕ} (hn : 0 < n) (b : Bytes) :
    (chunks n hn ⟨b, false⟩).flatten = b := by
  induction hb : b.length using Nat.strongRecOn generalizing b with
  | ind l ih =>
    rw [chunks_open hn, List.flatten_cons]
    by_cases h : n ≤ b.length
    · rw [read_of_le h, ih (b.drop n).length (by rw [List.length_drop]; omega) (b.drop n) rfl]
      exact List.take_append_drop n b
    · rw [read_of_lt (not_le.1 h), chunks_eof hn, List.flatten_nil, List.append_nil]

theorem length_le_of_mem_chunks {n : ℕ} (hn : 0 < n) {is : InStream} {c : Bytes}
    (hc : c ∈ chunks n hn is) : c.length ≤ n := by
  induction hk : is.todo using Nat.strongRecOn generalizing is with
  | ind k ih =>
    rw [chunks] at hc
    split_ifs at hc with he
    · cases hc
    · rw [List.mem_cons] at hc
      obtain rfl | hc := hc
      · exact length_read_le is n
      · exact ih _ (hk ▸ todo_read_lt (by simpa using he) hn) hc rfl

/-- Every chunk is part of the file. -/
theorem mem_of_mem_chunks {n : ℕ} (hn : 0 < n) {b c : Bytes} (hc : c ∈ chunks n hn ⟨b, false⟩)
    {x : UInt8} (hx : x ∈ c) : x ∈ b := by
  rw [← flatten_chunks hn b, List.mem_flatten]
  exact ⟨c, hc, hx⟩

/-- Chunks read as C strings are the whole text when it has no NUL byte. -/
theorem flatten_cstr_chunks {n : ℕ} (hn : 0 < n) {b : Bytes} (h : 0 ∉ b) :
    ((chunks n hn ⟨b, false⟩).map cstr).flatten = b := by
  have hmap : (chunks n hn ⟨b, false⟩).map cstr = (chunks n hn ⟨b, false⟩).map id :=
    List.map_congr_left fun c hc => cstr_eq_self fun h0 => h (mem_of_mem_chunks hn hc h0)
  rw [hmap, List.map_id, flatten_chunks]

/-- Only then: C strings have no NUL bytes. -/
theorem flatten_cstr_chunks_eq_iff {n : ℕ} {hn : 0 < n} {b : Bytes} :
    ((chunks n hn ⟨b, false⟩).map cstr).flatten = b ↔ 0 ∉ b := by
  refine ⟨fun h h0 => ?_, flatten_cstr_chunks hn⟩
  rw [← h, List.mem_flatten] at h0
  obtain ⟨s, hs, h0⟩ := h0
  obtain ⟨c, -, rfl⟩ := List.mem_map.1 hs
  exact zero_notMem_cstr c h0

end InStream

end Onion5
