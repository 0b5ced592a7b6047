import Onion5.Common.Util

/-!
# Files read whole

The model of `read_file` and `delete_file` of `util.cc`. `read_file` reads a file into a block of
the file's size and takes the block for a C string; what stands behind the block in memory, up to
its first NUL byte, is an argument.

* `readFile_eq_some_iff`: what `read_file` returns.
* `comesBack_iff`: when it returns what `write_file` was given.
-/

namespace Onion5

/-- `read_file`: whether it returns true, and `data` if so. `opens` is whether the file may be
opened. -/
def readFile (opens : Bool) (memory locate : Bytes) (fs : Files) : Run (Option Bytes) :=
  match if opens then fs.openRead locate else none with
  | none => .ok none
  | some file =>
    let length := toInt file.length
    if length < 0 then .error .throws
    else
      let r := (InStream.opened file).read length.toNat
      if r.2.eof then .ok none else .ok (some (cstr (r.1 ++ memory)))

/-- `delete_file`, which fails when there is no such file. -/
def deleteFile (locate : Bytes) (fs : Files) : Bool × Files :=
  ((fs.get (cstr locate)).isSome, fs.remove locate)

theorem deleteFile_of_get {locate content : Bytes} {fs : Files}
    (h : fs.get (cstr locate) = some content) :
    deleteFile locate fs = (true, fs.remove locate) := by
  rw [deleteFile, h, Option.isSome_some]

/-! ## What is read -/

/-- The C string at the start of the block into which a file is read. -/
def readText (memory file : Bytes) : Bytes := cstr (file.take (toInt file.length).toNat ++ memory)

theorem toNat_toInt_le (n : ℕ) : (toInt n).toNat ≤ n := by
  simp only [toInt, Int.bmod]
  split_ifs <;> omega

theorem readFile_eq {locate file : Bytes} {fs : Files} (memory : Bytes)
    (hopen : fs.openRead locate = some file) :
    readFile true memory locate fs =
      if toInt file.length < 0 then .error .throws else .ok (some (readText memory file)) := by
  simp only [readFile, hopen, if_true, InStream.opened,
    InStream.read_of_le (toNat_toInt_le file.length), Bool.false_eq_true, if_false]
  rfl

theorem readFile_missing {locate : Bytes} {fs : Files} (opens : Bool) (memory : Bytes)
    (hopen : fs.openRead locate = none) : readFile opens memory locate fs = .ok none := by
  cases opens <;> simp [readFile, hopen]

/-- `read_file` returns a string exactly when it can open the file, whose size is not negative as an
`int`, and it is the one at the start of the block. -/
theorem readFile_eq_some_iff {opens : Bool} {memory locate data : Bytes} {fs : Files} :
    readFile opens memory locate fs = .ok (some data) ↔ opens = true ∧
      ∃ file, fs.openRead locate = some file ∧ 0 ≤ toInt file.length ∧
        readText memory file = data := by
  cases opens with
  | false => simp [readFile]
  | true =>
    cases hopen : fs.openRead locate with
    | none => simp [readFile_missing true memory hopen]
    | some file =>
      rw [readFile_eq memory hopen]
      split_ifs with hneg
      · simp [not_le.2 hneg]
      · simp [not_lt.1 hneg]

/-- A file is read as it is exactly when it has no NUL byte, and what stands behind the block is
what the `int` has cut off: nothing, from a file below 2³¹ bytes. -/
theorem readText_eq_self_iff {memory file : Bytes} : readText memory file = file ↔
    0 ∉ file ∧ cstr memory = file.drop (toInt file.length).toNat := by
  have hsplit := List.take_append_drop (toInt file.length).toNat file
  constructor
  · intro h
    have h0 : 0 ∉ file := h ▸ zero_notMem_cstr _
    have htake : 0 ∉ file.take (toInt file.length).toNat := fun hmem =>
      h0 (List.mem_of_mem_take hmem)
    rw [readText, cstr_append htake] at h
    exact ⟨h0, List.append_cancel_left (h.trans hsplit.symm)⟩
  · rintro ⟨h0, hmemory⟩
    have htake : 0 ∉ file.take (toInt file.length).toNat := fun hmem =>
      h0 (List.mem_of_mem_take hmem)
    rw [readText, cstr_append htake, hmemory, hsplit]

/-! ## Written and read -/

/-- What `write_file` reports as written, `read_file` returns. -/
def ComesBack (opens : Bool) (memory path d : Bytes) (fs : Files) : Prop :=
  (writeFile path d fs).1 = true →
    readFile opens memory path (writeFile path d fs).2 = .ok (some d)

/-- What the path holds after the write: a path that cannot be opened for writing keeps its file. -/
theorem openRead_put_eq_some_iff {path d file : Bytes} {fs : Files} :
    (fs.put path d).openRead path = some file ↔ fs.readable (cstr path) = true ∧
      if fs.canWrite path then d = file else fs.get (cstr path) = some file := by
  by_cases hw : fs.canWrite path
  · rw [if_pos hw]
    by_cases hr : fs.readable (cstr path)
    · simp [Files.openRead_put_self hr hw, hr]
    · simp [Files.openRead, hr]
  · have hput : fs.put path d = fs := dif_neg hw
    rw [hput, if_neg hw, Files.openRead]
    by_cases hr : fs.readable (cstr path) <;> simp [hr]

/-- **What is written comes back** exactly when the path can be opened for reading and, if it can be
opened for writing, the data has no NUL byte and a size that an `int` holds, with a NUL byte behind
the block in memory; if it cannot, the file that is there already reads as the data. -/
theorem comesBack_iff {opens : Bool} {memory path d : Bytes} {fs : Files} :
    ComesBack opens memory path d fs ↔ opens = true ∧ fs.readable (cstr path) = true ∧
      if fs.canWrite path then
        0 ∉ d ∧ 0 ≤ toInt d.length ∧ cstr memory = d.drop (toInt d.length).toNat
      else ∃ old, fs.get (cstr path) = some old ∧ 0 ≤ toInt old.length ∧
        readText memory old = d := by
  rw [ComesBack, writeFile, readFile_eq_some_iff]
  simp only [true_imp_iff, openRead_put_eq_some_iff]
  refine and_congr_right fun _ => ?_
  split_ifs with hw
  · constructor
    · rintro ⟨file, ⟨hr, rfl⟩, hsize, htext⟩
      obtain ⟨h0, hmemory⟩ := readText_eq_self_iff.1 htext
      exact ⟨hr, h0, hsize, hmemory⟩
    · rintro ⟨hr, h0, hsize, hmemory⟩
      exact ⟨d, ⟨hr, rfl⟩, hsize, readText_eq_self_iff.2 ⟨h0, hmemory⟩⟩
  · simp only [and_assoc, exists_and_left]

/-- A NUL byte that has been written is not read. -/
theorem not_comesBack_nul : ¬ ∀ (memory path d : Bytes) (fs : Files),
    ComesBack true memory path d fs := by
  intro h
  have hread := h [] (ascii "p") [0] Files.blank rfl
  have hfile : (Files.blank.put (ascii "p") [0]).openRead (ascii "p") = some [0] :=
    Files.openRead_put_self rfl rfl [0]
  rw [writeFile, readFile_eq [] hfile] at hread
  exact absurd hread (by decide)

end Onion5
