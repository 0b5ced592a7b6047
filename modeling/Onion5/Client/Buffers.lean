import Onion5.Client.Acceptance
import Onion5.Foundations.Traced

/-!
# The buffers of `deserialize`

`deserialize` with a note of every access to a buffer and of every length that it asks `resize`,
`assign` and `new` for. Without the notes it is the `deserialize` of `Message`
(`result_deserializeTraced`).

* `safe_deserialize_iff`: every access is within its buffer and no length exceeds the file exactly
  when the sizes of the names fit the buffer and the file, and the file is none of type 2 or ends
  within the name of a file that is no longer than itself: the terminator of a name that is all
  there falls one past its block.
-/

namespace Onion5

namespace Message

open Traced

/-! ## Accesses -/

/-- What `deserialize` does with a buffer, or asks the heap for. -/
inductive Access
  /-- the first `n` bytes of a buffer of 1025 bytes are read or written -/
  | buff (n : ℕ)
  /-- the first `n` bytes of a block of `size` bytes are read or written -/
  | block (size n : ℕ)
  /-- `resize`, `assign` or `new` is asked for `n` bytes -/
  | length (n : ℕ)
  deriving DecidableEq

/-- The access is within its buffer, and the length does not exceed the size of the file. -/
def Access.Within (fileSize : ℕ) : Access → Prop
  | .buff n => n ≤ 1025
  | .block size n => n ≤ size
  | .length n => n ≤ fileSize

@[simp] theorem within_buff {size n : ℕ} : Access.Within size (.buff n) ↔ n ≤ 1025 := Iff.rfl

@[simp] theorem within_block {size b n : ℕ} : Access.Within size (.block b n) ↔ n ≤ b := Iff.rfl

@[simp] theorem within_length {size n : ℕ} : Access.Within size (.length n) ↔ n ≤ size := Iff.rfl

/-- Computations that note accesses. -/
abbrev Accessing (α : Type) := Traced Access Stop α

/-- `Reader.block`: `read` stores the bytes that it finds. -/
def Reader.blockTraced (r : Reader) (n : ℕ) : Accessing Reader := do
  note [.buff (r.is.read n).1.length]
  return r.block n

/-- `Reader.name`: `resize`, `read` and `assign`. -/
def Reader.nameTraced (r : Reader) : Accessing (Bytes × Reader) := do
  let r := r.size
  note [.length r.sizeValue]
  let r' ← r.blockTraced r.sizeValue
  note [.length r.sizeValue, .buff r.sizeValue]
  if 1025 < r.sizeValue then lift (.error .undefined)
  else return (r'.buff.take r.sizeValue, r')

/-- `readHeader`: each marker is compared in the buffer. -/
def readHeaderTraced (m : Message) (file : Bytes) : Accessing (Option (Message × Reader)) := do
  let r : Reader := ⟨InStream.opened file, List.replicate 1025 0, List.replicate 8 0⟩
  let r ← r.blockTraced 2
  note [.buff 2]
  if r.buff.take 2 ≠ MESSAGE_PREFIX then return none
  else
    let (from_, r) ← r.nameTraced
    let (to_, r) ← r.nameTraced
    let r := { r with is := (r.is.read 8).2 }
    let (type, is) := r.is.readInto [m.type] 1
    let r ← { r with is := is }.blockTraced 2
    note [.buff 2]
    if r.buff.take 2 ≠ MESSAGE_POSTFIX then return none
    else return some ({ m with from_ := from_, to_ := to_, type := type.headD 0 }, r)

/-- `Reader.filename`: `new`, `read`, the terminator, and the string up to it. -/
def Reader.filenameTraced (r : Reader) (heap : ℕ) : Accessing (Bytes × Reader) := do
  let r := r.size
  note [.length r.sizeValue]
  if heap < r.sizeValue then lift (.error .throws)
  else
    let x := r.is.read r.sizeValue
    note [.block r.sizeValue x.1.length, .block r.sizeValue (x.1.length + 1),
      .block r.sizeValue ((cstr x.1).length + 1)]
    return (cstr x.1, { r with is := x.2 })

/-- `bodyPath`. -/
def bodyPathTraced (m : Message) (r : Reader) (locate : Bytes) (heap : ℕ) :
    Accessing (Bytes × Reader) :=
  if m.type = 2 then r.filenameTraced heap
  else if m.type = 0 then return (locate, r)
  else return ([], r)

theorem chunk_pos : 0 < 1024 := by decide

/-- `readBody`: each chunk of a text is terminated, and each chunk of a body is copied. -/
def readBodyTraced (m : Message) (r : Reader) (locate : Bytes) (heap : ℕ) (fs : Files) :
    Accessing (Bool × Message × Files) :=
  if m.type = 1 then do
    let chunks := r.is.chunks 1024 chunk_pos
    note (chunks.map fun c => .buff (c.length + 1))
    return (true, { m with content := m.content ++ (chunks.map cstr).flatten }, fs)
  else do
    let (locate, r) ← bodyPathTraced m r locate heap
    if locate = [] then return (false, clear, fs)
    else if ¬ fs.canWrite locate then return (false, clear, fs)
    else
      let chunks := r.is.chunks 1024 chunk_pos
      note (chunks.map fun c => .buff c.length)
      return (true, { m with content := locate }, fs.put locate chunks.flatten)

/-- `Message::deserialize`, with its accesses. -/
def deserializeTraced (m : Message) (input locate : Bytes) (heap : ℕ) (fs : Files) :
    Accessing (Bool × Message × Files) :=
  match fs.openRead input with
  | none => return (false, clear, fs)
  | some file => do
    match ← readHeaderTraced m file with
    | none => return (false, clear, fs)
    | some (m, r) => readBodyTraced m r locate heap fs

/-! ## Without the notes -/

theorem result_blockTraced (r : Reader) (n : ℕ) : (r.blockTraced n).result = .ok (r.block n) := rfl

theorem result_nameTraced (r : Reader) : r.nameTraced.result = r.name := by
  unfold Reader.nameTraced Reader.name
  simp only [result_bind, result_note, Run.ok_bind, result_blockTraced]
  split_ifs <;> rfl

theorem result_readHeaderTraced (m : Message) (file : Bytes) :
    (readHeaderTraced m file).result = readHeader m file := by
  unfold readHeaderTraced readHeader
  simp only [result_bind, result_note, Run.ok_bind, result_blockTraced]
  split_ifs
  · rfl
  · simp only [result_bind, result_nameTraced, result_note, result_blockTraced, Run.ok_bind]
    congr 1
    funext x
    congr 1
    funext y
    split_ifs <;> rfl

theorem result_filenameTraced (r : Reader) (heap : ℕ) :
    (r.filenameTraced heap).result = r.filename heap := by
  unfold Reader.filenameTraced Reader.filename
  simp only [result_bind, result_note, Run.ok_bind]
  split_ifs <;> rfl

theorem result_bodyPathTraced (m : Message) (r : Reader) (locate : Bytes) (heap : ℕ) :
    (bodyPathTraced m r locate heap).result = bodyPath m r locate heap := by
  unfold bodyPathTraced bodyPath
  split_ifs
  · exact result_filenameTraced r heap
  · rfl
  · rfl

theorem result_readBodyTraced (m : Message) (r : Reader) (locate : Bytes) (heap : ℕ) (fs : Files) :
    (readBodyTraced m r locate heap fs).result = readBody m r locate heap fs := by
  unfold readBodyTraced readBody
  split_ifs
  · rfl
  · simp only [result_bind, result_bodyPathTraced]
    congr 1
    funext x
    split_ifs <;> rfl

/-- **Without the notes** it is `deserialize`. -/
theorem result_deserializeTraced (m : Message) (input locate : Bytes) (heap : ℕ) (fs : Files) :
    (m.deserializeTraced input locate heap fs).result = m.deserialize input locate heap fs := by
  cases hfile : fs.openRead input with
  | none => simp only [deserializeTraced, deserialize, hfile, result_pure]
  | some file =>
    simp only [deserializeTraced, deserialize, hfile, result_bind, result_readHeaderTraced]
    congr 1
    funext x
    obtain _ | ⟨m₁, r⟩ := x
    · rfl
    · exact result_readBodyTraced m₁ r locate heap fs

/-! ## Safety -/

section Safety

variable {m : Message} {file locate : Bytes} {heap size n : ℕ} {fs : Files} {r : Reader}

theorem safe_blockTraced_iff :
    Safe (Access.Within size) (r.blockTraced n) ↔ (r.is.read n).1.length ≤ 1025 := by
  simp [Reader.blockTraced, safe_bind_iff]

/-- A name is read safely when its size fits the buffer and the file. -/
theorem safe_nameTraced_iff : Safe (Access.Within size) r.nameTraced ↔
    r.size.sizeValue ≤ 1025 ∧ r.size.sizeValue ≤ size := by
  have hread := InStream.length_read_le r.size.is r.size.sizeValue
  simp only [Reader.nameTraced, safe_bind_iff, safe_note_cons_iff, safe_note_nil,
    safe_blockTraced_iff, result_note, result_blockTraced, within_buff, within_length,
    Except.ok.injEq, forall_eq', and_true, forall_const]
  constructor
  · rintro ⟨hsize, -, ⟨-, hbuff⟩, -⟩
    exact ⟨hbuff, hsize⟩
  · rintro ⟨hbuff, hsize⟩
    refine ⟨hsize, hread.trans hbuff, ⟨hsize, hbuff⟩, ?_⟩
    rw [if_neg (not_lt.2 hbuff)]
    exact safe_pure _

/-- The name of a file is read safely when `new` can allocate its size, which fits the file, and the
file ends within it. -/
theorem safe_filenameTraced_iff : Safe (Access.Within size) (r.filenameTraced heap) ↔
    r.size.sizeValue ≤ size ∧ r.size.sizeValue ≤ heap ∧
      (r.size.is.read r.size.sizeValue).1.length < r.size.sizeValue := by
  have hcstr := length_cstr_le (r.size.is.read r.size.sizeValue).1
  simp only [Reader.filenameTraced, safe_bind_iff, safe_note_cons_iff, safe_note_nil, result_note,
    within_length, and_true, forall_const]
  refine and_congr_right fun _ => ?_
  by_cases hheap : heap < r.size.sizeValue
  · rw [if_pos hheap, safe_lift_iff]
    refine iff_of_false ?_ fun h => absurd hheap (not_lt.2 h.1)
    rintro ⟨_, h⟩
    cases h
  · rw [if_neg hheap]
    simp only [safe_bind_iff, safe_note_cons_iff, safe_note_nil, within_block, safe_pure, and_true,
      implies_true]
    omega

/-- A name at a position of the file. -/
theorem safe_fromName_iff : Safe (Access.Within size)
    (Reader.nameTraced ⟨InStream.seek file 2, prefixBuff file, List.replicate 8 0⟩) ↔
      fromLength file ≤ 1025 ∧ fromLength file ≤ size := by
  rw [safe_nameTraced_iff, Reader.size_seek, Reader.sizeValue, List.reverse_reverse]
  rfl

theorem safe_toName_iff : Safe (Access.Within size)
    (Reader.nameTraced ⟨InStream.seek file (10 + fromLength file), fromBuff file,
      (fromField file).reverse⟩) ↔ toLength file ≤ 1025 ∧ toLength file ≤ size := by
  rw [safe_nameTraced_iff, Reader.size_seek, Reader.sizeValue, List.reverse_reverse]
  rfl

/-- The header is read safely when the sizes of its names fit the buffer and the file. -/
theorem safe_readHeaderTraced_iff : Safe (Access.Within size) (readHeaderTraced m file) ↔
    (file.take 2 = MESSAGE_PREFIX → (fromLength file ≤ 1025 ∧ fromLength file ≤ size) ∧
      toLength file ≤ 1025 ∧ toLength file ≤ size) := by
  have htwo : ∀ is : InStream, (is.read 2).1.length ≤ 1025 := fun is =>
    (InStream.length_read_le is 2).trans (by decide)
  have hblock : Reader.block ⟨InStream.opened file, List.replicate 1025 0, List.replicate 8 0⟩ 2 =
      ⟨InStream.seek file 2, prefixBuff file, List.replicate 8 0⟩ := by
    rw [← InStream.seek_zero, Reader.block_seek]
    rfl
  simp only [readHeaderTraced, safe_bind_iff, safe_note_cons_iff, safe_note_nil,
    safe_blockTraced_iff, result_note, result_blockTraced, hblock, htwo, within_buff,
    Except.ok.injEq, forall_eq', and_true, true_and, forall_const]
  refine (and_iff_right (by decide)).trans ?_
  simp only [ne_eq, take_prefixBuff_iff]
  by_cases hpre : file.take 2 = MESSAGE_PREFIX
  · rw [if_neg (not_not.2 hpre), forall_prop_of_true hpre, safe_bind_iff, safe_fromName_iff,
      result_nameTraced, fromName_eq]
    refine and_congr_right fun hfrom => ?_
    rw [if_neg (not_lt.2 hfrom.1)]
    simp only [Except.ok.injEq, forall_eq']
    rw [safe_bind_iff, safe_toName_iff, result_nameTraced, toName_eq]
    refine and_iff_left_of_imp fun hto => ?_
    rw [if_neg (not_lt.2 hto.1)]
    simp only [Except.ok.injEq, forall_eq', safe_bind_iff, safe_blockTraced_iff, htwo, true_and,
      safe_note_cons_iff, safe_note_nil, within_buff, and_true]
    refine fun _ _ => ⟨by decide, fun _ _ => ?_⟩
    split_ifs
    · exact safe_pure _
    · exact safe_pure _
  · rw [if_pos hpre]
    exact iff_of_true (safe_pure _) fun h => absurd h hpre

/-- The bytes that the file has after the size of the name of a file. -/
def nameRest (file : Bytes) : Bytes := file.drop (headerLength file + 8)

theorem safe_filename_iff : Safe (Access.Within size) ((bodyReader file).filenameTraced heap) ↔
    nameLength file ≤ size ∧ nameLength file ≤ heap ∧
      (nameRest file).length < nameLength file := by
  have hsize : (bodyReader file).size.sizeValue = nameLength file := by
    rw [bodyReader, Reader.size_seek, Reader.sizeValue, List.reverse_reverse]
    rfl
  have hread : ((bodyReader file).size.is.read (nameLength file)).1 =
      (nameRest file).take (nameLength file) := by
    rw [bodyReader, Reader.size_seek, InStream.read_seek]
    rfl
  rw [safe_filenameTraced_iff, hsize, hread, List.length_take]
  refine and_congr_right fun _ => and_congr_right fun _ => ?_
  omega

/-- The body is read safely when the message is none of type 2, or its name is. -/
theorem safe_readBodyTraced_iff : Safe (Access.Within size) (readBodyTraced m r locate heap fs) ↔
    (m.type = 2 → Safe (Access.Within size) (r.filenameTraced heap)) := by
  have hchunk : ∀ (is : InStream) (c : Bytes), c ∈ is.chunks 1024 chunk_pos → c.length ≤ 1024 :=
    fun is c hc => InStream.length_le_of_mem_chunks chunk_pos hc
  unfold readBodyTraced
  by_cases h1 : m.type = 1
  · rw [if_pos h1]
    refine iff_of_true ?_ fun h2 => absurd (h1.symm.trans h2) (by decide)
    simp only [safe_bind_iff, safe_note_iff, List.mem_map, safe_pure, implies_true, and_true]
    rintro _ ⟨c, hc, rfl⟩
    exact Nat.succ_le_succ (hchunk _ _ hc)
  · have hpath : Safe (Access.Within size) (bodyPathTraced m r locate heap) ↔
        (m.type = 2 → Safe (Access.Within size) (r.filenameTraced heap)) := by
      unfold bodyPathTraced
      split_ifs with h2 h0
      · exact ⟨fun h _ => h, fun h => h h2⟩
      · exact iff_of_true (safe_pure _) fun h => absurd h h2
      · exact iff_of_true (safe_pure _) fun h => absurd h h2
    rw [if_neg h1, safe_bind_iff, hpath]
    refine and_iff_left fun x _ => ?_
    dsimp only
    split_ifs
    · exact safe_pure _
    · simp only [safe_bind_iff, safe_note_iff, List.mem_map, safe_pure, implies_true, and_true]
      rintro _ ⟨c, hc, rfl⟩
      exact (hchunk _ _ hc).trans (by decide)
    · exact safe_pure _

/-- The sizes that a file announces are safe: those of its names fit the buffer and the file, and
that of the name of a file is longer than what is left, fits the file, and can be allocated. -/
structure SafeSizes (m : Message) (heap : ℕ) (file : Bytes) : Prop where
  fromLength_le : fromLength file ≤ 1025 ∧ fromLength file ≤ file.length
  toLength_le : toLength file ≤ 1025 ∧ toLength file ≤ file.length
  nameLength_le : (postfixBuff file).take 2 = MESSAGE_POSTFIX → (typeByte file).getD m.type = 2 →
    nameLength file ≤ file.length ∧ nameLength file ≤ heap ∧
      (nameRest file).length < nameLength file

variable {input : Bytes}

/-- The name of a file of type 2 is read in a call that is safe. -/
theorem safe_filename_of_safe (hfile : fs.openRead input = some file) (hacc : HeaderAccepted file)
    (htype : (typeByte file).getD m.type = 2)
    (h : Safe (Access.Within size) (m.deserializeTraced input locate heap fs)) :
    Safe (Access.Within size) ((bodyReader file).filenameTraced heap) := by
  simp only [deserializeTraced, hfile] at h
  rw [safe_bind_iff, result_readHeaderTraced] at h
  exact safe_readBodyTraced_iff.1 (h.2 _ (readHeader_of_accepted hacc m)) htype

/-- **`deserialize` is safe** exactly when the file announces safe sizes. -/
theorem safe_deserialize_iff (hfile : fs.openRead input = some file) :
    Safe (Access.Within file.length) (m.deserializeTraced input locate heap fs) ↔
      (file.take 2 = MESSAGE_PREFIX → SafeSizes m heap file) := by
  constructor
  · intro h hpre
    have hsplit := h
    simp only [deserializeTraced, hfile] at hsplit
    rw [safe_bind_iff, safe_readHeaderTraced_iff] at hsplit
    obtain ⟨hfrom, hto⟩ := hsplit.1 hpre
    refine ⟨hfrom, hto, fun hpost htype => ?_⟩
    exact safe_filename_iff.1
      (safe_filename_of_safe hfile ⟨hpre, hfrom.1, hto.1, hpost⟩ htype h)
  · intro h
    simp only [deserializeTraced, hfile]
    rw [safe_bind_iff, safe_readHeaderTraced_iff, result_readHeaderTraced]
    refine ⟨fun hpre => ⟨(h hpre).fromLength_le, (h hpre).toLength_le⟩, fun x hx => ?_⟩
    obtain _ | ⟨m₁, r⟩ := x
    · exact safe_pure _
    · have hacc := accepted_of_readHeader hx
      rw [readHeader_of_accepted hacc] at hx
      cases hx
      exact safe_readBodyTraced_iff.2 fun htype => safe_filename_iff.2
        ((h hacc.take_two).nameLength_le hacc.take_postfixBuff htype)

end Safety

/-- A text is read safely. -/
theorem safe_deserialize_iff_example : Safe (Access.Within exampleText.length)
    (clear.deserializeTraced (ascii "p") (exampleTemppath 0) 0 exampleTextFiles) := by
  refine (safe_deserialize_iff openRead_exampleTextFiles).2 fun _ => ⟨?_, ?_, ?_⟩
  · decide
  · decide
  · intro _ htype
    exact absurd htype (by decide)

/-- A file with a name that is all there. -/
def exampleFile : Bytes := header (ascii "a") (ascii "c") 2 0 ++ (be 8 1 ++ ascii "p")

/-- The terminator of its name falls past the block. -/
theorem not_safe_deserialize :
    ¬ ∀ (m : Message) (input locate file : Bytes) (heap : ℕ) (fs : Files),
      fs.openRead input = some file →
        Safe (Access.Within file.length) (m.deserializeTraced input locate heap fs) := by
  intro h
  have hfile : (Files.blank.put (ascii "p") exampleFile).openRead (ascii "p") = some exampleFile :=
    Files.openRead_put_self rfl rfl _
  obtain ⟨hacc, htype⟩ := accepted_type_iff.2
    (.inl ⟨ascii "a", ascii "c", be 8 1 ++ ascii "p", 0, by decide, by decide, rfl⟩ :
      StartsWithHeader 2 exampleFile ∨ CutPostfix 2 exampleFile)
  have hsafe := h clear (ascii "p") (exampleTemppath 0) exampleFile 1 _ hfile
  have hname := safe_filename_iff.1
    (safe_filename_of_safe hfile hacc (by rw [htype]; rfl) hsafe)
  exact absurd hname.2.2 (by decide)

end Message

end Onion5
