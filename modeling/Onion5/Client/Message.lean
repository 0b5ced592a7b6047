import Onion5.Common.Util
import Onion5.Common.Config
import Mathlib.Data.List.DropRight

/-!
# Messages

The model of `message_wrapper.cc`. A message file is a header (prefix, sender, recipient,
timestamp, type, postfix) and a body, which a message of type 0 or 2 keeps in a file of its own
and one of type 1 in `content`.

`deserialize` trusts the lengths it reads and looks at no read's result: short reads leave the
buffers as they were, and a name longer than the header buffer is undefined behaviour.

* `deserialize_packet`, `deserialize_text`: what it makes of a well-formed file.
* `Reader.filename_whole`: the name of a file that is read was there.
* `serialize_packet`, `serialize_text`: what `serialize` writes.
-/

namespace Onion5

/-- `class Message`. The `char` −1 of a cleared type is 255. -/
structure Message where
  from_ : Bytes
  to_ : Bytes
  /-- 0 binary, 1 text, 2 file -/
  type : UInt8
  /-- the path of the body, the text, or the name of the file -/
  content : Bytes
  deriving DecidableEq

namespace Message

/-- `Message::clear`; a new message is clear. -/
def clear : Message := ⟨[], [], 255, []⟩

/-- A message of type 0 with the given ends (`setFrom`, `setTo`, `setBinary`). -/
def binary (from_ to_ locate : Bytes) : Message := ⟨from_, to_, 0, locate⟩

/-- A message of type 1 with the given ends (`setFrom`, `setTo`, `setContent`). -/
def text (from_ to_ content : Bytes) : Message := ⟨from_, to_, 1, content⟩

/-! ## Writing -/

/-- The header of a message file. -/
def header (from_ to_ : Bytes) (type : UInt8) (time : ℕ) : Bytes :=
  MESSAGE_PREFIX ++ (be 8 from_.length ++ (from_ ++ (be 8 to_.length ++ (to_ ++
    (be 8 time ++ ([type] ++ MESSAGE_POSTFIX))))))

/-- POSIX `basename`: the last component of a path, and the path as the call leaves it in the
caller's buffer, without trailing slashes. -/
def basename (path : Bytes) : Bytes × Bytes :=
  let p := cstr path
  let trimmed := p.rdropWhile (· = 47)
  if p = [] then (ascii ".", p)
  else if trimmed = [] then (ascii "/", p)
  else (trimmed.rtakeWhile (· ≠ 47), trimmed)

/-- The loop `while (!is.eof())` that copies a stream 1024 bytes at a time. -/
def copyLoop (is : InStream) : Bytes := (is.chunks 1024 (by decide)).flatten

/-- `Message::serialize`, at the temporary path `locate` and the time `time`; `opens` says
whether the system grants the open of the body. The path returned is empty when it does not. -/
def serialize (m : Message) (locate : Bytes) (time : ℕ) (opens : Bool) (fs : Files) :
    Bytes × Files :=
  let fs := fs.put locate []
  let os := header m.from_ m.to_ m.type time
  let file := if m.type = 2 then basename m.content else ([], m.content)
  let os := if m.type = 2 then os ++ be 8 file.1.length ++ file.1 else os
  if m.type = 0 ∨ m.type = 2 then
    match if opens then fs.openRead file.2 else none with
    | none => ([], fs.put locate os)
    | some body => (locate, fs.put locate (os ++ copyLoop (InStream.opened body)))
  else if m.type = 1 then (locate, fs.put locate (os ++ m.content))
  else (locate, fs.put locate os)

/-! ## Reading -/

/-- The local variables `is`, `buff` and `s` of `deserialize`; `s` as the eight bytes of memory
it occupies on a little-endian machine. -/
structure Reader where
  is : InStream
  buff : Bytes
  s : Bytes

/-- Read `s` and swap its bytes. -/
def Reader.size (r : Reader) : Reader :=
  let x := r.is.readInto r.s 8
  { r with is := x.2, s := x.1.reverse }

/-- The value of `s`. -/
def Reader.sizeValue (r : Reader) : ℕ := ofBE r.s.reverse

/-- Read `n` bytes into `buff`. -/
def Reader.block (r : Reader) (n : ℕ) : Reader :=
  let x := r.is.readInto r.buff n
  { r with is := x.2, buff := x.1 }

/-- Read a name: its length into `s`, then that many bytes into `buff`. A length beyond the
1025 bytes of `buff` makes `resize` throw or the copies leave the buffer. -/
def Reader.name (r : Reader) : Run (Bytes × Reader) :=
  let r := r.size
  if 1025 < r.sizeValue then .error .undefined
  else .ok ((r.block r.sizeValue).buff.take r.sizeValue, r.block r.sizeValue)

/-- The header part of `deserialize`: `none` when a marker does not match. The type keeps its old
value when there is no byte to read. -/
def readHeader (m : Message) (file : Bytes) : Run (Option (Message × Reader)) := do
  let r : Reader := ⟨InStream.opened file, List.replicate 1025 0, List.replicate 8 0⟩
  let r := r.block 2
  if r.buff.take 2 ≠ MESSAGE_PREFIX then return none
  let (from_, r) ← r.name
  let (to_, r) ← r.name
  let r := { r with is := (r.is.read 8).2 }
  let (type, is) := r.is.readInto [m.type] 1
  let r := { r with is := is }.block 2
  if r.buff.take 2 ≠ MESSAGE_POSTFIX then return none
  return some ({ m with from_ := from_, to_ := to_, type := type.headD 0 }, r)

/-- The name of the file of a message of type 2. `heap` bounds what `new` can allocate. The
terminator stored after a name that is all there falls one past the block. -/
def Reader.filename (r : Reader) (heap : ℕ) : Run (Bytes × Reader) :=
  let r := r.size
  if heap < r.sizeValue then .error .throws
  else
    let x := r.is.read r.sizeValue
    .ok (cstr x.1, { r with is := x.2 })

/-- The path of the body: a temporary one, the one named in the file, or none. -/
def bodyPath (m : Message) (r : Reader) (locate : Bytes) (heap : ℕ) : Run (Bytes × Reader) :=
  if m.type = 2 then r.filename heap
  else if m.type = 0 then .ok (locate, r)
  else .ok ([], r)

/-- The body part of `deserialize`. -/
def readBody (m : Message) (r : Reader) (locate : Bytes) (heap : ℕ) (fs : Files) :
    Run (Bool × Message × Files) :=
  if m.type = 1 then
    let chunks := r.is.chunks 1024 (by decide)
    .ok (true, { m with content := m.content ++ (chunks.map cstr).flatten }, fs)
  else do
    let (locate, r) ← bodyPath m r locate heap
    if locate = [] then return (false, clear, fs)
    if ¬ fs.canWrite locate then return (false, clear, fs)
    return (true, { m with content := locate }, fs.put locate (copyLoop r.is))

/-- `Message::deserialize`: whether the file is accepted, the message and the files afterwards.
`locate` is the path `get_temppath` draws. -/
def deserialize (m : Message) (input locate : Bytes) (heap : ℕ) (fs : Files) :
    Run (Bool × Message × Files) :=
  match fs.openRead input with
  | none => .ok (false, clear, fs)
  | some file => do
    match ← readHeader m file with
    | none => return (false, clear, fs)
    | some (m, r) => readBody m r locate heap fs

/-! ## Well-formed files -/

/-- The reader stands before the bytes `b`, with its buffers in place. -/
structure Reader.At (r : Reader) (b : Bytes) : Prop where
  is_eq : r.is = ⟨b, false⟩
  buff_length : r.buff.length = 1025
  s_length : r.s.length = 8

theorem Reader.At.block {r : Reader} {a b : Bytes} (h : r.At (a ++ b)) (ha : a.length ≤ 1025) :
    (r.block a.length).At b ∧ (r.block a.length).buff.take a.length = a := by
  have hread : r.is.readInto r.buff a.length = (overlay a r.buff, ⟨b, false⟩) := by
    rw [h.is_eq, InStream.readInto_append rfl]
  simp only [Reader.block, hread]
  exact ⟨⟨rfl, by rw [length_overlay (by rw [h.buff_length]; exact ha), h.buff_length],
    h.s_length⟩, take_overlay a r.buff⟩

theorem Reader.At.size {r : Reader} {n : ℕ} (hn : n < 256 ^ 8) {b : Bytes}
    (h : r.At (be 8 n ++ b)) : r.size.At b ∧ r.size.sizeValue = n := by
  have hread : r.is.readInto r.s 8 = (be 8 n, ⟨b, false⟩) := by
    rw [h.is_eq, InStream.readInto_append (length_be 8 n), overlay_of_length]
    rw [h.s_length, length_be]
  simp only [Reader.size, Reader.sizeValue, hread, List.reverse_reverse, ofBE_be_of_lt hn,
    and_true]
  exact ⟨rfl, h.buff_length, by simp⟩

/-- A name that fits the buffer is read as it was written. -/
theorem Reader.At.name {r : Reader} {a b : Bytes} (ha : a.length ≤ 1025)
    (h : r.At (be 8 a.length ++ (a ++ b))) : ∃ r', r.name = .ok (a, r') ∧ r'.At b := by
  obtain ⟨h₁, hs⟩ := h.size (by norm_num; omega)
  obtain ⟨h₂, ht⟩ := h₁.block ha
  refine ⟨r.size.block a.length, ?_, h₂⟩
  rw [Reader.name, hs, if_neg (by omega), ht]

/-- The header of a well-formed file is read as it was written. -/
theorem readHeader_header (m : Message) {from_ to_ : Bytes} (hf : from_.length ≤ 1025)
    (ht : to_.length ≤ 1025) (type : UInt8) (time : ℕ) (body : Bytes) :
    ∃ r, readHeader m (header from_ to_ type time ++ body) =
      .ok (some (⟨from_, to_, type, m.content⟩, r)) ∧ r.At body := by
  have h₀ : Reader.At ⟨InStream.opened (header from_ to_ type time ++ body),
      List.replicate 1025 0, List.replicate 8 0⟩ (header from_ to_ type time ++ body) :=
    ⟨rfl, List.length_replicate, List.length_replicate⟩
  rw [readHeader]
  set r₀ : Reader := ⟨InStream.opened (header from_ to_ type time ++ body),
    List.replicate 1025 0, List.replicate 8 0⟩
  simp only [header, List.append_assoc] at h₀
  obtain ⟨h₁, hp⟩ := h₀.block (by decide)
  rw [show MESSAGE_PREFIX.length = 2 from rfl] at h₁ hp
  obtain ⟨r₂, e₂, h₂⟩ := h₁.name hf
  obtain ⟨r₃, e₃, h₃⟩ := h₂.name ht
  have ht₃ : r₃.is.read 8 = (be 8 time, ⟨[type] ++ (MESSAGE_POSTFIX ++ body), false⟩) := by
    rw [h₃.is_eq, InStream.read_append (length_be 8 time)]
  have hty : InStream.readInto ⟨[type] ++ (MESSAGE_POSTFIX ++ body), false⟩ [m.type] 1 =
      ([type], ⟨MESSAGE_POSTFIX ++ body, false⟩) := by
    rw [InStream.readInto_append (by simp), overlay_of_length (by simp)]
  have h₄ : Reader.At ⟨⟨MESSAGE_POSTFIX ++ body, false⟩, r₃.buff, r₃.s⟩ (MESSAGE_POSTFIX ++ body) :=
    ⟨rfl, h₃.buff_length, h₃.s_length⟩
  obtain ⟨h₅, hq⟩ := h₄.block (by decide)
  rw [show MESSAGE_POSTFIX.length = 2 from rfl] at h₅ hq
  simp only [hp, e₂, e₃, ht₃, hty, hq, Run.ok_bind, ne_eq, not_true, if_false]
  exact ⟨_, rfl, h₅⟩

/-- **Reading a file of type 0**: the body goes to the temporary path. -/
theorem deserialize_packet (m : Message) {input locate from_ to_ body : Bytes} {time : ℕ}
    {fs : Files} (heap : ℕ) (hf : from_.length ≤ 1025) (ht : to_.length ≤ 1025)
    (hfile : fs.openRead input = some (header from_ to_ 0 time ++ body)) (hl : locate ≠ [])
    (hw : fs.canWrite locate) :
    deserialize m input locate heap fs =
      .ok (true, binary from_ to_ locate, fs.put locate body) := by
  obtain ⟨r, hr, hat⟩ := readHeader_header m hf ht 0 time body
  have hbody : copyLoop r.is = body := by rw [hat.is_eq, copyLoop, InStream.flatten_chunks]
  simp [deserialize, hfile, hr, readBody, bodyPath, hl, hw, hbody, binary]

/-- Reading a file of type 1: the blocks of the text are taken for C strings. -/
theorem deserialize_text_blocks (m : Message) {input from_ to_ content : Bytes} {time : ℕ}
    {fs : Files} (locate : Bytes) (heap : ℕ) (hf : from_.length ≤ 1025) (ht : to_.length ≤ 1025)
    (hfile : fs.openRead input = some (header from_ to_ 1 time ++ content)) :
    deserialize m input locate heap fs = .ok (true, text from_ to_ (m.content ++
      (((InStream.opened content).chunks 1024 (by decide)).map cstr).flatten), fs) := by
  obtain ⟨r, hr, hat⟩ := readHeader_header m hf ht 1 time content
  simp [deserialize, hfile, hr, readBody, hat.is_eq, text, InStream.opened]

/-- **Reading a file of type 1** with a NUL-free text. -/
theorem deserialize_text (m : Message) {input from_ to_ content : Bytes} {time : ℕ}
    {fs : Files} (locate : Bytes) (heap : ℕ) (hf : from_.length ≤ 1025) (ht : to_.length ≤ 1025)
    (hfile : fs.openRead input = some (header from_ to_ 1 time ++ content)) (h0 : 0 ∉ content) :
    deserialize m input locate heap fs = .ok (true, text from_ to_ (m.content ++ content), fs) := by
  rw [deserialize_text_blocks m locate heap hf ht hfile, InStream.opened,
    InStream.flatten_cstr_chunks _ h0]

/-- **Writing a message of type 0**: its body is copied behind the header; when the body cannot
be opened the header stays behind and there is no path. -/
theorem serialize_binary (from_ to_ : Bytes) {path locate : Bytes} (time : ℕ) (opens : Bool)
    (fs : Files) (hne : cstr path ≠ cstr locate) :
    serialize (binary from_ to_ path) locate time opens fs =
      match if opens then fs.openRead path else none with
      | some body => (locate, fs.put locate (header from_ to_ 0 time ++ body))
      | none => ([], fs.put locate (header from_ to_ 0 time)) := by
  have hcopy : ∀ body, copyLoop (InStream.opened body) = body := InStream.flatten_chunks _
  have hopen : (if opens then (fs.put locate []).openRead path else none) =
      if opens then fs.openRead path else none := by rw [Files.openRead_put_of_ne hne]
  cases h : (if opens then fs.openRead path else none) <;>
    simp [serialize, binary, hopen, h, hcopy]

theorem serialize_packet (from_ to_ : Bytes) {path locate body : Bytes} (time : ℕ) {fs : Files}
    (hne : cstr path ≠ cstr locate) (hbody : fs.openRead path = some body) :
    serialize (binary from_ to_ path) locate time true fs =
      (locate, fs.put locate (header from_ to_ 0 time ++ body)) := by
  rw [serialize_binary _ _ _ _ _ hne, if_pos rfl, hbody]

/-- **Writing a message of type 1.** -/
theorem serialize_text (from_ to_ content locate : Bytes) (time : ℕ) (opens : Bool) (fs : Files) :
    serialize (text from_ to_ content) locate time opens fs =
      (locate, fs.put locate (header from_ to_ 1 time ++ content)) := by
  simp [serialize, text]

/-- The file that `serialize` returns starts with the header of the message; for a message of type 0
it goes on with the body. -/
theorem serialize_cases {m : Message} {locate file : Bytes} {time : ℕ} {opens : Bool} {fs : Files}
    (hr : fs.readable (cstr locate)) (hw : fs.canWrite locate)
    (hfile : (m.serialize locate time opens fs).2.openRead (m.serialize locate time opens fs).1 =
      some file) :
    ∃ rest, file = header m.from_ m.to_ m.type time ++ rest ∧
      (m.type = 0 → cstr m.content ≠ cstr locate → fs.openRead m.content = some rest) := by
  have hread : ∀ c, ((fs.put locate []).put locate c).openRead locate = some c := by
    intro c
    rw [Files.put_put, Files.openRead_put_self hr hw]
  simp only [serialize] at hfile
  by_cases h2 : m.type = 2
  · have h0 : m.type ≠ 0 := by
      rw [h2]
      decide
    simp only [h2, or_true, if_true] at hfile
    split at hfile
    · simp at hfile
    · rename_i body hbody
      rw [hread] at hfile
      cases hfile
      rw [h2]
      refine ⟨be 8 (basename m.content).1.length ++ ((basename m.content).1 ++
        copyLoop (.opened body)), ?_, fun h => absurd h (by decide)⟩
      simp only [List.append_assoc]
  · by_cases h0 : m.type = 0
    · simp only [if_neg h2, if_pos (Or.inl h0 : m.type = 0 ∨ m.type = 2)] at hfile
      split at hfile
      · simp at hfile
      · rename_i body hbody
        rw [hread] at hfile
        cases hfile
        refine ⟨_, rfl, fun _ hne => ?_⟩
        have hcopy : copyLoop (InStream.opened body) = body := InStream.flatten_chunks _ body
        split_ifs at hbody
        rw [Files.openRead_put_of_ne hne] at hbody
        rw [hcopy, hbody]
    · simp only [if_neg h2, if_neg (not_or.2 ⟨h0, h2⟩)] at hfile
      split_ifs at hfile
      · rw [hread] at hfile
        cases hfile
        exact ⟨_, rfl, fun h => absurd h h0⟩
      · rw [hread] at hfile
        cases hfile
        exact ⟨[], (List.append_nil _).symm, fun h => absurd h h0⟩

/-! ## Files that are accepted -/

section Accepted

variable {r r' : Reader}

/-- A size read whole. -/
theorem Reader.size_whole (hs : r.s.length = 8) (he : r.size.is.eof = false) :
    r.is = ⟨be 8 r.size.sizeValue ++ r.size.is.rest, false⟩ ∧ r.size.s.length = 8 := by
  obtain ⟨hlen, his⟩ := InStream.read_whole r.is 8 he
  have hsize : r.size.s.reverse = (r.is.read 8).1 := by
    simp only [Reader.size, InStream.readInto, List.reverse_reverse]
    exact overlay_of_length (by rw [hs, hlen])
  have hbe := be_ofBE (r.is.read 8).1
  rw [hlen, ← hsize] at hbe
  refine ⟨?_, by rw [← List.length_reverse, hsize, hlen]⟩
  rw [Reader.sizeValue, hbe, hsize]
  exact his

theorem Reader.sizeValue_lt (hs : r.s.length = 8) : r.sizeValue < 256 ^ 8 := by
  have h := ofBE_lt r.s.reverse
  rwa [List.length_reverse, hs] at h

/-- A name of a file that is not empty was read before the end of the stream. -/
theorem Reader.filename_eof {heap : ℕ} {name : Bytes} (h : r.filename heap = .ok (name, r'))
    (hne : name ≠ []) : r.size.is.eof = false ∧ r.is.eof = false := by
  simp only [Reader.filename] at h
  split_ifs at h
  cases h
  have heof : r.size.is.eof = false := by
    by_contra he
    rw [Bool.not_eq_false] at he
    refine hne ?_
    simp [InStream.read, he]
  exact ⟨heof, congrArg InStream.eof (InStream.read_whole r.is 8 heof).2⟩

/-- The name of a file read whole. -/
theorem Reader.filename_whole {heap : ℕ} {name : Bytes} (hs : r.s.length = 8)
    (h : r.filename heap = .ok (name, r')) (hne : name ≠ []) :
    ∃ size rest, size.length = 8 ∧ ofBE size ≤ heap ∧ r.is.rest = size ++ rest ∧
      name = cstr (rest.take (ofBE size)) := by
  have heof := (Reader.filename_eof h hne).1
  obtain ⟨his, hs'⟩ := Reader.size_whole hs heof
  have hvalue : ofBE (be 8 r.size.sizeValue) = r.size.sizeValue :=
    ofBE_be_of_lt (Reader.sizeValue_lt hs')
  have hread : (r.size.is.read r.size.sizeValue).1 = r.size.is.rest.take r.size.sizeValue := by
    have hrest : r.size.is = ⟨r.size.is.rest, false⟩ := by rw [← heof]
    rw [hrest]
    exact InStream.read_fst _ _
  simp only [Reader.filename] at h
  split_ifs at h with hheap
  cases h
  refine ⟨_, _, length_be 8 _, ?_, congrArg InStream.rest his, ?_⟩
  · rw [hvalue]
    exact not_lt.1 hheap
  · rw [hvalue, hread]

/-- The name of a file that is there. -/
theorem Reader.At.filename {size rest : Bytes} {heap : ℕ} (hs : size.length = 8)
    (h : r.At (size ++ rest)) (hheap : ofBE size ≤ heap) :
    ∃ r', r.filename heap = .ok (cstr (rest.take (ofBE size)), r') := by
  have hbe : be 8 (ofBE size) = size := hs ▸ be_ofBE size
  obtain ⟨hat, hvalue⟩ := Reader.At.size (n := ofBE size) (hs ▸ ofBE_lt size) (hbe.symm ▸ h)
  have hread : (r.size.is.read (ofBE size)).1 = rest.take (ofBE size) := by
    rw [hat.is_eq, InStream.read_fst]
  rw [Reader.filename, hvalue, if_neg (not_lt.2 hheap), ← hread]
  exact ⟨_, rfl⟩

/-- The message that `deserialize` reads from a file with an accepted header: its ends and type are
those of the header, and the body of a message of type 0 is at the temporary path. -/
theorem deserialize_cases {m m' : Message} {input locate file : Bytes} {heap : ℕ} {fs fs' : Files}
    {ok : Bool} (hfile : fs.openRead input = some file)
    (h : deserialize m input locate heap fs = .ok (ok, m', fs')) :
    ok = false ∧ m' = clear ∨ ∃ m₁ r, readHeader m file = .ok (some (m₁, r)) ∧
      m'.from_ = m₁.from_ ∧ m'.to_ = m₁.to_ ∧ m'.type = m₁.type ∧
      (m₁.type = 0 → m'.content = locate ∧ fs' = fs.put locate (copyLoop r.is)) := by
  rw [deserialize, hfile] at h
  obtain ⟨header, hheader, h⟩ := Run.bind_eq_ok.1 h
  match header with
  | none =>
    cases h
    exact .inl ⟨rfl, rfl⟩
  | some (m₁, r) =>
    simp only [readBody] at h
    split_ifs at h with htype
    · cases h
      refine .inr ⟨m₁, r, hheader, rfl, rfl, rfl, fun h0 => ?_⟩
      rw [h0] at htype
      exact absurd htype (by decide)
    · obtain ⟨⟨path, r'⟩, hpath, h⟩ := Run.bind_eq_ok.1 h
      dsimp only at h
      split_ifs at h
      · cases h
        exact .inl ⟨rfl, rfl⟩
      · cases h
        refine .inr ⟨m₁, r, hheader, rfl, rfl, rfl, fun h0 => ?_⟩
        have hloc : bodyPath m₁ r locate heap = .ok (locate, r) := by
          rw [bodyPath, h0, if_neg (by decide), if_pos rfl]
        cases hloc.symm.trans hpath
        exact ⟨rfl, rfl⟩
      · cases h
        exact .inl ⟨rfl, rfl⟩

/-- **Reading a file of type 2**: the body goes to the path that the file names. -/
theorem deserialize_named (m : Message) {input from_ to_ name body : Bytes} {time heap : ℕ}
    {fs : Files} (locate : Bytes) (hf : from_.length ≤ 1025) (ht : to_.length ≤ 1025)
    (hn : name.length < 256 ^ 8) (hheap : name.length ≤ heap)
    (hfile : fs.openRead input =
      some (header from_ to_ 2 time ++ (be 8 name.length ++ (name ++ body))))
    (hne : cstr name ≠ []) (hw : fs.canWrite (cstr name)) :
    deserialize m input locate heap fs =
      .ok (true, ⟨from_, to_, 2, cstr name⟩, fs.put (cstr name) body) := by
  obtain ⟨r, hr, hat⟩ := readHeader_header m hf ht 2 time (be 8 name.length ++ (name ++ body))
  obtain ⟨hat', hvalue⟩ := hat.size hn
  have hread : r.size.is.read name.length = (name, ⟨body, false⟩) := by
    rw [hat'.is_eq, InStream.read_append rfl]
  have hname : r.filename heap = .ok (cstr name, { r.size with is := ⟨body, false⟩ }) := by
    rw [Reader.filename, hvalue, if_neg (not_lt.2 hheap), hread]
  have hcopy : copyLoop ⟨body, false⟩ = body := InStream.flatten_chunks _ body
  simp [deserialize, hfile, hr, readBody, bodyPath, hname, hne, hw, hcopy]

end Accepted

end Message

end Onion5
