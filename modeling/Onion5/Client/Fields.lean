import Onion5.Client.Message

/-!
# The fields of a message file

What `deserialize` makes of any file. Its reads ask for the fields one after the other, so where
each field is read depends on the file only, also when the file ends before it: what is missing
keeps the bytes that the destination had before, which for the sizes are those of the size before
it, swapped, and for the names and markers those of the fields that used the buffer before.

* `readHeader_eq`: the header part of `deserialize`, field by field.
* `accepted_type_iff`, `accepted_no_type_iff`: which files have a header that is accepted.
* `readHeader_whole`: a header that is accepted was there, unless the file ends within it.
-/

namespace Onion5

namespace Message

/-! ## Positions -/

section Positions

variable (file : Bytes)

/-- The bytes of the size of the sender. -/
def fromField : Bytes := overlay ((file.drop 2).take 8) (List.replicate 8 0)

/-- The size of the sender. -/
def fromLength : ℕ := ofBE (fromField file)

/-- The bytes of the size of the recipient, read over those of the size before. -/
def toField : Bytes :=
  overlay ((file.drop (10 + fromLength file)).take 8) (fromField file).reverse

/-- The size of the recipient. -/
def toLength : ℕ := ofBE (toField file)

/-- The buffer after the prefix has been read. -/
def prefixBuff : Bytes := overlay (file.take 2) (List.replicate 1025 0)

/-- The buffer after the sender has been read. -/
def fromBuff : Bytes := overlay ((file.drop 10).take (fromLength file)) (prefixBuff file)

/-- The buffer after the recipient has been read. -/
def toBuff : Bytes :=
  overlay ((file.drop (18 + fromLength file)).take (toLength file)) (fromBuff file)

/-- The byte of the type, if the file has it. -/
def typeByte : Option UInt8 := (file.drop (26 + fromLength file + toLength file)).head?

/-- The buffer after the postfix has been read. -/
def postfixBuff : Bytes :=
  overlay ((file.drop (27 + fromLength file + toLength file)).take 2) (toBuff file)

/-- How many bytes the header asks for. -/
def headerLength : ℕ := 29 + fromLength file + toLength file

/-- The size of the name of a file, read behind the header over the bytes of the size before. -/
def nameLength : ℕ :=
  ofBE (overlay ((file.drop (headerLength file)).take 8) (toField file).reverse)

/-- The reader after the header. -/
def bodyReader : Reader :=
  ⟨InStream.seek file (headerLength file), postfixBuff file, (toField file).reverse⟩

end Positions

section Reading

variable (file buff s : Bytes) (p : ℕ)

theorem Reader.block_seek (n : ℕ) : Reader.block ⟨InStream.seek file p, buff, s⟩ n =
    ⟨InStream.seek file (p + n), overlay ((file.drop p).take n) buff, s⟩ := by
  simp only [Reader.block, InStream.readInto_seek]

theorem Reader.size_seek : Reader.size ⟨InStream.seek file p, buff, s⟩ =
    ⟨InStream.seek file (p + 8), buff, (overlay ((file.drop p).take 8) s).reverse⟩ := by
  simp only [Reader.size, InStream.readInto_seek]

theorem Reader.name_seek {field : Bytes} (hfield : overlay ((file.drop p).take 8) s = field) :
    Reader.name ⟨InStream.seek file p, buff, s⟩ =
      if 1025 < ofBE field then .error .undefined
      else .ok ((overlay ((file.drop (p + 8)).take (ofBE field)) buff).take (ofBE field),
        ⟨InStream.seek file (p + 8 + ofBE field),
          overlay ((file.drop (p + 8)).take (ofBE field)) buff, field.reverse⟩) := by
  rw [Reader.name, Reader.size_seek, hfield]
  simp only [Reader.sizeValue, List.reverse_reverse, Reader.block_seek]

end Reading

/-- The prefix has no NUL byte, so the buffer does not make up for a missing part of it. -/
theorem take_prefixBuff_iff (file : Bytes) :
    (prefixBuff file).take 2 = MESSAGE_PREFIX ↔ file.take 2 = MESSAGE_PREFIX := by
  have hzeros : List.replicate 1025 (0 : UInt8) = 0 :: 0 :: List.replicate 1023 0 := rfl
  rw [prefixBuff, hzeros]
  generalize List.replicate 1023 (0 : UInt8) = zeros
  match file with
  | [] => simp [overlay, MESSAGE_PREFIX]
  | [c] => simp [overlay, MESSAGE_PREFIX]
  | c :: c' :: file => simp [overlay]

/-- A byte that is read, or the one that was there before. -/
theorem headD_overlay (b : Bytes) (x : UInt8) :
    (overlay (b.take 1) [x]).headD 0 = b.head?.getD x := by
  cases b <;> rfl

theorem fromName_eq (file : Bytes) :
    Reader.name ⟨InStream.seek file 2, prefixBuff file, List.replicate 8 0⟩ =
      if 1025 < fromLength file then .error .undefined
      else .ok ((fromBuff file).take (fromLength file),
        ⟨InStream.seek file (10 + fromLength file), fromBuff file, (fromField file).reverse⟩) :=
  Reader.name_seek file _ _ 2 rfl

theorem toName_eq (file : Bytes) :
    Reader.name ⟨InStream.seek file (10 + fromLength file), fromBuff file,
        (fromField file).reverse⟩ =
      if 1025 < toLength file then .error .undefined
      else .ok ((toBuff file).take (toLength file),
        ⟨InStream.seek file (18 + fromLength file + toLength file), toBuff file,
          (toField file).reverse⟩) := by
  have hpos : 10 + fromLength file + 8 = 18 + fromLength file := by omega
  have hname := Reader.name_seek file (fromBuff file) (fromField file).reverse
    (10 + fromLength file) rfl
  rw [hpos] at hname
  exact hname

/-- The name of a file, behind the header. -/
theorem filename_bodyReader (file : Bytes) (heap : ℕ) : (bodyReader file).filename heap =
    if heap < nameLength file then .error .throws
    else .ok (cstr ((file.drop (headerLength file + 8)).take (nameLength file)),
      ⟨InStream.seek file (headerLength file + 8 + nameLength file), postfixBuff file,
        (overlay ((file.drop (headerLength file)).take 8) (toField file).reverse).reverse⟩) := by
  rw [Reader.filename, bodyReader, Reader.size_seek]
  simp only [Reader.sizeValue, List.reverse_reverse, InStream.read_seek]
  rfl

/-- **The header part of `deserialize`**, field by field. -/
theorem readHeader_eq (m : Message) (file : Bytes) : readHeader m file =
    if file.take 2 ≠ MESSAGE_PREFIX then .ok none
    else if 1025 < fromLength file then .error .undefined
    else if 1025 < toLength file then .error .undefined
    else if (postfixBuff file).take 2 ≠ MESSAGE_POSTFIX then .ok none
    else .ok (some (⟨(fromBuff file).take (fromLength file), (toBuff file).take (toLength file),
      (typeByte file).getD m.type, m.content⟩, bodyReader file)) := by
  rw [readHeader, ← InStream.seek_zero]
  simp only [Reader.block_seek, Nat.zero_add, List.drop_zero]
  change (if (prefixBuff file).take 2 ≠ MESSAGE_PREFIX then _ else
    Reader.name ⟨InStream.seek file 2, prefixBuff file, List.replicate 8 0⟩ >>= _) = _
  simp only [Ne, take_prefixBuff_iff]
  by_cases hpre : file.take 2 = MESSAGE_PREFIX
  · rw [if_neg (not_not.2 hpre), if_neg (not_not.2 hpre), fromName_eq]
    by_cases hfrom : 1025 < fromLength file
    · rw [if_pos hfrom, if_pos hfrom]
      rfl
    · rw [if_neg hfrom, if_neg hfrom, Run.ok_bind, toName_eq]
      by_cases hto : 1025 < toLength file
      · rw [if_pos hto, if_pos hto]
        rfl
      · have htype : 18 + fromLength file + toLength file + 8 =
            26 + fromLength file + toLength file := by omega
        have hpostfix : 26 + fromLength file + toLength file + 1 =
            27 + fromLength file + toLength file := by omega
        have hbody : 27 + fromLength file + toLength file + 2 = headerLength file := by
          rw [headerLength]
          omega
        rw [if_neg hto, if_neg hto, Run.ok_bind]
        simp only [InStream.read_seek, InStream.readInto_seek, Reader.block_seek]
        rw [headD_overlay, htype, hpostfix, hbody]
        rfl
  · rw [if_pos hpre, if_pos hpre]
    rfl

/-- The names that a file with the right prefix announces fit the buffer. -/
def NamesFit (file : Bytes) : Prop :=
  file.take 2 = MESSAGE_PREFIX → fromLength file ≤ 1025 ∧ toLength file ≤ 1025

/-- **The header part is defined** exactly when the names fit the buffer. -/
theorem readHeader_defined_iff (m : Message) (file : Bytes) :
    (∃ x, readHeader m file = .ok x) ↔ NamesFit file := by
  rw [readHeader_eq, NamesFit]
  split_ifs with hpre hfrom hto hpost
  · exact iff_of_true ⟨_, rfl⟩ fun h => absurd h hpre
  · exact iff_of_false nofun fun h => by have := h (not_not.1 hpre); omega
  · exact iff_of_false nofun fun h => by have := h (not_not.1 hpre); omega
  · exact iff_of_true ⟨_, rfl⟩ fun _ => ⟨not_lt.1 hfrom, not_lt.1 hto⟩
  · exact iff_of_true ⟨_, rfl⟩ fun _ => ⟨not_lt.1 hfrom, not_lt.1 hto⟩

theorem readHeader_of_not_namesFit {file : Bytes} (h : ¬ NamesFit file) (m : Message) :
    readHeader m file = .error .undefined := by
  have hno := mt (readHeader_defined_iff m file).1 h
  rw [readHeader_eq] at hno ⊢
  split_ifs at hno ⊢
  · exact absurd ⟨_, rfl⟩ hno
  · rfl
  · rfl
  · exact absurd ⟨_, rfl⟩ hno
  · exact absurd ⟨_, rfl⟩ hno

/-- The header of the file is accepted. -/
structure HeaderAccepted (file : Bytes) : Prop where
  take_two : file.take 2 = MESSAGE_PREFIX
  fromLength_le : fromLength file ≤ 1025
  toLength_le : toLength file ≤ 1025
  take_postfixBuff : (postfixBuff file).take 2 = MESSAGE_POSTFIX

/-- What is read from a header that is accepted. -/
theorem readHeader_of_accepted {file : Bytes} (h : HeaderAccepted file) (m : Message) :
    readHeader m file = .ok (some (⟨(fromBuff file).take (fromLength file),
      (toBuff file).take (toLength file), (typeByte file).getD m.type, m.content⟩,
      bodyReader file)) := by
  rw [readHeader_eq, if_neg (not_not.2 h.take_two), if_neg (not_lt.2 h.fromLength_le),
    if_neg (not_lt.2 h.toLength_le), if_neg (not_not.2 h.take_postfixBuff)]

theorem HeaderAccepted.namesFit {file : Bytes} (h : HeaderAccepted file) : NamesFit file :=
  fun _ => ⟨h.fromLength_le, h.toLength_le⟩

theorem accepted_of_readHeader {m : Message} {file : Bytes} {x : Message × Reader}
    (h : readHeader m file = .ok (some x)) : HeaderAccepted file := by
  rw [readHeader_eq] at h
  split_ifs at h with hpre hfrom hto hpost
  · cases h
  · cases h
  · exact ⟨not_not.1 hpre, not_lt.1 hfrom, not_lt.1 hto, not_not.1 hpost⟩

theorem reader_of_readHeader {m m₁ : Message} {file : Bytes} {r : Reader}
    (h : readHeader m file = .ok (some (m₁, r))) : r = bodyReader file := by
  rw [readHeader_of_accepted (accepted_of_readHeader h)] at h
  cases h
  rfl

/-- A header that is not accepted is not, whatever the message was before. -/
theorem readHeader_of_not_accepted {file : Bytes} (h : ¬ HeaderAccepted file) (m₁ m₂ : Message) :
    readHeader m₁ file = readHeader m₂ file := by
  rw [readHeader_eq, readHeader_eq]
  split_ifs with hpre hfrom hto hpost
  · rfl
  · rfl
  · rfl
  · rfl
  · exact absurd ⟨not_not.1 hpre, not_lt.1 hfrom, not_lt.1 hto, not_not.1 hpost⟩ h

/-! ## The sender -/

/-- A file whose sender is all there, and what follows it. -/
def opening (from_ rest : Bytes) : Bytes :=
  MESSAGE_PREFIX ++ (be 8 from_.length ++ (from_ ++ rest))

/-- A size whose swapped bytes are a small size as well is 0. -/
theorem eq_zero_of_reverse_be {n : ℕ} (hn : n ≤ 1025) (h : ofBE (be 8 n).reverse ≤ 1025) :
    n = 0 := by
  have hzero : n / 256 / 256 = 0 := by omega
  simp [be, ofBE, hzero] at h
  omega

theorem length_field {s : Bytes} (hs : s.length = 8) (b : Bytes) :
    (overlay (b.take 8) s).length = 8 := by
  rw [length_overlay (by rw [List.length_take, hs]; omega), hs]

theorem length_fromField (file : Bytes) : (fromField file).length = 8 :=
  length_field List.length_replicate _

theorem length_toField (file : Bytes) : (toField file).length = 8 :=
  length_field (by rw [List.length_reverse, length_fromField]) _

theorem be_fromLength (file : Bytes) : be 8 (fromLength file) = fromField file :=
  be_ofBE_of_length (length_fromField file)

theorem be_toLength (file : Bytes) : be 8 (toLength file) = toField file :=
  be_ofBE_of_length (length_toField file)

/-- **The sender of a header that is accepted is all there.** A file that ends before would have no
names, and the prefix in the place of the postfix. -/
theorem HeaderAccepted.length_le {file : Bytes} (h : HeaderAccepted file) :
    10 + fromLength file ≤ file.length := by
  by_contra hlt
  rw [not_le] at hlt
  have hto : toField file = (fromField file).reverse := by
    rw [toField, List.drop_eq_nil_of_le hlt.le]
    rfl
  have hfrom : fromLength file = 0 := by
    refine eq_zero_of_reverse_be h.fromLength_le ?_
    rw [be_fromLength, ← hto]
    exact h.toLength_le
  have hto' : toLength file = 0 := by
    rw [toLength, hto, ← be_fromLength, hfrom]
    rfl
  have hbuff : postfixBuff file = prefixBuff file := by
    rw [postfixBuff, toBuff, fromBuff, hfrom, hto', List.take_zero, List.take_zero,
      List.drop_eq_nil_of_le (by omega)]
    rfl
  have hpost := h.take_postfixBuff
  rw [hbuff, (take_prefixBuff_iff file).2 h.take_two] at hpost
  exact absurd hpost (by decide)

/-- **A header that is accepted** starts with a sender. -/
theorem HeaderAccepted.exists_opening {file : Bytes} (h : HeaderAccepted file) :
    ∃ from_ rest : Bytes, from_.length ≤ 1025 ∧ file = opening from_ rest := by
  have hlen := h.length_le
  have hfield : fromField file = (file.drop 2).take 8 :=
    overlay_of_length (by
      simp only [List.length_take, List.length_drop, List.length_replicate]
      omega)
  have hsender : ((file.drop 10).take (fromLength file)).length = fromLength file :=
    List.length_take_of_le (by rw [List.length_drop]; omega)
  refine ⟨(file.drop 10).take (fromLength file), file.drop (10 + fromLength file),
    hsender.le.trans h.fromLength_le, ?_⟩
  rw [opening, hsender, be_fromLength, hfield, ← List.drop_drop, List.take_append_drop,
    show file.drop 10 = (file.drop 2).drop 8 by rw [List.drop_drop], List.take_append_drop,
    ← h.take_two, List.take_append_drop]

/-! ## The recipient -/

/-- The size of the recipient that is read behind the sender, over its size with the bytes
swapped. -/
def sizeBehind (from_ rest : Bytes) : ℕ := ofBE (overlay (rest.take 8) (be 8 from_.length).reverse)

/-- The first two bytes of the buffer after the names have been read. -/
def leftover (from_ to_ : Bytes) : Bytes := (overlay to_ (overlay from_ MESSAGE_PREFIX)).take 2

section Opening

variable {f z : Bytes}

theorem drop_opening (f z : Bytes) (k : ℕ) :
    (opening f z).drop (10 + f.length + k) = z.drop k := by
  have hlen : (MESSAGE_PREFIX ++ (be 8 f.length ++ f)).length = 10 + f.length := by
    simp only [List.length_append, length_be, MESSAGE_PREFIX, List.length_cons, List.length_nil]
    omega
  have hsplit : opening f z = MESSAGE_PREFIX ++ (be 8 f.length ++ f) ++ z := by
    simp only [opening, List.append_assoc]
  rw [hsplit, ← hlen, List.drop_length_add_append]

theorem fromField_opening (f z : Bytes) : fromField (opening f z) = be 8 f.length := by
  have htake : ((opening f z).drop 2).take 8 = be 8 f.length := List.take_left' (length_be _ _)
  rw [fromField, htake]
  exact overlay_of_length (by rw [length_be, List.length_replicate])

theorem fromLength_opening (hf : f.length ≤ 1025) : fromLength (opening f z) = f.length := by
  rw [fromLength, fromField_opening, ofBE_be_of_lt (by norm_num; omega)]

theorem fromBuff_opening (hf : f.length ≤ 1025) :
    fromBuff (opening f z) = overlay f (prefixBuff (opening f z)) := by
  have hdrop : (opening f z).drop 10 = f ++ z := by
    rw [show (opening f z).drop 10 = ((opening f z).drop 2).drop 8 by rw [List.drop_drop]]
    exact List.drop_left' (length_be _ _)
  rw [fromBuff, fromLength_opening hf, hdrop, List.take_left]

theorem toLength_opening (hf : f.length ≤ 1025) : toLength (opening f z) = sizeBehind f z := by
  rw [toLength, toField, fromLength_opening hf, fromField_opening]
  exact congrArg (fun b : Bytes => ofBE (overlay (b.take 8) _)) (drop_opening f z 0)

theorem toBuff_opening (hf : f.length ≤ 1025) : toBuff (opening f z) =
    overlay ((z.drop 8).take (sizeBehind f z)) (overlay f (prefixBuff (opening f z))) := by
  rw [toBuff, toLength_opening hf, fromLength_opening hf, fromBuff_opening hf,
    show 18 + f.length = 10 + f.length + 8 by omega, drop_opening]

theorem typeByte_opening (hf : f.length ≤ 1025) :
    typeByte (opening f z) = (z.drop (16 + sizeBehind f z)).head? := by
  rw [typeByte, toLength_opening hf, fromLength_opening hf,
    show 26 + f.length + sizeBehind f z = 10 + f.length + (16 + sizeBehind f z) by omega,
    drop_opening]

theorem take_overlay_take (a b : Bytes) (k : ℕ) :
    (overlay a (b.take k)).take k = (overlay a b).take k := by
  simp only [overlay, List.take_append, List.drop_take, List.take_take, min_self]

theorem take_prefixBuff_opening (f z : Bytes) :
    (prefixBuff (opening f z)).take 2 = MESSAGE_PREFIX :=
  (take_prefixBuff_iff _).2 (List.take_left' rfl)

theorem take_overlay_names (f t z : Bytes) :
    (overlay t (overlay f (prefixBuff (opening f z)))).take 2 = leftover f t := by
  rw [leftover, ← take_prefixBuff_opening f z, ← take_overlay_take t, ← take_overlay_take f,
    take_overlay_take t]

theorem take_postfixBuff_opening (hf : f.length ≤ 1025) : (postfixBuff (opening f z)).take 2 =
    (overlay ((z.drop (17 + sizeBehind f z)).take 2)
      (leftover f ((z.drop 8).take (sizeBehind f z)))).take 2 := by
  rw [postfixBuff, toLength_opening hf, fromLength_opening hf, toBuff_opening hf,
    show 27 + f.length + sizeBehind f z = 10 + f.length + (17 + sizeBehind f z) by omega,
    drop_opening, ← take_overlay_take, take_overlay_names]

/-- A header with all of its sender is accepted when the recipient fits the buffer and the postfix
is there or in the buffer. -/
theorem accepted_opening_iff (hf : f.length ≤ 1025) :
    HeaderAccepted (opening f z) ↔ sizeBehind f z ≤ 1025 ∧
      (overlay ((z.drop (17 + sizeBehind f z)).take 2)
        (leftover f ((z.drop 8).take (sizeBehind f z)))).take 2 = MESSAGE_POSTFIX := by
  constructor
  · intro h
    rw [← take_postfixBuff_opening hf, ← toLength_opening hf]
    exact ⟨h.toLength_le, h.take_postfixBuff⟩
  · rintro ⟨hsize, hpost⟩
    refine ⟨List.take_left' rfl, ?_, ?_, ?_⟩
    · rwa [fromLength_opening hf]
    · rwa [toLength_opening hf]
    · rwa [take_postfixBuff_opening hf]

end Opening

/-! ## The type and the postfix -/

theorem length_leftover (f t : Bytes) : (leftover f t).length = 2 := by
  have hprefix : MESSAGE_PREFIX.length = 2 := rfl
  simp only [leftover, overlay, List.length_take, List.length_append, List.length_drop]
  omega

/-- The file of the header of which all is there but the end of the postfix, for which the buffer
makes up. -/
def CutPostfix (type : UInt8) (file : Bytes) : Prop :=
  ∃ (f t missing : Bytes) (time : ℕ), f.length ≤ 1025 ∧ t.length ≤ 1025 ∧ missing ≠ [] ∧
    missing <:+ MESSAGE_POSTFIX ∧ missing <:+ leftover f t ∧ file ++ missing = header f t type time

/-- The file starts with a header. -/
def StartsWithHeader (type : UInt8) (file : Bytes) : Prop :=
  ∃ (f t body : Bytes) (time : ℕ), f.length ≤ 1025 ∧ t.length ≤ 1025 ∧
    file = header f t type time ++ body

/-- The file ends before its type, and the postfix is in the buffer. The size of the recipient is
read as `n`. -/
def EndsBeforeType (file : Bytes) (n : ℕ) : Prop :=
  ∃ f z : Bytes, f.length ≤ 1025 ∧ file = opening f z ∧ n = sizeBehind f z ∧ n ≤ 1025 ∧
    z.length ≤ 16 + n ∧ leftover f ((z.drop 8).take n) = MESSAGE_POSTFIX

section Typed

variable {f t w z : Bytes} {type : UInt8} {time : ℕ}

/-- What follows the sender when the file goes on to its type. -/
def typed (t : Bytes) (time : ℕ) (type : UInt8) (w : Bytes) : Bytes :=
  be 8 t.length ++ (t ++ (be 8 time ++ type :: w))

theorem opening_typed (f t : Bytes) (time : ℕ) (type : UInt8) (body : Bytes) :
    opening f (typed t time type (MESSAGE_POSTFIX ++ body)) = header f t type time ++ body := by
  simp only [opening, typed, header, List.append_assoc, List.cons_append, List.nil_append]

theorem drop_typed (t : Bytes) (time : ℕ) (type : UInt8) (w : Bytes) (k : ℕ) :
    (typed t time type w).drop (16 + t.length + k) = (type :: w).drop k := by
  have hlen : (be 8 t.length ++ (t ++ be 8 time)).length = 16 + t.length := by
    simp only [List.length_append, length_be]
    omega
  have hsplit : typed t time type w = be 8 t.length ++ (t ++ be 8 time) ++ type :: w := by
    simp only [typed, List.append_assoc]
  rw [hsplit, ← hlen, List.drop_length_add_append]

theorem sizeBehind_typed (ht : t.length ≤ 1025) :
    sizeBehind f (typed t time type w) = t.length := by
  have htake : (typed t time type w).take 8 = be 8 t.length := List.take_left' (length_be _ _)
  rw [sizeBehind, htake, overlay_of_length (by simp), ofBE_be_of_lt (by norm_num; omega)]

/-- The recipient of a file that goes on to its type. -/
theorem take_typed (t : Bytes) (time : ℕ) (type : UInt8) (w : Bytes) :
    ((typed t time type w).drop 8).take t.length = t := by
  have hdrop : (typed t time type w).drop 8 = t ++ (be 8 time ++ type :: w) :=
    List.drop_left' (length_be _ _)
  rw [hdrop, List.take_left]

/-- What follows the sender, when there is a byte in the place of the type. -/
theorem exists_typed (htype : (z.drop (16 + sizeBehind f z)).head? = some type) :
    ∃ (t w : Bytes) (time : ℕ), t.length = sizeBehind f z ∧ z = typed t time type w := by
  set n := sizeBehind f z with hn
  obtain ⟨w, hw⟩ : ∃ w, z.drop (16 + n) = type :: w := by
    cases h : z.drop (16 + n) with
    | nil => rw [h] at htype; cases htype
    | cons c w => rw [h] at htype; cases htype; exact ⟨w, rfl⟩
  have hlen : 16 + n < z.length := by
    by_contra hle
    rw [List.drop_eq_nil_of_le (not_lt.1 hle)] at hw
    cases hw
  have hsize : (z.take 8).length = 8 := List.length_take_of_le (by omega)
  have hbe : be 8 n = z.take 8 := by
    rw [hn, sizeBehind, overlay_of_length (by rw [hsize]; simp), be_ofBE_of_length hsize]
  have ht : ((z.drop 8).take n).length = n :=
    List.length_take_of_le (by rw [List.length_drop]; omega)
  have hstamp : (((z.drop 8).drop n).take 8).length = 8 :=
    List.length_take_of_le (by simp only [List.length_drop]; omega)
  refine ⟨(z.drop 8).take n, w, ofBE (((z.drop 8).drop n).take 8), ht, ?_⟩
  have hrest : ((z.drop 8).drop n).drop 8 = type :: w := by
    rw [List.drop_drop, List.drop_drop, ← hw]
    congr 1
    omega
  rw [typed, ht, hbe, be_ofBE_of_length hstamp, ← hrest, List.take_append_drop,
    List.take_append_drop, List.take_append_drop]

theorem accepted_typed_iff (hf : f.length ≤ 1025) (ht : t.length ≤ 1025) :
    HeaderAccepted (opening f (typed t time type w)) ↔
      (overlay (w.take 2) (leftover f t)).take 2 = MESSAGE_POSTFIX := by
  have hdrop := drop_typed t time type w 1
  rw [show 16 + t.length + 1 = 17 + t.length by omega] at hdrop
  rw [accepted_opening_iff hf, sizeBehind_typed ht, take_typed, hdrop, List.drop_one,
    List.tail_cons]
  exact and_iff_right ht

/-- A postfix that is accepted is there, or its end is in the buffer. -/
theorem overlay_postfix_iff {l : Bytes} (hl : l.length = 2) :
    (overlay (w.take 2) l).take 2 = MESSAGE_POSTFIX ↔ (∃ body, w = MESSAGE_POSTFIX ++ body) ∨
      ∃ missing, missing ≠ [] ∧ missing <:+ l ∧ w ++ missing = MESSAGE_POSTFIX := by
  obtain ⟨x, y, rfl⟩ := List.length_eq_two.1 hl
  match w with
  | [] =>
    constructor
    · intro h
      exact .inr ⟨[x, y], List.cons_ne_nil _ _, List.suffix_rfl, h⟩
    · rintro (⟨body, h⟩ | ⟨missing, -, hsuffix, h⟩)
      · cases h
      · rw [List.nil_append] at h
        rw [← h]
        exact (hsuffix.eq_of_length (by rw [h]; rfl)).symm
  | [c] =>
    constructor
    · intro h
      exact .inr ⟨[y], List.cons_ne_nil _ _, ⟨[x], rfl⟩, h⟩
    · rintro (⟨body, h⟩ | ⟨missing, -, hsuffix, h⟩)
      · cases h
      · have hlen : missing.length = 1 := by
          have := congrArg List.length h
          simpa [MESSAGE_POSTFIX] using this
        obtain ⟨y', rfl⟩ := List.length_eq_one_iff.1 hlen
        obtain ⟨start, hstart⟩ := hsuffix
        have hlast : y' = y := by simpa using congrArg List.getLast? hstart
        rw [← h, hlast]
        rfl
  | c :: c' :: body =>
    constructor
    · intro h
      exact .inl ⟨body, by rw [← h]; rfl⟩
    · rintro (⟨body', h⟩ | ⟨missing, hne, -, h⟩)
      · cases h
        rfl
      · have hlen := congrArg List.length h
        have hpos := List.length_pos_of_ne_nil hne
        simp only [MESSAGE_POSTFIX, List.length_append, List.length_cons, List.length_nil] at hlen
        omega

/-- A header of which all is there but the end of the postfix. -/
theorem header_of_cut {missing : Bytes} (h : w ++ missing = MESSAGE_POSTFIX) :
    opening f (typed t time type w) ++ missing = header f t type time := by
  have hheader := opening_typed f t time type []
  rw [List.append_nil, List.append_nil, ← h] at hheader
  rw [← hheader]
  simp only [opening, typed, List.append_assoc, List.cons_append]

end Typed

/-- **A header is accepted** and has a type exactly when it is there, or all of it but the end of
the postfix, for which the buffer makes up. -/
theorem accepted_type_iff {file : Bytes} {type : UInt8} :
    HeaderAccepted file ∧ typeByte file = some type ↔
      StartsWithHeader type file ∨ CutPostfix type file := by
  constructor
  · rintro ⟨hacc, htype⟩
    obtain ⟨f, z, hf, rfl⟩ := hacc.exists_opening
    rw [typeByte_opening hf] at htype
    obtain ⟨t, w, time, ht, rfl⟩ := exists_typed htype
    have htl : t.length ≤ 1025 := ht ▸ ((accepted_opening_iff hf).1 hacc).1
    rw [accepted_typed_iff hf htl, overlay_postfix_iff (length_leftover f t)] at hacc
    obtain ⟨body, rfl⟩ | ⟨missing, hne, hsuffix, hpost⟩ := hacc
    · exact .inl ⟨f, t, body, time, hf, htl, opening_typed f t time type body⟩
    · exact .inr ⟨f, t, missing, time, hf, htl, hne, ⟨w, hpost⟩, hsuffix, header_of_cut hpost⟩
  · have key : ∀ {f t w : Bytes} {time : ℕ}, f.length ≤ 1025 → t.length ≤ 1025 →
        (overlay (w.take 2) (leftover f t)).take 2 = MESSAGE_POSTFIX →
        HeaderAccepted (opening f (typed t time type w)) ∧
          typeByte (opening f (typed t time type w)) = some type := by
      intro f t w time hf ht hpost
      have hdrop := drop_typed t time type w 0
      rw [Nat.add_zero, List.drop_zero] at hdrop
      rw [typeByte_opening hf, sizeBehind_typed ht, hdrop]
      exact ⟨(accepted_typed_iff hf ht).2 hpost, rfl⟩
    rintro (⟨f, t, body, time, hf, ht, rfl⟩ |
      ⟨f, t, missing, time, hf, ht, hne, ⟨w, hw⟩, hsuffix, hfile⟩)
    · rw [← opening_typed]
      exact key hf ht ((overlay_postfix_iff (length_leftover f t)).2 (.inl ⟨body, rfl⟩))
    · rw [← header_of_cut hw] at hfile
      rw [List.append_cancel_right hfile]
      exact key hf ht ((overlay_postfix_iff (length_leftover f t)).2
        (.inr ⟨missing, hne, hsuffix, hw⟩))

/-- A header is accepted without a type exactly when the file ends before its type. -/
theorem accepted_no_type_iff {file : Bytes} {n : ℕ} :
    (HeaderAccepted file ∧ typeByte file = none) ∧ toLength file = n ↔ EndsBeforeType file n := by
  constructor
  · rintro ⟨⟨hacc, htype⟩, rfl⟩
    obtain ⟨f, z, hf, rfl⟩ := hacc.exists_opening
    obtain ⟨hsize, hpost⟩ := (accepted_opening_iff hf).1 hacc
    rw [typeByte_opening hf, List.head?_eq_none_iff, List.drop_eq_nil_iff] at htype
    rw [toLength_opening hf]
    refine ⟨f, z, hf, rfl, rfl, hsize, htype, ?_⟩
    rw [List.drop_eq_nil_of_le (by omega)] at hpost
    rw [← hpost, List.take_nil]
    exact (List.take_of_length_le (length_leftover f _).le).symm
  · rintro ⟨f, z, hf, rfl, rfl, hsize, hlen, hpost⟩
    refine ⟨⟨(accepted_opening_iff hf).2 ⟨hsize, ?_⟩, ?_⟩, toLength_opening hf⟩
    · rw [List.drop_eq_nil_of_le (by omega), List.take_nil, hpost]
      rfl
    · rw [typeByte_opening hf, List.drop_eq_nil_of_le hlen]
      rfl

/-! ## The end of the header -/

/-- A file that starts with a header does not end before its body. -/
theorem bodyReader_of_startsWithHeader {file : Bytes} {type : UInt8}
    (h : StartsWithHeader type file) :
    (bodyReader file).is.eof = false := by
  obtain ⟨f, t, body, time, hf, ht, rfl⟩ := h
  obtain ⟨r, hr, hat⟩ := readHeader_header clear hf ht type time body
  rw [← reader_of_readHeader hr, hat.is_eq]

/-- A file that ends within its postfix does. -/
theorem bodyReader_of_cutPostfix {file : Bytes} {type : UInt8}
    (h : CutPostfix type file) :
    (bodyReader file).is = ⟨[], true⟩ := by
  obtain ⟨f, t, missing, time, hf, ht, hne, ⟨w, hw⟩, -, hfile⟩ := h
  rw [← header_of_cut hw] at hfile
  obtain rfl := List.append_cancel_right hfile
  have hpos := List.length_pos_of_ne_nil hne
  have hlen := congrArg List.length hw
  refine InStream.seek_of_lt ?_
  rw [headerLength, fromLength_opening hf, toLength_opening hf, sizeBehind_typed ht]
  simp only [opening, typed, MESSAGE_PREFIX, MESSAGE_POSTFIX, List.length_append, List.length_cons,
    List.length_nil, length_be] at hlen ⊢
  omega

/-- **A header that is accepted was there**, unless the file ends within it. -/
theorem readHeader_whole {m m' : Message} {file : Bytes} {r : Reader}
    (h : readHeader m file = .ok (some (m', r))) (he : r.is.eof = false) :
    m'.from_.length ≤ 1025 ∧ m'.to_.length ≤ 1025 ∧ r.s.length = 8 ∧
      ∃ time, file = header m'.from_ m'.to_ m'.type time ++ r.is.rest := by
  have hacc := accepted_of_readHeader h
  have hr := reader_of_readHeader h
  have hlen : headerLength file ≤ file.length := by
    rw [hr] at he
    exact not_lt.1 (of_decide_eq_false he)
  have htype : ∃ type, typeByte file = some type := by
    rw [headerLength] at hlen
    exact ⟨_, List.head?_eq_some_head (List.ne_nil_of_length_pos (by
      rw [List.length_drop]
      omega))⟩
  obtain ⟨type, htype⟩ := htype
  have hstart := (accepted_type_iff.1 ⟨hacc, htype⟩).resolve_right fun hcut => by
    rw [hr, bodyReader_of_cutPostfix hcut] at he
    cases he
  obtain ⟨f, t, body, time, hf, ht, hfile⟩ := hstart
  obtain ⟨r', hr', hat⟩ := readHeader_header m hf ht type time body
  rw [hfile, hr', Except.ok.injEq, Option.some.injEq, Prod.mk.injEq] at h
  obtain ⟨rfl, rfl⟩ := h
  exact ⟨hf, ht, hat.s_length, time, by rw [hat.is_eq]; exact hfile⟩

/-- The names of a header that is accepted fit the buffer. -/
theorem length_of_readHeader {m m' : Message} {file : Bytes} {r : Reader}
    (h : readHeader m file = .ok (some (m', r))) :
    m'.from_.length ≤ 1025 ∧ m'.to_.length ≤ 1025 := by
  have hacc := accepted_of_readHeader h
  rw [readHeader_of_accepted hacc] at h
  cases h
  exact ⟨(List.length_take_le _ _).trans hacc.fromLength_le,
    (List.length_take_le _ _).trans hacc.toLength_le⟩

end Message

end Onion5
