import Onion5.Client.Fields

/-!
# Files that are accepted

What `deserialize` accepts, and what it makes of a file for two messages. Both turn on where the
file ends, since a marker that is missing may be made up for by the buffer, a type that is missing
is the one that the message had before, and a name that is cut is a name.

* `wellFormed_iff`: every file that is accepted is well formed, unless it ends within its postfix or
  within the name of a file.
* `agree_iff`: two messages read a file alike, unless it is a text or ends before its type, as long
  as no name in it is too long.
-/

namespace Onion5

namespace Message

/-! ## The body -/

/-- **The body of a file that has ended before**: a message of type 0 or 1 is accepted without
one. -/
theorem readBody_past {fs : Files} {locate : Bytes} (hl : fs.Fresh [locate]) (m : Message)
    {r : Reader} (hr : r.is = ⟨[], true⟩) (heap : ℕ) : readBody m r locate heap fs =
      if m.type = 1 then .ok (true, m, fs)
      else if m.type = 0 then .ok (true, { m with content := locate }, fs.put locate [])
      else if m.type = 2 ∧ heap < ofBE r.s then .error .throws
      else .ok (false, clear, fs) := by
  have hne := hl.ne_nil List.mem_cons_self
  have hw := hl.canWrite List.mem_cons_self
  have hchunks : InStream.chunks 1024 (by decide) ⟨[], true⟩ = [] := InStream.chunks_eof _ []
  by_cases h1 : m.type = 1
  · rw [readBody, if_pos h1, if_pos h1, hr]
    simp only [hchunks, List.map_nil, List.flatten_nil, List.append_nil]
  · by_cases h0 : m.type = 0
    · simp [readBody, bodyPath, h0, hr, hne, hw, copyLoop, hchunks]
    · by_cases h2 : m.type = 2
      · have hsize : r.size = ⟨⟨[], true⟩, r.buff, r.s.reverse⟩ := by
          simp only [Reader.size, InStream.readInto, hr, InStream.read_eof]
          rfl
        have hname : r.filename heap =
            if heap < ofBE r.s then .error .throws else .ok ([], r.size) := by
          simp only [Reader.filename, Reader.sizeValue, hsize, List.reverse_reverse,
            InStream.read_eof, cstr_nil]
        by_cases hheap : heap < ofBE r.s
        · simp [readBody, bodyPath, h2, hname, hheap]
          rfl
        · simp [readBody, bodyPath, h2, hname, hheap]
      · simp [readBody, bodyPath, h1, h0, h2]

/-- A body that is accepted is that of a message of one of the three types; one of type 2 has the
name of a file that can be written. -/
theorem readBody_accepted {m m' : Message} {r : Reader} {locate : Bytes} {heap : ℕ} {fs fs' : Files}
    (h : readBody m r locate heap fs = .ok (true, m', fs')) :
    m'.from_ = m.from_ ∧ m'.to_ = m.to_ ∧ m'.type = m.type ∧
      (m.type = 0 ∨ m.type = 1 ∨ m.type = 2 ∧ ∃ name r', r.filename heap = .ok (name, r') ∧
        name ≠ [] ∧ fs.canWrite name) := by
  unfold readBody at h
  split_ifs at h with h1
  · cases h
    exact ⟨rfl, rfl, rfl, .inr (.inl h1)⟩
  · obtain ⟨⟨path, r'⟩, hpath, h⟩ := Run.bind_eq_ok.1 h
    dsimp only at h
    split_ifs at h with hnil hw
    · cases h
    · cases h
      refine ⟨rfl, rfl, rfl, ?_⟩
      unfold bodyPath at hpath
      split_ifs at hpath with h2 h0
      · exact .inr (.inr ⟨h2, path, r', hpath, hnil, hw⟩)
      · exact .inl h0
      · cases hpath
        exact absurd rfl hnil
    · cases h

/-! ## Files that are accepted -/

/-- The file consists of the header of the message and a body, and that of a message of type 2 of a
name and a content. -/
def WellFormed (file : Bytes) (m : Message) : Prop :=
  ∃ (time : ℕ) (body : Bytes), file = header m.from_ m.to_ m.type time ++ body ∧
    (m.type = 0 ∨ m.type = 1 ∨ m.type = 2 ∧
      ∃ name content : Bytes, body = be 8 name.length ++ (name ++ content))

/-- The file ends within the name of a file, and what is there of it can be written. -/
def CutName (heap : ℕ) (fs : Files) (file : Bytes) : Prop :=
  ∃ (f t size rest : Bytes) (time : ℕ), f.length ≤ 1025 ∧ t.length ≤ 1025 ∧ size.length = 8 ∧
    rest.length < ofBE size ∧ ofBE size ≤ heap ∧ file = header f t 2 time ++ (size ++ rest) ∧
    cstr rest ≠ [] ∧ fs.canWrite (cstr rest)

section WellFormed

variable {file : Bytes} {type : UInt8} {m' : Message} {input locate : Bytes} {heap : ℕ}
  {fs fs' : Files}

/-- A file that is accepted and has its whole header is well formed, unless it ends within the name
of a file. -/
theorem wellFormed_of_whole {m₁ : Message} {r : Reader}
    (hheader : readHeader clear file = .ok (some (m₁, r))) (heof : r.is.eof = false)
    (hbody : readBody m₁ r locate heap fs = .ok (true, m', fs')) :
    WellFormed file m' ∨ CutName heap fs file := by
  obtain ⟨hfrom, hto, htype, hcases⟩ := readBody_accepted hbody
  obtain ⟨hf, ht, hs, time, hfile⟩ := readHeader_whole hheader heof
  rw [WellFormed, hfrom, hto, htype]
  obtain h0 | h1 | ⟨h2, name, r', hname, hne, hw⟩ := hcases
  · exact .inl ⟨time, _, hfile, .inl h0⟩
  · exact .inl ⟨time, _, hfile, .inr (.inl h1)⟩
  · obtain ⟨size, rest, hsize, hheap, hrest, rfl⟩ := Reader.filename_whole hs hname hne
    rw [hrest] at hfile
    by_cases hlt : rest.length < ofBE size
    · rw [List.take_of_length_le hlt.le] at hne hw
      rw [h2] at hfile
      exact .inr ⟨_, _, size, rest, time, hf, ht, hsize, hlt, hheap, hfile, hne, hw⟩
    · have hlen : (rest.take (ofBE size)).length = ofBE size :=
        List.length_take_of_le (not_lt.1 hlt)
      refine .inl ⟨time, _, hfile, .inr (.inr ⟨h2, rest.take (ofBE size),
        rest.drop (ofBE size), ?_⟩)⟩
      rw [hlen, be_ofBE_of_length hsize, List.take_append_drop]

/-- A file that is accepted and ends within its header ends within its postfix. -/
theorem cutPostfix_of_past {m₁ : Message} {r : Reader}
    (hheader : readHeader clear file = .ok (some (m₁, r))) (heof : r.is.eof = true)
    (hbody : readBody m₁ r locate heap fs = .ok (true, m', fs')) :
    CutPostfix 0 file ∨ CutPostfix 1 file := by
  have hacc := accepted_of_readHeader hheader
  cases (readHeader_of_accepted hacc clear).symm.trans hheader
  have hcut : ∀ type, (typeByte file).getD 255 = type → type ≠ 255 → CutPostfix type file := by
    intro type htype hne
    have hbyte : typeByte file = some type := by
      cases hb : typeByte file with
      | none =>
        rw [hb] at htype
        exact absurd htype.symm hne
      | some c =>
        rw [hb] at htype
        exact congrArg some htype
    refine (accepted_type_iff.1 ⟨hacc, hbyte⟩).resolve_left fun hstart => ?_
    rw [bodyReader_of_startsWithHeader hstart] at heof
    cases heof
  obtain ⟨-, -, -, h0 | h1 | ⟨-, name, r', hname, hne, -⟩⟩ := readBody_accepted hbody
  · exact .inl (hcut 0 h0 (by decide))
  · exact .inr (hcut 1 h1 (by decide))
  · rw [(Reader.filename_eof hname hne).2] at heof
    cases heof

/-- A header makes its file start with it. -/
theorem startsWithHeader_of_wellFormed (hf : m'.from_.length ≤ 1025) (ht : m'.to_.length ≤ 1025)
    (h : WellFormed file m') : StartsWithHeader m'.type file := by
  obtain ⟨time, body, hfile, -⟩ := h
  exact ⟨m'.from_, m'.to_, body, time, hf, ht, hfile⟩

/-- **A file that ends within its postfix is accepted**, and it is not well formed. -/
theorem accepted_of_cutPostfix (heap : ℕ) (hl : fs.Fresh [locate])
    (hfile : fs.openRead input = some file) (htype : type = 0 ∨ type = 1)
    (hcut : CutPostfix type file) :
    ∃ m' fs', clear.deserialize input locate heap fs = .ok (true, m', fs') ∧
      ¬ WellFormed file m' := by
  obtain ⟨hacc, hbyte⟩ := accepted_type_iff.2 (.inr hcut)
  have hpast := bodyReader_of_cutPostfix hcut
  have hheader := readHeader_of_accepted hacc clear
  rw [hbyte, Option.getD_some] at hheader
  have hlong := length_of_readHeader hheader
  have hnot : ∀ m' : Message, m'.from_ = (fromBuff file).take (fromLength file) →
      m'.to_ = (toBuff file).take (toLength file) → ¬ WellFormed file m' := by
    intro m' hfrom hto hwf
    have hstart := startsWithHeader_of_wellFormed (hfrom ▸ hlong.1) (hto ▸ hlong.2) hwf
    have heof := bodyReader_of_startsWithHeader hstart
    rw [hpast] at heof
    cases heof
  have hdes : clear.deserialize input locate heap fs = readBody ⟨(fromBuff file).take
      (fromLength file), (toBuff file).take (toLength file), type, clear.content⟩ (bodyReader file)
      locate heap fs := by
    simp only [deserialize, hfile, hheader, Run.ok_bind]
  rw [hdes, readBody_past hl _ hpast]
  obtain rfl | rfl := htype
  · exact ⟨_, _, rfl, hnot _ rfl rfl⟩
  · exact ⟨_, _, rfl, hnot _ rfl rfl⟩

theorem length_header (f t : Bytes) (type : UInt8) (time : ℕ) :
    (header f t type time).length = 29 + f.length + t.length := by
  simp only [header, MESSAGE_PREFIX, MESSAGE_POSTFIX, List.length_append, List.length_cons,
    List.length_nil, length_be]
  omega

/-- **A file that ends within the name of a file is accepted**, and it is not well formed. -/
theorem accepted_of_cutName (hfile : fs.openRead input = some file) (hcut : CutName heap fs file) :
    ∃ m' fs', clear.deserialize input locate heap fs = .ok (true, m', fs') ∧
      ¬ WellFormed file m' := by
  obtain ⟨f, t, size, rest, time, hf, ht, hsize, hlt, hheap, rfl, hne, hw⟩ := hcut
  obtain ⟨r, hheader, hat⟩ := readHeader_header clear hf ht 2 time (size ++ rest)
  obtain ⟨r', hname⟩ := hat.filename hsize hheap
  rw [List.take_of_length_le hlt.le] at hname
  have hdes : clear.deserialize input locate heap fs = .ok (true, ⟨f, t, 2, cstr rest⟩,
      fs.put (cstr rest) (copyLoop r'.is)) := by
    simp [deserialize, hfile, hheader, readBody, bodyPath, hname, hne, hw]
  refine ⟨_, _, hdes, ?_⟩
  rintro ⟨time', body, heq, h0 | h1 | ⟨-, name, content, rfl⟩⟩
  · exact absurd (show (2 : UInt8) = 0 from h0) (by decide)
  · exact absurd (show (2 : UInt8) = 1 from h1) (by decide)
  · have hbody := (List.append_inj heq (by rw [length_header, length_header])).2
    have hfield := List.append_inj hbody (by rw [hsize, length_be])
    have hlen := congrArg List.length hfield.2
    rw [hfield.1, ofBE_be] at hlt
    rw [List.length_append] at hlen
    have := Nat.mod_le name.length (256 ^ 8)
    omega

/-- **What `deserialize` accepts is well formed** exactly when the file does not end within its
postfix, for which the buffer makes up, nor within the name of a file that can be written. -/
theorem wellFormed_iff (hl : fs.Fresh [locate]) (hfile : fs.openRead input = some file) :
    (∀ m' fs', clear.deserialize input locate heap fs = .ok (true, m', fs') → WellFormed file m') ↔
      ¬ CutPostfix 0 file ∧ ¬ CutPostfix 1 file ∧ ¬ CutName heap fs file := by
  constructor
  · intro h
    have hno : ¬ ∃ m' fs', clear.deserialize input locate heap fs = .ok (true, m', fs') ∧
        ¬ WellFormed file m' := by
      rintro ⟨m', fs', hdes, hnot⟩
      exact hnot (h m' fs' hdes)
    exact ⟨fun hcut => hno (accepted_of_cutPostfix heap hl hfile (.inl rfl) hcut),
      fun hcut => hno (accepted_of_cutPostfix heap hl hfile (.inr rfl) hcut),
      fun hcut => hno (accepted_of_cutName hfile hcut)⟩
  · rintro ⟨h0, h1, hname⟩ m' fs' hdes
    rw [deserialize, hfile] at hdes
    obtain ⟨header, hheader, hbody⟩ := Run.bind_eq_ok.1 hdes
    obtain _ | ⟨m₁, r⟩ := header
    · cases hbody
    · cases heof : r.is.eof with
      | false => exact (wellFormed_of_whole hheader heof hbody).resolve_right hname
      | true => exact ((cutPostfix_of_past hheader heof hbody).elim h0 h1).elim

end WellFormed

/-- A text from `a` to `b`. -/
def exampleText : Bytes := header (ascii "a") (ascii "b") 1 0 ++ ascii "hi"

/-- Files among which it is at the path `p`. -/
def exampleTextFiles : Files := Files.blank.put (ascii "p") exampleText

theorem fresh_exampleTextFiles : exampleTextFiles.Fresh [exampleTemppath 0] :=
  Files.fresh_exampleTemppath.put (by decide) _

theorem openRead_exampleTextFiles : exampleTextFiles.openRead (ascii "p") = some exampleText :=
  Files.openRead_put_self rfl rfl _

theorem wellFormed_iff_example : ∃ m' fs',
    clear.deserialize (ascii "p") (exampleTemppath 0) 0 exampleTextFiles = .ok (true, m', fs') ∧
      WellFormed exampleText m' := by
  have hstart : StartsWithHeader 1 exampleText :=
    ⟨ascii "a", ascii "b", ascii "hi", 0, by decide, by decide, rfl⟩
  have hcut : ∀ type, ¬ CutPostfix type exampleText := by
    intro type hcut
    have heof := bodyReader_of_startsWithHeader hstart
    rw [bodyReader_of_cutPostfix hcut] at heof
    cases heof
  have hname : ¬ CutName 0 exampleTextFiles exampleText := by
    rintro ⟨f, t, size, rest, time, hf, ht, -, -, -, hfile, -⟩
    have htwo := (accepted_type_iff.2 (.inl ⟨f, t, size ++ rest, time, hf, ht, hfile⟩)).2
    have hone := (accepted_type_iff.2 (.inl hstart)).2
    cases htwo.symm.trans hone
  have hdes := deserialize_text clear (exampleTemppath 0) 0 (by decide) (by decide)
    openRead_exampleTextFiles (by decide)
  exact ⟨_, _, hdes, (wellFormed_iff fresh_exampleTextFiles openRead_exampleTextFiles).2
    ⟨hcut 0, hcut 1, hname⟩ _ _ hdes⟩

/-- A text to a recipient whose name starts like the postfix, cut before the postfix. -/
def exampleCut : Bytes := opening [] (typed MESSAGE_POSTFIX 0 1 [])

theorem cutPostfix_exampleCut : CutPostfix 1 exampleCut :=
  ⟨[], MESSAGE_POSTFIX, MESSAGE_POSTFIX, 0, by decide, by decide, by decide, List.suffix_rfl,
    List.suffix_rfl, header_of_cut rfl⟩

/-- It is accepted. -/
theorem not_wellFormed_cut :
    ¬ ∀ (file input locate : Bytes) (heap : ℕ) (fs fs' : Files) (m' : Message),
      fs.Fresh [locate] → fs.openRead input = some file →
        clear.deserialize input locate heap fs = .ok (true, m', fs') → WellFormed file m' := by
  intro h
  have hfresh : (Files.blank.put (ascii "p") exampleCut).Fresh [exampleTemppath 0] :=
    Files.fresh_exampleTemppath.put (by decide) _
  have hfile : (Files.blank.put (ascii "p") exampleCut).openRead (ascii "p") = some exampleCut :=
    Files.openRead_put_self rfl rfl _
  obtain ⟨m', fs', hdes, hnot⟩ :=
    accepted_of_cutPostfix 0 hfresh hfile (.inr rfl) cutPostfix_exampleCut
  exact hnot (h _ _ _ _ _ _ _ hfresh hfile hdes)

/-! ## Two messages that read a file -/

/-- What a call of `deserialize` shows of itself in the message: the value it returns, and the
message after it. -/
def outcome (m : Message) (input locate : Bytes) (heap : ℕ) (fs : Files) : Run (Bool × Message) :=
  (m.deserialize input locate heap fs).map fun r => (r.1, r.2.1)

/-- Both calls return, and show the same. -/
def Agree (m₁ m₂ : Message) (input locate : Bytes) (heap : ℕ) (fs : Files) : Prop :=
  ∃ out, m₁.outcome input locate heap fs = .ok out ∧ m₂.outcome input locate heap fs = .ok out

/-- The file is read as one of the type. -/
def IsRead (type : UInt8) (file : Bytes) : Prop := StartsWithHeader type file ∨ CutPostfix type file

/-- A message whose type makes `deserialize` reject a file that ends before its type: neither
binary nor a text, nor a file with a name longer than `new` can allocate. The size of the name is
that of the recipient with its bytes swapped. -/
def Refused (heap n : ℕ) (m : Message) : Prop :=
  m.type ≠ 0 ∧ m.type ≠ 1 ∧ (m.type = 2 → ofBE (be 8 n).reverse ≤ heap)

/-- Messages that read a file alike which ends before its type. -/
def Alike (heap n : ℕ) (m₁ m₂ : Message) : Prop :=
  m₁.type = 0 ∧ m₂.type = 0 ∨ m₁.type = 1 ∧ m₂.type = 1 ∧ m₁.content = m₂.content ∨
    Refused heap n m₁ ∧ Refused heap n m₂

section Outcome

variable {m m₁ m₂ : Message} {input locate file : Bytes} {heap : ℕ} {fs : Files}

theorem outcome_of_accepted (hfile : fs.openRead input = some file) (h : HeaderAccepted file)
    (m : Message) : m.outcome input locate heap fs =
      (readBody ⟨(fromBuff file).take (fromLength file), (toBuff file).take (toLength file),
        (typeByte file).getD m.type, m.content⟩ (bodyReader file) locate heap fs).map
          fun r => (r.1, r.2.1) := by
  simp only [outcome, deserialize, hfile, readHeader_of_accepted h m, Run.ok_bind]

/-- The body of a file that is no text does not depend on the content before. -/
theorem readBody_returns_iff {file : Bytes} (m : Message) (h1 : m.type ≠ 1) :
    (∃ r, readBody m (bodyReader file) locate heap fs = .ok r) ↔
      (m.type = 2 → nameLength file ≤ heap) := by
  rw [readBody, if_neg h1, bodyPath, filename_bodyReader]
  by_cases h2 : m.type = 2
  · rw [if_pos h2]
    by_cases hheap : heap < nameLength file
    · rw [if_pos hheap]
      refine iff_of_false ?_ fun h => absurd (h h2) (not_le.2 hheap)
      rintro ⟨_, ⟨⟩⟩
    · rw [if_neg hheap, Run.ok_bind]
      refine iff_of_true ?_ fun _ => not_lt.1 hheap
      dsimp only
      split_ifs
      all_goals exact ⟨_, rfl⟩
  · rw [if_neg h2]
    refine iff_of_true ?_ fun h => absurd h h2
    by_cases h0 : m.type = 0
    · rw [if_pos h0, Run.ok_bind]
      dsimp only
      split_ifs
      all_goals exact ⟨_, rfl⟩
    · rw [if_neg h0, Run.ok_bind]
      exact ⟨_, rfl⟩

/-- A file with a type. The content a message had before matters to a text only. -/
theorem agree_of_type {type : UInt8} (hfile : fs.openRead input = some file)
    (h : HeaderAccepted file) (htype : typeByte file = some type) :
    Agree m₁ m₂ input locate heap fs ↔
      (type = 1 → m₁.content = m₂.content) ∧ (type = 2 → nameLength file ≤ heap) := by
  rw [Agree, outcome_of_accepted hfile h, outcome_of_accepted hfile h, htype, Option.getD_some,
    Option.getD_some]
  by_cases h1 : type = 1
  · subst h1
    rw [readBody, readBody, if_pos rfl, if_pos rfl]
    constructor
    · rintro ⟨out, h₁, h₂⟩
      have heq := Except.ok.inj (h₁.trans h₂.symm)
      simp only [Prod.mk.injEq, Message.mk.injEq, List.append_cancel_right_eq] at heq
      exact ⟨fun _ => heq.2.2.2.2, fun h2 => absurd h2 (by decide)⟩
    · rintro ⟨hcontent, -⟩
      rw [hcontent rfl]
      exact ⟨_, rfl, rfl⟩
  · set body := readBody ⟨(fromBuff file).take (fromLength file),
      (toBuff file).take (toLength file), type, m₁.content⟩ (bodyReader file) locate heap fs
      with hbody
    have hsame : readBody ⟨(fromBuff file).take (fromLength file),
        (toBuff file).take (toLength file), type, m₂.content⟩ (bodyReader file) locate heap fs =
          body := by
      rw [hbody, readBody, readBody, if_neg h1, if_neg h1]
      rfl
    rw [hsame]
    have hreturns : (∃ r, body = .ok r) ↔ (type = 2 → nameLength file ≤ heap) :=
      readBody_returns_iff ⟨_, _, type, _⟩ h1
    constructor
    · rintro ⟨out, hout, -⟩
      refine ⟨fun h => absurd h h1, hreturns.1 ?_⟩
      cases hr : body with
      | ok r => exact ⟨r, rfl⟩
      | error e =>
        rw [hr] at hout
        cases hout
    · rintro ⟨-, hsize⟩
      obtain ⟨r, hr⟩ := hreturns.2 hsize
      rw [hr]
      exact ⟨_, rfl, rfl⟩

/-- What is made of a file that ends before its type. -/
theorem outcome_of_no_type (hl : fs.Fresh [locate]) (hfile : fs.openRead input = some file)
    (h : HeaderAccepted file) (htype : typeByte file = none) (heap : ℕ) (m : Message) :
    m.outcome input locate heap fs =
      if m.type = 1 then .ok (true, ⟨(fromBuff file).take (fromLength file),
        (toBuff file).take (toLength file), m.type, m.content⟩)
      else if m.type = 0 then .ok (true, ⟨(fromBuff file).take (fromLength file),
        (toBuff file).take (toLength file), m.type, locate⟩)
      else if m.type = 2 ∧ heap < ofBE (be 8 (toLength file)).reverse then .error .throws
      else .ok (false, clear) := by
  have hpast : (bodyReader file).is = ⟨[], true⟩ := by
    rw [typeByte, List.head?_eq_none_iff, List.drop_eq_nil_iff] at htype
    exact InStream.seek_of_lt (by rw [headerLength]; omega)
  rw [outcome_of_accepted hfile h, htype, Option.getD_none, readBody_past hl _ hpast]
  rw [show (bodyReader file).s = (be 8 (toLength file)).reverse by rw [be_toLength]; rfl]
  split_ifs <;> rfl

theorem agree_of_no_type (hl : fs.Fresh [locate]) (hfile : fs.openRead input = some file)
    (h : HeaderAccepted file) (htype : typeByte file = none) :
    Agree m₁ m₂ input locate heap fs ↔ Alike heap (toLength file) m₁ m₂ := by
  rw [Agree, outcome_of_no_type hl hfile h htype, outcome_of_no_type hl hfile h htype]
  constructor
  · rintro ⟨⟨ok, from_, to_, type, content⟩, h₁, h₂⟩
    have heq := h₁.trans h₂.symm
    unfold Alike Refused
    split_ifs at heq <;> simp_all [clear]
  · rintro (⟨h₁, h₂⟩ | ⟨h₁, h₂, hcontent⟩ | ⟨⟨h0, h1, h2⟩, ⟨h0', h1', h2'⟩⟩)
    · rw [h₁, h₂]
      exact ⟨_, rfl, rfl⟩
    · rw [h₁, h₂, hcontent]
      exact ⟨_, rfl, rfl⟩
    · rw [if_neg h1, if_neg h0, if_neg (fun h => absurd (h2 h.1) (not_le.2 h.2)), if_neg h1',
        if_neg h0', if_neg (fun h => absurd (h2' h.1) (not_le.2 h.2))]
      exact ⟨_, rfl, rfl⟩

/-- A file whose header is not accepted is rejected, if its names fit the buffer. -/
theorem agree_of_not_accepted (hfile : fs.openRead input = some file) (h : ¬ HeaderAccepted file) :
    Agree m₁ m₂ input locate heap fs ↔ NamesFit file := by
  simp only [Agree, outcome, deserialize, hfile, readHeader_of_not_accepted h m₁ m₂]
  constructor
  · rintro ⟨out, -, hout⟩
    by_contra hfit
    rw [readHeader_of_not_namesFit hfit] at hout
    cases hout
  · intro hfit
    obtain ⟨_ | ⟨m, r⟩, hx⟩ := (readHeader_defined_iff m₂ file).2 hfit
    · rw [hx]
      exact ⟨_, rfl, rfl⟩
    · exact absurd (accepted_of_readHeader hx) h

/-- **Two messages read a file alike** exactly when its names fit, those of its header the buffer
and that of a file what `new` can allocate, they hold the same content in case it is a text, and are
of the same kind in case it ends before its type. -/
theorem agree_iff (hl : fs.Fresh [locate]) (m₁ m₂ : Message) :
    Agree m₁ m₂ input locate heap fs ↔ ∀ file, fs.openRead input = some file →
      NamesFit file ∧ (IsRead 1 file → m₁.content = m₂.content) ∧
        (IsRead 2 file → nameLength file ≤ heap) ∧
        ∀ n, EndsBeforeType file n → Alike heap n m₁ m₂ := by
  cases hfile : fs.openRead input with
  | none =>
    refine iff_of_true ⟨(false, clear), ?_, ?_⟩ nofun
    · simp only [outcome, deserialize, hfile]
      rfl
    · simp only [outcome, deserialize, hfile]
      rfl
  | some file =>
    simp only [Option.some_inj, forall_eq', ← accepted_no_type_iff, IsRead, ← accepted_type_iff]
    by_cases hacc : HeaderAccepted file
    · cases htype : typeByte file with
      | some type =>
        rw [agree_of_type hfile hacc htype]
        simp [hacc, hacc.namesFit]
      | none =>
        rw [agree_of_no_type hl hfile hacc htype]
        simp [hacc, hacc.namesFit]
    · rw [agree_of_not_accepted hfile hacc]
      exact ⟨fun h => ⟨h, fun h => absurd h.1 hacc, fun h => absurd h.1 hacc,
        fun n h => absurd h.1.1 hacc⟩, And.left⟩

end Outcome

/-- A message with other ends reads the text like a clear one. -/
theorem agree_iff_example :
    Agree clear ⟨ascii "c", ascii "d", 255, []⟩ (ascii "p") (exampleTemppath 0) 0
      exampleTextFiles := by
  refine (agree_iff fresh_exampleTextFiles _ _).2 fun file hfile => ?_
  cases openRead_exampleTextFiles.symm.trans hfile
  have hstart : StartsWithHeader 1 exampleText :=
    ⟨ascii "a", ascii "b", ascii "hi", 0, by decide, by decide, rfl⟩
  obtain ⟨hacc, htype⟩ := accepted_type_iff.2 (.inl hstart)
  refine ⟨hacc.namesFit, fun _ => rfl, fun h2 => ?_, fun n hn => ?_⟩
  · cases htype.symm.trans (accepted_type_iff.2 h2).2
  · cases htype.symm.trans (accepted_no_type_iff.2 hn).1.2

/-- A message that held a text before. -/
theorem not_agree_text :
    ¬ ∀ (input locate : Bytes) (heap : ℕ) (fs : Files) (m₁ m₂ : Message), fs.Fresh [locate] →
      Agree m₁ m₂ input locate heap fs := by
  intro h
  have hread := fun m : Message => deserialize_text m (exampleTemppath 0) 0 (by decide) (by decide)
    openRead_exampleTextFiles (by decide)
  obtain ⟨out, h₁, h₂⟩ := h (ascii "p") (exampleTemppath 0) 0 _ clear (text [] [] (ascii "x"))
    fresh_exampleTextFiles
  have heq := h₁.trans h₂.symm
  rw [outcome, outcome, hread, hread] at heq
  simp [Except.map, text, clear] at heq
  exact absurd heq (by decide)

end Message

end Onion5
