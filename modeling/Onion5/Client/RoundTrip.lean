import Onion5.Client.Message

/-!
# Round trips of messages

What becomes of a message that is written and read again, and of a packet that is read and written
again, as every relay does.

* `text_returns_iff`: a text comes back exactly when it has no NUL byte, since the blocks that
  `deserialize` reads are appended as C strings.
* `reencode_packet`: a packet of type 0 keeps every byte but those of its timestamp.
-/

namespace Onion5

namespace Message

/-! ## Texts -/

/-- A new message that reads the file that `m` has been written to is `m`. -/
def Returns (m : Message) (locate : Bytes) (time : ℕ) (opens : Bool) (fs : Files)
    (bodyLocate : Bytes) (heap : ℕ) : Prop :=
  ∃ fs', clear.deserialize (m.serialize locate time opens fs).1 bodyLocate heap
    (m.serialize locate time opens fs).2 = .ok (true, m, fs')

section Text

variable {from_ to_ content locate : Bytes} {fs : Files}

/-- What comes back of a text: its blocks up to their NUL bytes. -/
theorem deserialize_serialize_text (hf : from_.length ≤ 1025) (ht : to_.length ≤ 1025)
    (hfs : fs.Fresh [locate]) (time : ℕ) (opens : Bool) (bodyLocate : Bytes) (heap : ℕ) :
    clear.deserialize ((text from_ to_ content).serialize locate time opens fs).1 bodyLocate heap
        ((text from_ to_ content).serialize locate time opens fs).2 =
      .ok (true, text from_ to_ (((InStream.opened content).chunks 1024 (by decide)).map
        cstr).flatten, fs.put locate (header from_ to_ 1 time ++ content)) := by
  rw [serialize_text]
  exact deserialize_text_blocks clear bodyLocate heap hf ht
    (hfs.openRead_put List.mem_cons_self _)

/-- A text comes back exactly when its blocks are C strings. -/
theorem returns_text_iff (hf : from_.length ≤ 1025) (ht : to_.length ≤ 1025)
    (hfs : fs.Fresh [locate]) (time : ℕ) (opens : Bool) (bodyLocate : Bytes) (heap : ℕ) :
    (text from_ to_ content).Returns locate time opens fs bodyLocate heap ↔ 0 ∉ content := by
  rw [Returns, deserialize_serialize_text hf ht hfs]
  constructor
  · rintro ⟨fs', h⟩
    have hm := congrArg Message.content (congrArg (·.2.1) (Except.ok.inj h))
    exact InStream.flatten_cstr_chunks_eq_iff.1 hm
  · intro h0
    rw [InStream.opened, InStream.flatten_cstr_chunks_eq_iff.2 h0]
    exact ⟨_, rfl⟩

end Text

/-- **A text message comes back exactly when its content has no NUL byte.** -/
theorem text_returns_iff {m : Message} (htype : m.type = 1) (hf : m.from_.length ≤ 80)
    (ht : m.to_.length ≤ 80) {locate : Bytes} {fs : Files} (hfs : fs.Fresh [locate]) (time : ℕ)
    (opens : Bool) (bodyLocate : Bytes) (heap : ℕ) :
    m.Returns locate time opens fs bodyLocate heap ↔ 0 ∉ m.content := by
  obtain ⟨from_, to_, type, content⟩ := m
  obtain rfl : type = 1 := htype
  exact returns_text_iff (hf.trans (by decide)) (ht.trans (by decide)) hfs time opens bodyLocate
    heap

theorem text_returns_iff_example :
    (text (ascii "a") (ascii "b") (ascii "hi")).Returns (exampleTemppath 0) 0 true Files.blank
      (exampleTemppath 1) 0 ↔ 0 ∉ ascii "hi" :=
  text_returns_iff rfl (by decide) (by decide) Files.fresh_exampleTemppath 0 true _ 0

/-- A text of a single NUL byte comes back empty. -/
theorem not_returns_nul :
    ¬ (text (ascii "a") (ascii "b") [0]).Returns (exampleTemppath 0) 0 true Files.blank
      (exampleTemppath 1) 0 := by
  rw [returns_text_iff (by decide) (by decide) Files.fresh_exampleTemppath]
  decide

/-! ## Packets -/

/-- A well-formed packet file of type 0: `stamp` is its timestamp of eight bytes. -/
def packetFile (from_ to_ stamp body : Bytes) : Bytes :=
  MESSAGE_PREFIX ++ be 8 from_.length ++ from_ ++ be 8 to_.length ++ to_ ++ stamp ++ [0] ++
    MESSAGE_POSTFIX ++ body

/-- Where the timestamp of a packet file starts. -/
def stampOffset (from_ to_ : Bytes) : ℕ := 2 + 8 + from_.length + 8 + to_.length

/-- Two files of one length that agree outside the eight bytes from `offset` on. -/
structure AgreeOutside (offset : ℕ) (file file' : Bytes) : Prop where
  length_eq : file'.length = file.length
  before : ∀ i < offset, file'[i]? = file[i]?
  after : ∀ i, offset + 8 ≤ i → file'[i]? = file[i]?

theorem agreeOutside_append (pre post : Bytes) {mid mid' : Bytes} (h : mid.length = 8)
    (h' : mid'.length = 8) :
    AgreeOutside pre.length (pre ++ (mid ++ post)) (pre ++ (mid' ++ post)) where
  length_eq := by simp only [List.length_append, h, h']
  before i hi := by rw [List.getElem?_append_left hi, List.getElem?_append_left hi]
  after i hi := by
    rw [List.getElem?_append_right (by omega), List.getElem?_append_right (by omega),
      List.getElem?_append_right (by omega), List.getElem?_append_right (by omega), h, h']

theorem packetFile_be (from_ to_ body : Bytes) (time : ℕ) :
    packetFile from_ to_ (be 8 time) body = header from_ to_ 0 time ++ body := by
  simp only [packetFile, header, List.append_assoc]

/-- Packet files that differ in their timestamps only. -/
theorem agreeOutside_packetFile (from_ to_ body : Bytes) {stamp stamp' : Bytes}
    (hs : stamp.length = 8) (hs' : stamp'.length = 8) :
    AgreeOutside (stampOffset from_ to_) (packetFile from_ to_ stamp body)
      (packetFile from_ to_ stamp' body) := by
  have h := agreeOutside_append
    (MESSAGE_PREFIX ++ be 8 from_.length ++ from_ ++ be 8 to_.length ++ to_)
    ([0] ++ MESSAGE_POSTFIX ++ body) hs hs'
  have hlen : (MESSAGE_PREFIX ++ be 8 from_.length ++ from_ ++ be 8 to_.length ++ to_).length =
      stampOffset from_ to_ := by
    simp only [stampOffset, List.length_append, length_be]
    rfl
  rw [hlen] at h
  simpa only [packetFile, List.append_assoc] using h

/-- **A relay passes a packet on unchanged**: reading it and writing it again keeps every byte but
the eight of its timestamp, whatever the body is. -/
theorem reencode_packet {input locate relay from_ to_ stamp body : Bytes} {fs : Files}
    (hf : from_.length ≤ 1024) (ht : to_.length ≤ 1024) (hs : stamp.length = 8)
    (hfile : fs.openRead input = some (packetFile from_ to_ stamp body))
    (hfs : fs.Fresh [locate, relay]) (heap time : ℕ) :
    ∃ m fs' file', clear.deserialize input locate heap fs = .ok (true, m, fs') ∧
      (m.serialize relay time true fs').1 = relay ∧
      (m.serialize relay time true fs').2.openRead relay = some file' ∧
      AgreeOutside (stampOffset from_ to_) (packetFile from_ to_ stamp body) file' := by
  have hmem : locate ∈ [locate, relay] := List.mem_cons_self
  have hstamp : be 8 (ofBE stamp) = stamp := hs ▸ be_ofBE stamp
  rw [← hstamp, packetFile_be] at hfile
  have hdes := deserialize_packet clear heap (hf.trans (by decide)) (ht.trans (by decide)) hfile
    (hfs.ne_nil hmem) (hfs.canWrite hmem)
  have hfs' : (fs.put locate body).Fresh [relay] := hfs.put_head body
  have hne : cstr locate ≠ cstr relay := hfs.cstr_head_ne List.mem_cons_self
  have hser : serialize (binary from_ to_ locate) relay time true (fs.put locate body) =
      (relay, (fs.put locate body).put relay (packetFile from_ to_ (be 8 time) body)) := by
    rw [packetFile_be]
    exact serialize_packet from_ to_ time hne (hfs.openRead_put hmem body)
  refine ⟨_, _, packetFile from_ to_ (be 8 time) body, hdes, by rw [hser], ?_,
    agreeOutside_packetFile from_ to_ body hs (length_be 8 time)⟩
  rw [hser]
  exact hfs'.openRead_put List.mem_cons_self _

theorem reencode_packet_example :
    ∃ m fs' file', clear.deserialize (ascii "p") (exampleTemppath 0) 0
        (Files.blank.put (ascii "p") (packetFile (ascii "a") (ascii "b") (be 8 7) [0, 222, 173])) =
          .ok (true, m, fs') ∧
      (m.serialize (exampleTemppath 1) 9 true fs').1 = exampleTemppath 1 ∧
      (m.serialize (exampleTemppath 1) 9 true fs').2.openRead (exampleTemppath 1) = some file' ∧
      AgreeOutside (stampOffset (ascii "a") (ascii "b"))
        (packetFile (ascii "a") (ascii "b") (be 8 7) [0, 222, 173]) file' := by
  have hfs : Files.blank.Fresh [exampleTemppath 0, exampleTemppath 1] :=
    Files.fresh_blank_range (k := 0) (n := 2) (by decide)
  have hput := hfs.put (p := ascii "p") (by decide)
    (packetFile (ascii "a") (ascii "b") (be 8 7) [0, 222, 173])
  exact reencode_packet (by decide) (by decide) (length_be 8 7)
    (Files.openRead_put_self rfl rfl _) hput 0 9

end Message

end Onion5
