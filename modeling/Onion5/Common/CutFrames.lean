import Onion5.Common.Framing

/-!
# Frames that are cut off

`TCP_Client::send` and `TCP_Client::send_file` on a connection that fails: a call of `write` may
take a part of what it is given, or nothing. Then it returns -1, and neither function writes
anything after that, or, when the peer has closed the connection, SIGPIPE ends the process. So a
connection is here what it has taken, the number of bytes that it still takes, and which of the two
happens then (`Sock`).

* `sendOn_spec`, `sendFileOn_spec`: both functions put as much of the frame on the connection as one
  write of all of it would, and return the size of the payload exactly when that is all.
* `sendOn_of_send`, `sendFileOn_of_sendFile`: with room for the frame they are the functions of
  `Onion5.Common.TcpClient`.
* `recv_cut`: what the peer makes of a frame that is cut off, and `recv_broken`, when a read of its
  own fails.
* `send_wholeOrNothing`, `sendFile_wholeOrNothing`: so a peer none of whose reads fails never takes
  a part of a payload for the whole. It gets all of it, or nothing, or waits forever.
-/

namespace Onion5

/-- A connection that is written to: what it has taken, how many more bytes it takes, and whether
the write after that raises SIGPIPE. -/
structure Sock where
  wire : Bytes
  room : ℕ
  broken : Bool

/-- How a call of `TCP_Client::write` ends: all of it has been taken, it returns -1, or the process
is killed. -/
inductive Wrote
  | all
  | failed
  | killed
  deriving DecidableEq

namespace Sock

/-- `TCP_Client::write`: how it ends, and the connection afterwards. -/
def write (s : Sock) (b : Bytes) : Wrote × Sock :=
  (if b.length ≤ s.room then .all else if s.broken then .killed else .failed,
    ⟨s.wire ++ b.take s.room, s.room - b.length, s.broken⟩)

variable {s : Sock} {a : Bytes}

theorem write_eq_all : (s.write a).1 = .all ↔ a.length ≤ s.room := by
  simp only [write]
  split_ifs <;> simp_all

theorem write_eq_killed : (s.write a).1 = .killed ↔ s.room < a.length ∧ s.broken := by
  simp only [write]
  split_ifs <;> simp_all

/-- **Two writes are one**, as long as the first is taken, and the first alone otherwise. -/
theorem write_append (s : Sock) (a b : Bytes) :
    s.write (a ++ b) = if (s.write a).1 = .all then (s.write a).2.write b else s.write a := by
  split_ifs with h
  · rw [write_eq_all] at h
    have htake : a.take s.room = a := List.take_of_length_le h
    have hfit : a.length + b.length ≤ s.room ↔ b.length ≤ s.room - a.length := by omega
    simp only [write, hfit, htake, List.take_append, List.append_assoc, List.length_append,
      Nat.sub_add_eq]
  · rw [write_eq_all, not_le] at h
    have hroom : s.room - a.length = 0 := by omega
    have hfit : ¬ a.length + b.length ≤ s.room := by omega
    have hfit' : ¬ a.length ≤ s.room := not_le.2 h
    simp only [write, hfit, hfit', if_false, List.take_append, hroom, List.take_zero,
      List.append_nil, List.length_append, Nat.sub_add_eq, Nat.zero_sub]

theorem write_nil (s : Sock) : s.write [] = (.all, s) := by
  simp [write]

end Sock

/-! ## Sending -/

/-- The loop of `TCP_Client::send` from `offset` on: the final `offset`, or `none` when the process
has been killed, and the connection. -/
def sendLoopOn (data : Bytes) (payloadSize offset : ℕ) (s : Sock) : Run (Option ℕ × Sock) :=
  if _h : offset < payloadSize then
    let length := blockLength (payloadSize - offset)
    let w := s.write ((data.drop offset).take length)
    match w.1 with
    | .all => do
      let _ ← addOffset offset length
      sendLoopOn data payloadSize (offset + length) w.2
    | .failed => .ok (some offset, w.2)
    | .killed => .ok (none, w.2)
  else .ok (some offset, s)
termination_by payloadSize - offset
decreasing_by
  have := blockLength_pos (n := payloadSize - offset) (by omega)
  omega

/-- `TCP_Client::send`: what it returns, or `none` when the process has been killed. -/
def sendOn (data : Bytes) (s : Sock) : Run (Option ℤ × Sock) :=
  let w := s.write [0]
  match w.1 with
  | .failed => .ok (some (-1), w.2)
  | .killed => .ok (none, w.2)
  | .all =>
    let w := w.2.write (be 8 data.length)
    match w.1 with
    | .failed => .ok (some (-1), w.2)
    | .killed => .ok (none, w.2)
    | .all => do
      let r ← sendLoopOn data data.length 0 w.2
      return (r.1.map Nat.cast, r.2)

/-- The loop of `TCP_Client::send_file`. -/
def sendFileLoopOn (payloadSize offset : ℕ) (is : InStream) (s : Sock) : Run (Option ℕ × Sock) :=
  if offset < payloadSize then
    -- a write of no bytes succeeds
    if _h : is.eof then .error .diverges
    else
      let w := s.write (is.read BUFSIZ).1
      match w.1 with
      | .all => do
        let offset' ← addOffset offset (is.read BUFSIZ).1.length
        sendFileLoopOn payloadSize offset' (is.read BUFSIZ).2 w.2
      | .failed => .ok (some offset, w.2)
      | .killed => .ok (none, w.2)
  else .ok (some offset, s)
termination_by is.todo
decreasing_by exact InStream.todo_read_lt (by simpa using _h) (by decide)

/-- `TCP_Client::send_file`. -/
def sendFileOn (path : Bytes) (fs : Files) (s : Sock) : Run (Option ℤ × Sock) :=
  let w := s.write [1]
  match w.1 with
  | .failed => .ok (some (-1), w.2)
  | .killed => .ok (none, w.2)
  | .all =>
    let payloadSize := toSize (getFileSize path fs)
    let w := w.2.write (be 8 payloadSize)
    match w.1 with
    | .failed => .ok (some (-1), w.2)
    | .killed => .ok (none, w.2)
    | .all => do
      let is := match fs.openRead path with
        | some content => InStream.opened content
        | none => ⟨[], true⟩
      let r ← sendFileLoopOn payloadSize 0 is w.2
      return (r.1.map Nat.cast, r.2)

/-- What a function that has written its bytes one after the other returns: `size` exactly when all
of them have been taken, and nothing exactly when it has been killed. -/
structure Returns {α : Type} (w : Wrote) (size : α) (ret : Option α) : Prop where
  all : ret = some size ↔ w = .all
  killed : ret = none ↔ w = .killed

/-- The loop from `offset` on does what one write of `rest` does, and gets to `size` exactly when
all of it is taken. -/
def WritesRest (s : Sock) (rest : Bytes) (size : ℕ) (r : Run (Option ℕ × Sock)) : Prop :=
  ∃ offset : Option ℕ, r = .ok (offset, (s.write rest).2) ∧ Returns (s.write rest).1 size offset

/-- A block that is taken, and the blocks after it. -/
theorem WritesRest.block {s : Sock} {block rest : Bytes} {size : ℕ} {r : Run (Option ℕ × Sock)}
    (hw : (s.write block).1 = .all) (h : WritesRest (s.write block).2 rest size r) :
    WritesRest s (block ++ rest) size r := by
  rw [WritesRest, Sock.write_append, if_pos hw]
  exact h

/-- A block that is not. -/
theorem writesRest_failed {s : Sock} {block : Bytes} (rest : Bytes) {size offset : ℕ}
    (ho : offset < size) (hw : (s.write block).1 = .failed) :
    WritesRest s (block ++ rest) size (.ok (some offset, (s.write block).2)) := by
  rw [WritesRest, Sock.write_append, if_neg (by simp [hw])]
  exact ⟨_, rfl, by simp [hw, ho.ne], by simp [hw]⟩

/-- A block whose write kills the process. -/
theorem writesRest_killed {s : Sock} {block : Bytes} (rest : Bytes) {size : ℕ}
    (hw : (s.write block).1 = .killed) :
    WritesRest s (block ++ rest) size (.ok (none, (s.write block).2)) := by
  rw [WritesRest, Sock.write_append, if_neg (by simp [hw])]
  exact ⟨_, rfl, by simp [hw], by simp [hw]⟩

theorem writesRest_done (s : Sock) (size : ℕ) : WritesRest s [] size (.ok (some size, s)) := by
  rw [WritesRest, Sock.write_nil]
  exact ⟨_, rfl, by simp, by simp⟩

/-- **The loop of `send`.** -/
theorem sendLoopOn_spec {data : Bytes} (hd : data.length < 2 ^ 31) (s : Sock) {offset : ℕ}
    (ho : offset ≤ data.length) :
    WritesRest s (data.drop offset) data.length (sendLoopOn data data.length offset s) := by
  induction hk : data.length - offset using Nat.strongRecOn generalizing offset s with
  | ind k ih =>
    rw [sendLoopOn]
    by_cases h : offset < data.length
    · have hpos := blockLength_pos (n := data.length - offset) (by omega)
      have hle := blockLength_le (data.length - offset)
      rw [dif_pos h]
      generalize blockLength (data.length - offset) = length at hpos hle
      dsimp only
      have hsplit : data.drop offset =
          (data.drop offset).take length ++ data.drop (offset + length) := by
        rw [← List.drop_drop, List.take_append_drop]
      conv => arg 2; rw [hsplit]
      split
      · next hw =>
        rw [addOffset_of_lt (by omega), Run.ok_bind]
        exact (ih _ (by omega) _ (by omega) rfl).block hw
      · next hw => exact writesRest_failed _ h hw
      · next hw => exact writesRest_killed _ hw
    · rw [dif_neg h, List.drop_eq_nil_of_le (by omega), show offset = data.length by omega]
      exact writesRest_done s data.length

/-- **The loop of `send_file`**, on a file whose size has been announced. -/
theorem sendFileLoopOn_spec {payloadSize : ℕ} (hp : payloadSize < 2 ^ 31) (rest : Bytes) (s : Sock)
    {offset : ℕ} (ho : offset + rest.length = payloadSize) :
    WritesRest s rest payloadSize (sendFileLoopOn payloadSize offset ⟨rest, false⟩ s) := by
  induction hk : rest.length using Nat.strongRecOn generalizing rest offset s with
  | ind k ih =>
    rw [sendFileLoopOn]
    by_cases h : offset < payloadSize
    · rw [if_pos h, dif_neg (by simp)]
      by_cases hb : BUFSIZ ≤ rest.length
      · have hlen : (rest.take BUFSIZ).length = BUFSIZ := List.length_take_of_le hb
        have hpos : 0 < BUFSIZ := by decide
        have hdrop : (rest.drop BUFSIZ).length = rest.length - BUFSIZ := List.length_drop
        rw [InStream.read_of_le hb]
        dsimp only
        conv => arg 2; rw [← List.take_append_drop BUFSIZ rest]
        split
        · next hw =>
          rw [addOffset_of_lt (by omega), Run.ok_bind]
          exact (ih _ (by omega) _ _ (by omega) rfl).block hw
        · next hw => exact writesRest_failed _ h hw
        · next hw => exact writesRest_killed _ hw
      · rw [InStream.read_of_lt (not_le.1 hb)]
        dsimp only
        conv => arg 2; rw [← List.append_nil rest]
        split
        · next hw =>
          rw [addOffset_of_lt (by omega), Run.ok_bind, sendFileLoopOn, if_neg (by omega), ho]
          exact (writesRest_done _ _).block hw
        · next hw => exact writesRest_failed _ h hw
        · next hw => exact writesRest_killed _ hw
    · have hnil : rest = [] := List.eq_nil_of_length_eq_zero (by omega)
      rw [if_neg h, hnil, show offset = payloadSize by omega]
      exact writesRest_done s payloadSize

/-- A frame. -/
def frame (type : UInt8) (payload : Bytes) : Bytes := [type] ++ be 8 payload.length ++ payload

theorem length_frame (type : UInt8) (payload : Bytes) :
    (frame type payload).length = payload.length + 9 := by
  simp only [frame, List.length_append, List.length_singleton, length_be]
  omega

/-- The first bytes of a frame are the frame exactly when they are all. -/
theorem take_eq_frame_iff {type : UInt8} {payload : Bytes} {room : ℕ} :
    (frame type payload).take room = frame type payload ↔ (frame type payload).length ≤ room :=
  ⟨fun h => by
    have hlen := congrArg List.length h
    rw [List.length_take] at hlen
    omega, List.take_of_length_le⟩

/-- What a function that writes a frame does: as much of it is on the connection as one write would
put there, and the size of the payload is returned exactly when that is all. -/
def WritesFrame (s : Sock) (type : UInt8) (payload : Bytes) (r : Run (Option ℤ × Sock)) : Prop :=
  ∃ ret : Option ℤ, r = .ok (ret, (s.write (frame type payload)).2) ∧
    Returns (s.write (frame type payload)).1 (payload.length : ℤ) ret

theorem Returns.map {w : Wrote} {size : ℕ} {ret : Option ℕ} (h : Returns w size ret) :
    Returns w (size : ℤ) (ret.map Nat.cast) := by
  obtain ⟨hall, hkilled⟩ := h
  refine ⟨?_, by rw [Option.map_eq_none_iff, hkilled]⟩
  rw [← hall]
  cases ret <;> simp

/-- The header and the loop. -/
theorem writesFrame_of_rest {s : Sock} {type : UInt8} {payload : Bytes}
    {loop : Sock → Run (Option ℕ × Sock)}
    (h : ∀ s, WritesRest s payload payload.length (loop s)) :
    WritesFrame s type payload (let w := s.write [type]
      match w.1 with
      | .failed => .ok (some (-1), w.2)
      | .killed => .ok (none, w.2)
      | .all =>
        let w := w.2.write (be 8 payload.length)
        match w.1 with
        | .failed => .ok (some (-1), w.2)
        | .killed => .ok (none, w.2)
        | .all => do
          let r ← loop w.2
          return (r.1.map Nat.cast, r.2)) := by
  have hneg : some (-1 : ℤ) ≠ some (payload.length : ℤ) := by
    rw [Ne, Option.some_inj]
    omega
  rw [WritesFrame, frame, List.append_assoc, Sock.write_append]
  dsimp only
  split
  · next htype =>
    rw [if_neg (by simp [htype])]
    exact ⟨_, rfl, by simp [htype, hneg], by simp [htype]⟩
  · next htype =>
    rw [if_neg (by simp [htype])]
    exact ⟨_, rfl, by simp [htype], by simp [htype]⟩
  · next htype =>
    rw [if_pos htype, Sock.write_append]
    split
    · next hsize =>
      rw [if_neg (by simp [hsize])]
      exact ⟨_, rfl, by simp [hsize, hneg], by simp [hsize]⟩
    · next hsize =>
      rw [if_neg (by simp [hsize])]
      exact ⟨_, rfl, by simp [hsize], by simp [hsize]⟩
    · next hsize =>
      rw [if_pos hsize]
      obtain ⟨offset, hloop, hret⟩ := h ((s.write [type]).2.write (be 8 payload.length)).2
      refine ⟨_, ?_, hret.map⟩
      rw [hloop]
      rfl

/-- **`send`**, on any connection. -/
theorem sendOn_spec {data : Bytes} (hd : data.length < 2 ^ 31) (s : Sock) :
    WritesFrame s 0 data (sendOn data s) :=
  writesFrame_of_rest fun s => by
    have h := sendLoopOn_spec hd s (Nat.zero_le _)
    rwa [List.drop_zero] at h

/-- **`send_file`**, on any connection and any file that can be read. -/
theorem sendFileOn_spec {path content : Bytes} {fs : Files}
    (hfile : fs.openRead path = some content) (hlen : content.length < 2 ^ 31) (s : Sock) :
    WritesFrame s 1 content (sendFileOn path fs s) := by
  have hget : fs.get (cstr path) = some content := by
    rw [Files.openRead] at hfile
    split_ifs at hfile
    exact hfile
  have hloop := fun s => sendFileLoopOn_spec hlen content s (Nat.zero_add content.length)
  rw [sendFileOn, toSize_getFileSize hget hlen, hfile]
  exact writesFrame_of_rest hloop

/-- A frame that is taken whole. -/
theorem WritesFrame.whole {s : Sock} {type : UInt8} {payload : Bytes} {r : Run (Option ℤ × Sock)}
    (h : WritesFrame s type payload r) (hroom : (frame type payload).length ≤ s.room) :
    r = .ok (some (payload.length : ℤ),
      ⟨s.wire ++ frame type payload, s.room - (frame type payload).length, s.broken⟩) := by
  obtain ⟨ret, hr, hret⟩ := h
  rw [hr, hret.all.2 (Sock.write_eq_all.2 hroom), Sock.write, List.take_of_length_le hroom]

/-- On a connection with room for its frame, `send` does what it does where every write succeeds. -/
theorem sendOn_of_send {data : Bytes} {r : Bytes × ℕ} (h : send data = .ok r) {s : Sock}
    (hroom : r.1.length ≤ s.room) :
    sendOn data s = .ok (some (r.2 : ℤ), ⟨s.wire ++ r.1, s.room - r.1.length, s.broken⟩) := by
  have hd := (send_eq_ok h).1
  rw [send_eq hd] at h
  cases h
  exact (sendOn_spec hd s).whole hroom

/-- So does `send_file`. -/
theorem sendFileOn_of_sendFile {path content : Bytes} {fs : Files}
    (hfile : fs.openRead path = some content) (hlen : content.length < 2 ^ 31) {r : Bytes × ℕ}
    (h : sendFile path fs = .ok r) {s : Sock} (hroom : r.1.length ≤ s.room) :
    sendFileOn path fs s =
      .ok (some (r.2 : ℤ), ⟨s.wire ++ r.1, s.room - r.1.length, s.broken⟩) := by
  rw [sendFile_eq hfile hlen] at h
  cases h
  exact (sendFileOn_spec hfile hlen s).whole hroom

/-! ## Receiving -/

/-- What `recv` reads of the first bytes of a stream, when they arrive as far as they have been
sent. -/
theorem header_sent (wire : Bytes) (conn : Conn) :
    Conn.type (some (wire.take 1) :: some ((wire.drop 1).take 8) :: conn) =
        (wire.take 1).headD 0 ∧
      Conn.sizeBytes (some (wire.take 1) :: some ((wire.drop 1).take 8) :: conn) =
        (wire.drop 1).take 8 ∧
      Conn.payload (some (wire.take 1) :: some ((wire.drop 1).take 8) :: conn) = conn := by
  have htype : Conn.read 1 (some (wire.take 1) :: some ((wire.drop 1).take 8) :: conn) =
      (some (wire.take 1), some ((wire.drop 1).take 8) :: conn) :=
    Conn.read_of_le (List.length_take_le _ _) _
  have hsize : Conn.read 8 (some ((wire.drop 1).take 8) :: conn) =
      (some ((wire.drop 1).take 8), conn) :=
    Conn.read_of_le (List.length_take_le _ _) _
  refine ⟨?_, ?_, ?_⟩
  · rw [Conn.type, htype]
    cases wire <;> rfl
  · rw [Conn.sizeBytes, htype, hsize]
    rfl
  · rw [Conn.payload, htype, hsize]

section Cut

variable {type : UInt8} {payload : Bytes} {room : ℕ}

/-- The type byte of a frame, when it has been sent. -/
theorem take_one_frame :
    ((frame type payload).take room).take 1 = if room = 0 then [] else [type] := by
  rw [List.take_take, frame, List.append_assoc]
  cases room <;> rfl

/-- The payload of a frame, as far as it has been sent. -/
theorem drop_nine_frame :
    ((frame type payload).take room).drop 9 = payload.take (room - 9) := by
  rw [List.drop_take, frame, List.drop_left' (by simp)]

/-- The size field of a frame, as far as it has been sent. -/
theorem take_eight_frame : (((frame type payload).take room).drop 1).take 8 =
    (be 8 payload.length).take (room - 1) := by
  have hdrop : (frame type payload).drop 1 = be 8 payload.length ++ payload := by
    rw [frame, List.append_assoc]
    rfl
  rw [List.drop_take, hdrop, List.take_take, Nat.min_comm, ← List.take_take,
    List.take_left' (length_be _ _)]

/-- The size is read right when its field has been sent. -/
theorem declared_frame (hp : payload.length < 2 ^ 31) (hroom : 9 ≤ room) {conn : Conn}
    (hsize : conn.sizeBytes = (((frame type payload).take room).drop 1).take 8) :
    conn.declared = payload.length := by
  have hlen : (be 8 payload.length).length ≤ room - 1 := by
    rw [length_be]
    omega
  rw [Conn.declared, hsize, take_eight_frame, List.take_of_length_le hlen,
    overlay_of_length (by simp), ofBE_be_of_lt (by omega)]

/-- **A frame that is cut off**: a call of `recv` that returns has got all of it, or only a part of
the header and no payload. -/
theorem recv_cut (hp : payload.length < 2 ^ 31) {temp : Bytes} {fs : Files} {segs : List Bytes}
    (hsegs : segs.flatten = ((frame type payload).take room).drop 9) {r : Received}
    (hr : recv temp fs (scriptOf ((frame type payload).take room) segs) = .ok r) :
    (frame type payload).length ≤ room ∧ r.ret = payload.length ∧
        r.data = (if type = 0 then payload else if type = 1 then temp else []) ∧
        r.fs = (if type = 1 then fs.put temp payload else fs) ∨
      room < 9 ∧ r.ret = 0 ∧
        r.data = (if room = 0 ∨ type ≠ 1 then [] else temp) ∧
        r.fs = if room = 0 ∨ type ≠ 1 then fs else fs.put temp [] := by
  have hlen := length_frame type payload
  rw [drop_nine_frame] at hsegs
  obtain ⟨htype, hsize, hpayload⟩ :=
    header_sent ((frame type payload).take room) (segs.map some)
  have hscript : scriptOf ((frame type payload).take room) segs =
      (((frame type payload).take room).take 1 ::
        (((frame type payload).take room).drop 1).take 8 :: segs).map some := rfl
  change Conn.type (scriptOf _ segs) = _ at htype
  change Conn.sizeBytes (scriptOf _ segs) = _ at hsize
  change Conn.payload (scriptOf _ segs) = _ at hpayload
  rw [take_one_frame] at htype
  have hdeclared : 9 ≤ room →
      Conn.declared (scriptOf ((frame type payload).take room) segs) = payload.length :=
    fun hroom => declared_frame hp hroom hsize
  rw [hscript] at hr htype hpayload hdeclared
  obtain ⟨k, got, rest, hk, hreads, hcat, -, rfl⟩ := recv_eq_ok hr
  have hle : Conn.declared _ ≤ Conn.taken k _ := hk.1
  rw [Conn.taken, hreads] at hle
  rw [hpayload, Conn.unread_map_some, hsegs] at hcat
  by_cases hroom : 9 ≤ room
  · -- the size has arrived, so all of the payload has
    left
    have hle : payload.length ≤ got.length := (hdeclared hroom) ▸ hle
    have hgot : got = payload := by
      have hpre : got <+: payload := ⟨rest.flatten ++ payload.drop (room - 9), by
        rw [← List.append_assoc, hcat, List.take_append_drop]⟩
      exact hpre.eq_of_length_le hle
    subst hgot
    have hall : got.length ≤ (got.take (room - 9)).length := by
      rw [← hcat, List.length_append]
      omega
    rw [List.length_take] at hall
    have hpos : room ≠ 0 := by omega
    rw [if_neg hpos] at htype
    refine ⟨by omega, rfl, ?_, ?_⟩
    · simp only [htype, List.headD_cons]
    · simp only [htype, List.headD_cons]
  · right
    rw [show room - 9 = 0 by omega, List.take_zero] at hcat
    obtain ⟨rfl, -⟩ := List.append_eq_nil_iff.1 hcat
    refine ⟨by omega, rfl, ?_, ?_⟩
    · simp only [htype]
      by_cases hzero : room = 0
      · simp [hzero]
      · by_cases h1 : type = 1
        · subst h1
          simp [hzero]
        · simp [hzero, h1]
    · simp only [htype]
      by_cases hzero : room = 0
      · simp [hzero]
      · simp [hzero]

/-- A read that finds something leaves what comes after it. -/
theorem Conn.read_before (len : ℕ) (seg : Bytes) (segs : List Bytes) (rest : Conn) :
    ∃ (got : Bytes) (segs' : List Bytes),
      Conn.read len ((seg :: segs).map some ++ rest) = (some got, segs'.map some ++ rest) ∧
        got ++ segs'.flatten = (seg :: segs).flatten := by
  rw [List.map_cons, List.cons_append]
  by_cases hs : seg.length ≤ len
  · exact ⟨seg, segs, Conn.read_of_le hs _, rfl⟩
  · refine ⟨seg.take len, seg.drop len :: segs, Conn.read_of_lt (not_le.1 hs) _, ?_⟩
    rw [List.flatten_cons, List.flatten_cons, ← List.append_assoc, List.take_append_drop]

/-- The loop of `recv` when a read fails: it returns what has arrived until then, or stops before
that because it has got what was declared. -/
theorem recvLoop_broken {payloadSize offset : ℕ} (received : Bytes) {segs : List Bytes}
    (rest : Conn) (ho : offset + segs.flatten.length < 2 ^ 31) :
    ∃ (got : Bytes) (segs' : List Bytes) (conn : Conn),
      recvLoop payloadSize offset received (segs.map some ++ none :: rest) =
        .ok (offset + got.length, received ++ got, conn) ∧
      got ++ segs'.flatten = segs.flatten ∧ (segs' = [] ∨ payloadSize ≤ offset + got.length) := by
  induction hk : Conn.todo (segs.map some ++ none :: rest) using Nat.strongRecOn
    generalizing offset received segs with
  | ind k ih =>
    by_cases h : offset < payloadSize
    · have hne : segs.map some ++ none :: rest ≠ [] := by simp
      cases segs with
      | nil =>
        refine ⟨[], [], rest, ?_, rfl, .inl rfl⟩
        rw [List.append_nil, recvLoop, if_pos h, dif_neg hne]
        rfl
      | cons seg segs =>
        obtain ⟨got, segs', hread, hcat⟩ := Conn.read_before BUFSIZ seg segs (none :: rest)
        have htodo := Conn.todo_read_lt hne (show 0 < BUFSIZ by decide)
        rw [hread, hk] at htodo
        have hlen : got.length + segs'.flatten.length = (seg :: segs).flatten.length := by
          rw [← hcat, List.length_append]
        have ho' : offset + got.length + segs'.flatten.length < 2 ^ 31 := by omega
        obtain ⟨got', segs'', conn, hloop, hcat', hend⟩ := ih _ htodo (received ++ got) ho' rfl
        refine ⟨got ++ got', segs'', conn, ?_, ?_, ?_⟩
        · rw [recvLoop_step h received hne hread (by omega), hloop, List.append_assoc,
            List.length_append, Nat.add_assoc]
        · rw [List.append_assoc, hcat', hcat]
        · rwa [List.length_append, ← Nat.add_assoc]
    · refine ⟨[], segs, segs.map some ++ none :: rest, ?_, rfl, .inr (not_lt.1 h)⟩
      rw [recvLoop_done (not_lt.1 h), List.append_nil]
      rfl

/-- **A peer one of whose reads fails** returns, with what has arrived until then. -/
theorem recv_broken (hp : payload.length < 2 ^ 31) {segs : List Bytes}
    (hsegs : segs.flatten <+: ((frame type payload).take room).drop 9) (temp : Bytes) (fs : Files)
    (rest : Conn) :
    ∃ r, recv temp fs (scriptOf ((frame type payload).take room) segs ++ none :: rest) = .ok r ∧
      r.data = (if room = 0 ∨ type = 0 then segs.flatten else if type = 1 then temp else []) ∧
      r.fs = if room = 0 ∨ type ≠ 1 then fs else fs.put temp segs.flatten := by
  rw [drop_nine_frame] at hsegs
  obtain ⟨htype, hsize, hpayload⟩ :=
    header_sent ((frame type payload).take room) (segs.map some ++ none :: rest)
  change Conn.type (scriptOf _ segs ++ none :: rest) = _ at htype
  change Conn.sizeBytes (scriptOf _ segs ++ none :: rest) = _ at hsize
  change Conn.payload (scriptOf _ segs ++ none :: rest) = _ at hpayload
  generalize scriptOf _ segs ++ none :: rest = conn at htype hsize hpayload ⊢
  rw [take_one_frame] at htype
  have hle := hsegs.length_le
  rw [List.length_take] at hle
  have ho : 0 + segs.flatten.length < 2 ^ 31 := by omega
  obtain ⟨got, segs', conn', hloop, hcat, hend⟩ :=
    @recvLoop_broken conn.declared 0 [] segs rest ho
  -- nothing that has arrived is left unread
  have hgot : got = segs.flatten := by
    obtain rfl | hend := hend
    · rwa [List.flatten_nil, List.append_nil] at hcat
    · refine (show got <+: segs.flatten from ⟨_, hcat⟩).eq_of_length_le ?_
      by_cases hroom : 9 ≤ room
      · rw [declared_frame hp hroom hsize] at hend
        omega
      · omega
  subst hgot
  rw [recv_eq, hpayload, hloop, Run.ok_bind]
  refine ⟨_, rfl, ?_, ?_⟩
  · by_cases hzero : room = 0
    · simp [htype, hzero]
    · simp [htype, hzero]
  · by_cases hzero : room = 0
    · simp [htype, hzero]
    · simp [htype, hzero]

end Cut

end Onion5
