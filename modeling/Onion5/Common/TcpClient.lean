import Onion5.Common.Util
import Onion5.Common.Config

/-!
# Frames over TCP

The model of `tcp_client.cc`: a frame is a type byte, an eight-byte big-endian size and the
payload.

The receiving end of a connection is a script of what its successive reads find (`Conn`): a
segment of bytes that has arrived, of which a read takes as much as it asks for, or an error.
Past the script the peer has closed, and every read returns 0. The script is how the network
cuts the byte stream, so a statement about every script is one about every segmentation.

The counters `offset` are `int`s that start at 0 and only grow, so they are natural numbers here,
and passing `INT_MAX` is undefined behaviour. Writes succeed in full.

* `send` and `sendFile` write a frame; `sendFile` runs forever when the size it has announced
  exceeds what it can read.
* `recv` reads one; `recv_frame` is the reception of a frame shorter than `2 ^ 31` under every
  segmentation of its payload, and `frame_roundTrip` what then becomes of a string or a file sent.
-/

namespace Onion5

/-- The counter `offset += n`. -/
def addOffset (offset n : ℕ) : Run ℕ :=
  if offset + n < 2 ^ 31 then .ok (offset + n) else .error .undefined

theorem addOffset_of_lt {offset n : ℕ} (h : offset + n < 2 ^ 31) :
    addOffset offset n = .ok (offset + n) := if_pos h

theorem addOffset_of_le {offset n : ℕ} (h : 2 ^ 31 ≤ offset + n) :
    addOffset offset n = .error .undefined := if_neg (not_lt.2 h)

/-! ## Sending -/

/-- The bytes one write of `send` takes of those that remain. -/
def blockLength (remaining : ℕ) : ℕ := if BUFSIZ < remaining then BUFSIZ else remaining

theorem blockLength_le (n : ℕ) : blockLength n ≤ n := by
  unfold blockLength
  split_ifs <;> omega

theorem blockLength_pos {n : ℕ} (h : 0 < n) : 0 < blockLength n := by
  unfold blockLength BUFSIZ
  split_ifs <;> omega

/-- The loop of `TCP_Client::send`: the bytes it writes from `offset` on, and the final `offset`. -/
def sendLoop (data : Bytes) (payloadSize offset : ℕ) : Run (Bytes × ℕ) :=
  if _h : offset < payloadSize then do
    let _ ← addOffset offset (blockLength (payloadSize - offset))
    let rest ← sendLoop data payloadSize (offset + blockLength (payloadSize - offset))
    return ((data.drop offset).take (blockLength (payloadSize - offset)) ++ rest.1, rest.2)
  else .ok ([], offset)
termination_by payloadSize - offset
decreasing_by
  have := blockLength_pos (n := payloadSize - offset) (by omega)
  omega

/-- `TCP_Client::send`: the bytes put on the connection, and the value returned. -/
def send (data : Bytes) : Run (Bytes × ℕ) := do
  let payloadSize := data.length
  let r ← sendLoop data payloadSize 0
  return ([0] ++ be 8 payloadSize ++ r.1, r.2)

/-- The loop writes the rest of the payload. -/
theorem sendLoop_eq {data : Bytes} (hd : data.length < 2 ^ 31) {offset : ℕ}
    (ho : offset ≤ data.length) :
    sendLoop data data.length offset = .ok (data.drop offset, data.length) := by
  induction hk : data.length - offset using Nat.strongRecOn generalizing offset with
  | ind k ih =>
    rw [sendLoop]
    by_cases h : offset < data.length
    · have hpos := blockLength_pos (n := data.length - offset) (by omega)
      have hle := blockLength_le (data.length - offset)
      rw [dif_pos h, addOffset_of_lt (by omega),
        ih _ (by omega)
          (show offset + blockLength (data.length - offset) ≤ data.length by omega) rfl]
      show Except.ok (_ ++ _, _) = _
      rw [← List.drop_drop, List.take_append_drop]
    · rw [dif_neg h, List.drop_eq_nil_of_le (by omega), show offset = data.length by omega]

/-- A payload of `2 ^ 31` bytes or more overflows the counter. -/
theorem sendLoop_overflow {data : Bytes} {payloadSize : ℕ} (hp : 2 ^ 31 ≤ payloadSize)
    {offset : ℕ} (ho : offset < 2 ^ 31) :
    sendLoop data payloadSize offset = .error .undefined := by
  induction hk : 2 ^ 31 - offset using Nat.strongRecOn generalizing offset with
  | ind k ih =>
    have hpos := blockLength_pos (n := payloadSize - offset) (by omega)
    rw [sendLoop, dif_pos (by omega)]
    by_cases h : offset + blockLength (payloadSize - offset) < 2 ^ 31
    · rw [addOffset_of_lt h, ih _ (by omega) h rfl]
      rfl
    · rw [addOffset_of_le (not_lt.1 h)]
      rfl

/-- The frame of a string shorter than `2 ^ 31` bytes. -/
theorem send_eq {data : Bytes} (hd : data.length < 2 ^ 31) :
    send data = .ok ([0] ++ be 8 data.length ++ data, data.length) := by
  rw [send, sendLoop_eq hd (Nat.zero_le _)]
  rfl

theorem send_overflow {data : Bytes} (hd : 2 ^ 31 ≤ data.length) :
    send data = .error .undefined := by
  rw [send, sendLoop_overflow hd (by norm_num)]
  rfl

/-- What a call of `send` that returns has written. -/
theorem send_eq_ok {data : Bytes} {r : Bytes × ℕ} (h : send data = .ok r) :
    data.length < 2 ^ 31 ∧ r.1 = [0] ++ be 8 data.length ++ data := by
  by_cases hd : data.length < 2 ^ 31
  · rw [send_eq hd] at h
    cases h
    exact ⟨hd, rfl⟩
  · rw [send_overflow (not_lt.1 hd)] at h
    cases h

/-- `get_file_size(std::string)`: `stat` needs no permission on the file itself. -/
def getFileSize (locate : Bytes) (fs : Files) : ℤ :=
  match fs.get (cstr locate) with
  | none => -1
  | some content => toInt content.length

theorem toSize_getFileSize {path content : Bytes} {fs : Files}
    (hget : fs.get (cstr path) = some content) (hlen : content.length < 2 ^ 31) :
    toSize (getFileSize path fs) = content.length := by
  rw [getFileSize, hget]
  simp only [toInt_of_lt hlen]
  exact toSize_sub (Nat.zero_le _) (by omega)

/-- `getFileSize` is -1 for a missing file, and `size_t` makes that the largest size. -/
theorem toSize_getFileSize_none {path : Bytes} {fs : Files} (hget : fs.get (cstr path) = none) :
    toSize (getFileSize path fs) = 2 ^ 64 - 1 := by
  rw [getFileSize, hget]
  rfl

/-- The loop of `TCP_Client::send_file`. Once the file is exhausted it writes nothing more, so
it never gets past a size it has not reached by then. -/
def sendFileLoop (payloadSize offset : ℕ) (is : InStream) : Run (Bytes × ℕ) :=
  if offset < payloadSize then
    if _h : is.eof then .error .diverges
    else do
      let offset' ← addOffset offset (is.read BUFSIZ).1.length
      let rest ← sendFileLoop payloadSize offset' (is.read BUFSIZ).2
      return ((is.read BUFSIZ).1 ++ rest.1, rest.2)
  else .ok ([], offset)
termination_by is.todo
decreasing_by exact InStream.todo_read_lt (by simpa using _h) (by decide)

/-- `TCP_Client::send_file`: the bytes put on the connection, and the value returned. -/
def sendFile (path : Bytes) (fs : Files) : Run (Bytes × ℕ) := do
  let payloadSize := toSize (getFileSize path fs)
  let is := match fs.openRead path with
    | some content => InStream.opened content
    | none => ⟨[], true⟩
  let r ← sendFileLoop payloadSize 0 is
  return ([1] ++ be 8 payloadSize ++ r.1, r.2)

theorem sendFileLoop_done {payloadSize offset : ℕ} (h : payloadSize ≤ offset) (is : InStream) :
    sendFileLoop payloadSize offset is = .ok ([], offset) := by
  rw [sendFileLoop, if_neg (not_lt.2 h)]

/-- One turn of the loop. -/
theorem sendFileLoop_step {payloadSize offset : ℕ} (h : offset < payloadSize) {is is' : InStream}
    {got : Bytes} (he : is.eof = false) (hr : is.read BUFSIZ = (got, is'))
    (ho : offset + got.length < 2 ^ 31) :
    sendFileLoop payloadSize offset is = do
      let rest ← sendFileLoop payloadSize (offset + got.length) is'
      return (got ++ rest.1, rest.2) := by
  rw [sendFileLoop, if_pos h, dif_neg (by simp [he]), hr, addOffset_of_lt ho, Run.ok_bind]

/-- The loop writes the rest of a file whose size was announced. -/
theorem sendFileLoop_eq {payloadSize : ℕ} (hp : payloadSize < 2 ^ 31) (rest : Bytes) {offset : ℕ}
    (ho : offset + rest.length = payloadSize) :
    sendFileLoop payloadSize offset ⟨rest, false⟩ = .ok (rest, payloadSize) := by
  induction hk : rest.length using Nat.strongRecOn generalizing rest offset with
  | ind k ih =>
    by_cases h : offset < payloadSize
    · by_cases hb : BUFSIZ ≤ rest.length
      · have hlen : (rest.take BUFSIZ).length = BUFSIZ := List.length_take_of_le hb
        have hpos : 0 < BUFSIZ := by decide
        have hdrop : (rest.drop BUFSIZ).length = rest.length - BUFSIZ := List.length_drop
        rw [sendFileLoop_step h rfl (InStream.read_of_le hb) (by omega), hlen,
          ih _ (by omega) (rest.drop BUFSIZ)
            (show offset + BUFSIZ + (rest.drop BUFSIZ).length = payloadSize by omega) rfl]
        show Except.ok (_ ++ _, _) = _
        rw [List.take_append_drop]
      · rw [sendFileLoop_step h rfl (InStream.read_of_lt (not_le.1 hb)) (by omega),
          sendFileLoop_done (by omega), Run.ok_bind, List.append_nil, ho]
        rfl
    · have hnil : rest = [] := List.eq_nil_of_length_eq_zero (by omega)
      rw [sendFileLoop_done (not_lt.1 h), hnil, show offset = payloadSize by omega]

/-- The frame of a file shorter than `2 ^ 31` bytes. -/
theorem sendFile_eq {path content : Bytes} {fs : Files} (hfile : fs.openRead path = some content)
    (hlen : content.length < 2 ^ 31) :
    sendFile path fs = .ok ([1] ++ be 8 content.length ++ content, content.length) := by
  have hget : fs.get (cstr path) = some content := by
    rw [Files.openRead] at hfile
    split_ifs at hfile
    exact hfile
  have hsize := toSize_getFileSize hget hlen
  have hloop : sendFileLoop content.length 0 (.opened content) = .ok (content, content.length) :=
    sendFileLoop_eq hlen content (by omega)
  simp only [sendFile, hsize, hfile, hloop, Run.ok_bind]
  rfl

/-! ## Receiving -/

/-- What the successive reads of a connection find. -/
abbrev Conn := List (Option Bytes)

/-- `TCP_Client::read(ptr, len)`: the bytes stored, or `none` for -1. -/
def Conn.read (len : ℕ) : Conn → Option Bytes × Conn
  | [] => (some [], [])
  | none :: conn => (none, conn)
  | some seg :: conn =>
    if seg.length ≤ len then (some seg, conn)
    else (some (seg.take len), some (seg.drop len) :: conn)

theorem Conn.read_of_le {len : ℕ} {seg : Bytes} (h : seg.length ≤ len) (conn : Conn) :
    Conn.read len (some seg :: conn) = (some seg, conn) := if_pos h

theorem Conn.read_of_lt {len : ℕ} {seg : Bytes} (h : len < seg.length) (conn : Conn) :
    Conn.read len (some seg :: conn) = (some (seg.take len), some (seg.drop len) :: conn) :=
  if_neg (not_le.2 h)

/-- What is left of a script. -/
def Conn.todo (conn : Conn) : ℕ := (conn.map fun r => (r.getD []).length + 1).sum

@[simp] theorem Conn.todo_some_cons (seg : Bytes) (conn : Conn) :
    Conn.todo (some seg :: conn) = seg.length + 1 + conn.todo := rfl

theorem Conn.todo_read_lt {conn : Conn} (h : conn ≠ []) {len : ℕ} (hl : 0 < len) :
    (conn.read len).2.todo < conn.todo := by
  match conn with
  | none :: conn => simp [Conn.read, Conn.todo]
  | some seg :: conn =>
    by_cases hs : seg.length ≤ len
    · rw [Conn.read_of_le hs, Conn.todo_some_cons]
      show Conn.todo conn < _
      omega
    · rw [Conn.read_of_lt (not_le.1 hs), Conn.todo_some_cons, Conn.todo_some_cons,
        List.length_drop]
      omega

/-- A read takes a part of what is there, and no more than it asks for. -/
theorem Conn.read_map_some (len : ℕ) (segs : List Bytes) : ∃ (got : Bytes) (rest : List Bytes),
    Conn.read len (segs.map some) = (some got, rest.map some) ∧ got.length ≤ len ∧
      got ++ rest.flatten = segs.flatten := by
  cases segs with
  | nil => exact ⟨[], [], rfl, Nat.zero_le _, rfl⟩
  | cons seg segs =>
    by_cases hs : seg.length ≤ len
    · exact ⟨seg, segs, Conn.read_of_le hs _, hs, rfl⟩
    · refine ⟨seg.take len, seg.drop len :: segs, Conn.read_of_lt (not_le.1 hs) _,
        List.length_take_le _ _, ?_⟩
      rw [List.flatten_cons, List.flatten_cons, ← List.append_assoc, List.take_append_drop]

/-- The loop of `TCP_Client::recv`: `offset`, what has been received, and the connection
afterwards. At the end of the stream every read returns 0 and the loop goes on forever. -/
def recvLoop (payloadSize offset : ℕ) (received : Bytes) (conn : Conn) :
    Run (ℕ × Bytes × Conn) :=
  if offset < payloadSize then
    if _h : conn = [] then .error .diverges
    else
      match (conn.read BUFSIZ).1 with
      | none => .ok (offset, received, (conn.read BUFSIZ).2)
      | some got => do
        let offset' ← addOffset offset got.length
        recvLoop payloadSize offset' (received ++ got) (conn.read BUFSIZ).2
  else .ok (offset, received, conn)
termination_by Conn.todo conn
decreasing_by exact Conn.todo_read_lt _h (by decide)

/-- What `TCP_Client::recv` leaves: the value returned, the string `data`, the files and the
connection. -/
structure Received where
  ret : ℕ
  data : Bytes
  fs : Files
  conn : Conn

/-- `TCP_Client::recv`, at the path `temp` that `get_temppath` draws for a frame of type 1. The
size is read into an eight-byte zero. -/
def recv (temp : Bytes) (fs : Files) (conn : Conn) : Run Received := do
  let (got, conn) := conn.read 1
  let type := (overlay (got.getD []) [0]).headD 0
  let (got, conn) := conn.read 8
  let payloadSize := ofBE (overlay (got.getD []) (List.replicate 8 0))
  let (offset, received, conn) ← recvLoop payloadSize 0 [] conn
  return {
    ret := offset
    data := if type = 0 then received else if type = 1 then temp else []
    fs := if type = 1 then fs.put temp received else fs
    conn := conn }

/-- One turn of the loop. -/
theorem recvLoop_step {payloadSize offset : ℕ} (h : offset < payloadSize) (received : Bytes)
    {conn conn' : Conn} (hc : conn ≠ []) {got : Bytes}
    (hr : conn.read BUFSIZ = (some got, conn')) (ho : offset + got.length < 2 ^ 31) :
    recvLoop payloadSize offset received conn =
      recvLoop payloadSize (offset + got.length) (received ++ got) conn' := by
  rw [recvLoop, if_pos h, dif_neg hc, hr]
  simp only [addOffset_of_lt ho, Run.ok_bind]

theorem recvLoop_done {payloadSize offset : ℕ} (h : payloadSize ≤ offset) (received : Bytes)
    (conn : Conn) :
    recvLoop payloadSize offset received conn = .ok (offset, received, conn) := by
  rw [recvLoop, if_neg (not_lt.2 h)]

/-- **The loop delivers the payload, however it is cut into segments.** -/
theorem recvLoop_segments {payloadSize : ℕ} (hp : payloadSize < 2 ^ 31) (received : Bytes)
    {offset : ℕ} (segs : List Bytes) (ho : offset + segs.flatten.length = payloadSize) :
    ∃ conn, recvLoop payloadSize offset received (segs.map some) =
      .ok (payloadSize, received ++ segs.flatten, conn) := by
  induction hk : Conn.todo (segs.map some) using Nat.strongRecOn
    generalizing offset received segs with
  | ind k ih =>
    by_cases h : offset < payloadSize
    · have hne : segs.map some ≠ [] := by
        rw [Ne, List.map_eq_nil_iff]
        rintro rfl
        rw [List.flatten_nil, List.length_nil] at ho
        omega
      obtain ⟨got, rest, hr, -, hcat⟩ := Conn.read_map_some BUFSIZ segs
      have hlen : got.length + rest.flatten.length = segs.flatten.length := by
        rw [← hcat, List.length_append]
      have htodo : Conn.todo (rest.map some) < k := by
        rw [← hk]
        have := Conn.todo_read_lt hne (show 0 < BUFSIZ by decide)
        rwa [hr] at this
      obtain ⟨conn, hc⟩ := ih _ htodo (received ++ got) rest
        (show offset + got.length + rest.flatten.length = payloadSize by omega) rfl
      refine ⟨conn, ?_⟩
      rw [recvLoop_step h received hne hr (by omega), hc, ← hcat, List.append_assoc]
    · have hnil : segs.flatten = [] := List.eq_nil_of_length_eq_zero (by omega)
      rw [recvLoop_done (not_lt.1 h), hnil, List.append_nil, show offset = payloadSize by omega]
      exact ⟨_, rfl⟩

/-- What the loop returns is counted by `offset`, which has not overflowed. -/
theorem recvLoop_length {payloadSize offset : ℕ} {received : Bytes} {conn : Conn}
    (h0 : received.length = offset) (hlt : offset < 2 ^ 31) {r : ℕ × Bytes × Conn}
    (h : recvLoop payloadSize offset received conn = .ok r) :
    r.2.1.length = r.1 ∧ r.1 < 2 ^ 31 := by
  induction hk : Conn.todo conn using Nat.strongRecOn generalizing offset received conn with
  | ind k ih =>
    rw [recvLoop] at h
    split_ifs at h with ho hc
    · have htodo := Conn.todo_read_lt hc (show 0 < BUFSIZ by decide)
      split at h
      · cases h
        exact ⟨h0, hlt⟩
      · rename_i got _
        obtain ⟨offset', hadd, h⟩ := Run.bind_eq_ok.1 h
        by_cases hfit : offset + got.length < 2 ^ 31
        · rw [addOffset_of_lt hfit] at hadd
          cases hadd
          exact ih _ (hk ▸ htodo) (by rw [List.length_append, h0]) hfit h rfl
        · rw [addOffset_of_le (not_lt.1 hfit)] at hadd
          cases hadd
    · cases h
      exact ⟨h0, hlt⟩

/-- What `recv` delivers as payload bytes is shorter than `2 ^ 31`. -/
theorem length_recv_data_lt {temp : Bytes} {fs : Files} {conn : Conn} {r : Received}
    (h : recv temp fs conn = .ok r) : r.data.length < 2 ^ 31 ∨ r.data = temp := by
  simp only [recv] at h
  obtain ⟨⟨offset, received, conn'⟩, hl, h⟩ := Run.bind_eq_ok.1 h
  obtain ⟨hlen, hlt⟩ := recvLoop_length (show ([] : Bytes).length = 0 from rfl) (by norm_num) hl
  cases h
  simp only at hlen hlt ⊢
  split_ifs
  · exact Or.inl (hlen ▸ hlt)
  · exact Or.inr rfl
  · exact Or.inl (by norm_num)

/-- The script of an intact frame whose type byte and size field arrive whole. -/
def frameConn (type : UInt8) (payloadSize : ℕ) (segs : List Bytes) : Conn :=
  some [type] :: some (be 8 payloadSize) :: segs.map some

/-- **A frame of less than `2 ^ 31` bytes is received exactly**, under every segmentation of its
payload. -/
theorem recv_frame (temp : Bytes) (fs : Files) (type : UInt8) {payload : Bytes}
    (hp : payload.length < 2 ^ 31) {segs : List Bytes} (hs : segs.flatten = payload) :
    ∃ r, recv temp fs (frameConn type payload.length segs) = .ok r ∧ r.ret = payload.length ∧
      r.data = (if type = 0 then payload else if type = 1 then temp else []) ∧
      r.fs = (if type = 1 then fs.put temp payload else fs) := by
  have hsize : ofBE (overlay (be 8 payload.length) (List.replicate 8 0)) = payload.length := by
    rw [overlay_of_length (by simp), ofBE_be_of_lt (by norm_num; omega)]
  obtain ⟨conn, hc⟩ := recvLoop_segments hp [] segs
    (show 0 + segs.flatten.length = payload.length by rw [hs]; omega)
  have hread1 : Conn.read 1 (frameConn type payload.length segs) =
      (some [type], some (be 8 payload.length) :: segs.map some) := Conn.read_of_le (by simp) _
  have hread8 : Conn.read 8 (some (be 8 payload.length) :: segs.map some) =
      (some (be 8 payload.length), segs.map some) := Conn.read_of_le (by simp) _
  rw [List.nil_append, hs] at hc
  simp only [recv, hread1, hread8, Option.getD_some, hsize, hc, Run.ok_bind]
  exact ⟨_, rfl, rfl, rfl, rfl⟩

/-- What a receiver finds of a frame whose type and size arrive whole and whose payload arrives in
the segments `segs`. -/
def scriptOf (frame : Bytes) (segs : List Bytes) : Conn :=
  some (frame.take 1) :: some ((frame.drop 1).take 8) :: segs.map some

theorem scriptOf_eq (type : UInt8) (payload : Bytes) (segs : List Bytes) :
    scriptOf ([type] ++ be 8 payload.length ++ payload) segs =
      frameConn type payload.length segs := by
  have htake : ((be 8 payload.length) ++ payload).take 8 = be 8 payload.length :=
    List.take_left' (length_be _ _)
  rw [scriptOf, frameConn, List.append_assoc, List.singleton_append, List.take_succ_cons,
    List.take_zero, List.drop_succ_cons, List.drop_zero, htake]

theorem drop_frame (type : UInt8) (payload : Bytes) :
    ([type] ++ be 8 payload.length ++ payload).drop 9 = payload :=
  List.drop_left' (by simp)

/-- **Frames arrive as they were sent**, however the network cuts them: a string as itself, a file
as a temporary file with its content. -/
theorem frame_roundTrip {payload : Bytes} (hlen : payload.length < 2 ^ 31) (temp : Bytes)
    (fs : Files) :
    (∃ frame, send payload = .ok (frame, payload.length) ∧
      ∀ segs : List Bytes, segs.flatten = frame.drop 9 →
        ∃ r, recv temp fs (scriptOf frame segs) = .ok r ∧ r.ret = payload.length ∧
          r.data = payload) ∧
    ∀ (path : Bytes) (files : Files), files.openRead path = some payload →
      ∃ frame, sendFile path files = .ok (frame, payload.length) ∧
        ∀ segs : List Bytes, segs.flatten = frame.drop 9 → fs.Fresh [temp] →
          ∃ r, recv temp fs (scriptOf frame segs) = .ok r ∧ r.ret = payload.length ∧
            r.data = temp ∧ r.fs.openRead temp = some payload := by
  refine ⟨⟨_, send_eq hlen, fun segs hsegs => ?_⟩, fun path files hfile =>
    ⟨_, sendFile_eq hfile hlen, fun segs hsegs htemp => ?_⟩⟩
  · rw [drop_frame] at hsegs
    obtain ⟨r, hr, hret, hdata, -⟩ := recv_frame temp fs 0 hlen hsegs
    exact ⟨r, by rw [scriptOf_eq, hr], hret, hdata⟩
  · rw [drop_frame] at hsegs
    obtain ⟨r, hr, hret, hdata, hfs⟩ := recv_frame temp fs 1 hlen hsegs
    refine ⟨r, by rw [scriptOf_eq, hr], hret, hdata, ?_⟩
    rw [hfs]
    exact htemp.openRead_put List.mem_cons_self payload

theorem frame_roundTrip_example :
    (∃ frame r, send (ascii "hi") = .ok (frame, 2) ∧
      recv (exampleTemppath 0) Files.blank (scriptOf frame [frame.drop 9]) = .ok r ∧
      r.data = ascii "hi") ∧
    ∃ frame r, sendFile (ascii "p") (Files.blank.put (ascii "p") (ascii "hi")) = .ok (frame, 2) ∧
      recv (exampleTemppath 0) Files.blank (scriptOf frame [frame.drop 9]) = .ok r ∧
      r.fs.openRead (exampleTemppath 0) = some (ascii "hi") := by
  have hlen : (ascii "hi").length < 2 ^ 31 := by decide
  obtain ⟨⟨frame, hsend, hstring⟩, hfile⟩ :=
    frame_roundTrip hlen (exampleTemppath 0) Files.blank
  obtain ⟨frame', hsend', hfile⟩ := hfile (ascii "p") _
    (Files.openRead_put_self (show Files.blank.readable _ from rfl) rfl _)
  obtain ⟨r, hr, -, hdata⟩ := hstring _ List.flatten_singleton
  obtain ⟨r', hr', -, -, hread⟩ := hfile _ List.flatten_singleton Files.fresh_exampleTemppath
  exact ⟨⟨frame, r, hsend, hr, hdata⟩, frame', r', hsend', hr', hread⟩

end Onion5
