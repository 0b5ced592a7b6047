import Onion5.Client.Directory
import Onion5.Client.Fields

/-!
# The reception of a frame

What the listener does with a frame before it knows whether the frame is meant for it.

* `kindKept_iff`: a frame is taken for what its type byte says exactly when its string does not
  happen to name a file of the node.
* `target_permitted_iff`: `deserialize` is defined and opens its temporary file or one in the
  working directory exactly when the names in its header fit the buffer and the message names no
  other file that it may write.
* `dropped_harmless_iff`: a packet that is dropped leaves the files of the node alone exactly when
  it is not a message of type 2 that names a file the node may write.
-/

namespace Onion5

open Message

/-! ## The kind of a frame -/

/-- What `liste_loop` takes a received string for. -/
inductive Kind
  | list
  | ping
  /-- a packet in the file at `path` -/
  | packet (path : Bytes)
  | unknown
  deriving DecidableEq

/-- The tests of `liste_loop`. -/
def kind (msg : Bytes) (fs : Files) : Kind :=
  if msg.take 2 = LIST_PREFIX then .list
  else if msg.take 2 = PING_PREFIX then .ping
  else if isExistedFile msg fs then .packet msg
  else .unknown

/-- A received string is handled as its kind says. -/
theorem handle_kind (env : Env) (d : ListenDraws) (msgr : Messanger) (msg : Bytes) (fs : Files) :
    handle env d msgr msg fs = match kind msg fs with
      | .list => listFrame env msgr msg fs
      | .ping => pingFrame env msgr msg fs
      | .packet path => onionPacket env d msgr path fs
      | .unknown => .ok (.idle msgr fs) := by
  unfold handle kind
  split_ifs <;> rfl

/-- The kind of what is received agrees with the type byte of the frame: only a file that has just
been written is a packet, and a file is no list and no ping. -/
structure KindKept (type : UInt8) (temp : Bytes) (fs : Files) (r : Received) : Prop where
  packet : ∀ path, kind r.data r.fs = .packet path → type = 1 ∧ path = temp ∧ fs.canWrite temp
  file : type = 1 → kind r.data r.fs ≠ .list ∧ kind r.data r.fs ≠ .ping

section Kinds

variable {temp : Bytes} {fs : Files} {client : Conn} {type : UInt8} {r : Received}

/-- What `recv` delivers depends on the first byte of the frame. -/
theorem recv_type (hr : recv temp fs client = .ok r) (htype : (client.read 1).1 = some [type]) :
    ∃ received, r.data = (if type = 0 then received else if type = 1 then temp else []) ∧
      r.fs = if type = 1 then fs.put temp received else fs := by
  simp only [recv, htype] at hr
  obtain ⟨⟨offset, received, conn⟩, -, hr⟩ := Run.bind_eq_ok.1 hr
  cases hr
  exact ⟨received, rfl, rfl⟩

theorem kind_packet_iff {msg path : Bytes} : kind msg fs = .packet path ↔
    msg.take 2 ≠ LIST_PREFIX ∧ msg.take 2 ≠ PING_PREFIX ∧ isExistedFile msg fs ∧ path = msg := by
  unfold kind
  split_ifs with hlist hping hfile
  · simp [hlist]
  · simp [hping]
  · simp [hlist, hping, hfile, eq_comm]
  · simp [hfile]

/-- The path of a temporary file is no list and no ping. -/
theorem kind_temp (fs : Files) (ht : IsTempPath temp) :
    kind temp fs = if isExistedFile temp fs then .packet temp else .unknown := by
  unfold kind
  rw [ht.take_two, if_neg (by decide), if_neg (by decide)]

/-- A string is taken for a packet exactly when it names a file. -/
theorem kindKept_string (htype : (client.read 1).1 = some [0]) (hr : recv temp fs client = .ok r) :
    KindKept 0 temp fs r ↔ r.data.take 2 = LIST_PREFIX ∨ r.data.take 2 = PING_PREFIX ∨
      isExistedFile r.data fs = false := by
  obtain ⟨received, -, hfs⟩ := recv_type hr htype
  replace hfs : r.fs = fs := hfs
  constructor
  · intro h
    by_contra hno
    simp only [not_or, Bool.not_eq_false] at hno
    have hkind : kind r.data r.fs = .packet r.data :=
      kind_packet_iff.2 ⟨hno.1, hno.2.1, hfs ▸ hno.2.2, rfl⟩
    exact absurd (h.packet _ hkind).1 (by decide)
  · intro hno
    refine ⟨fun path hkind => ?_, fun h1 => absurd h1 (by decide)⟩
    obtain ⟨hlist, hping, hfile, -⟩ := kind_packet_iff.1 hkind
    rw [hfs] at hfile
    simp [hlist, hping, hfile] at hno

/-- A file is taken for the packet in the temporary file, unless that file is not its own. -/
theorem kindKept_file (ht : IsTempPath temp) (htype : (client.read 1).1 = some [1])
    (hr : recv temp fs client = .ok r) :
    KindKept 1 temp fs r ↔ fs.canWrite temp ∨ isExistedFile temp fs = false := by
  obtain ⟨received, hdata, hfs⟩ := recv_type hr htype
  replace hdata : r.data = temp := hdata
  replace hfs : r.fs = fs.put temp received := hfs
  have hkind := kind_temp r.fs ht
  rw [← hdata] at hkind
  have hput : ¬ fs.canWrite temp → r.fs = fs := fun hw => by rw [hfs, Files.put, dif_neg hw]
  constructor
  · intro h
    by_contra hno
    simp only [not_or, Bool.not_eq_false] at hno
    rw [hput hno.1, hdata, if_pos hno.2, ← hdata] at hkind
    exact hno.1 (h.packet _ (hput hno.1 ▸ hkind)).2.2
  · intro hno
    refine ⟨fun path hpath => ?_, fun _ => ?_⟩
    · obtain ⟨-, -, hfile, rfl⟩ := kind_packet_iff.1 hpath
      refine ⟨rfl, hdata, ?_⟩
      by_contra hw
      rw [hput hw, hdata, hno.resolve_left hw] at hfile
      cases hfile
    · rw [hkind]
      split_ifs <;> simp

/-- A frame of another type is ignored. -/
theorem kindKept_other (h0 : type ≠ 0) (h1 : type ≠ 1) (htype : (client.read 1).1 = some [type])
    (hr : recv temp fs client = .ok r) : KindKept type temp fs r := by
  obtain ⟨received, hdata, -⟩ := recv_type hr htype
  rw [if_neg h0, if_neg h1] at hdata
  refine ⟨fun path hpath => ?_, fun h => absurd h h1⟩
  obtain ⟨-, -, hfile, -⟩ := kind_packet_iff.1 hpath
  simp [hdata, isExistedFile] at hfile

/-- **A frame is taken for what its type byte says** exactly when a string that is neither a list
nor a ping names no file of the node, and the temporary path of a file is not that of a file which
cannot be written. -/
theorem kindKept_iff (ht : IsTempPath temp) (htype : (client.read 1).1 = some [type])
    (hr : recv temp fs client = .ok r) :
    KindKept type temp fs r ↔
      (type = 0 → r.data.take 2 = LIST_PREFIX ∨ r.data.take 2 = PING_PREFIX ∨
        isExistedFile r.data fs = false) ∧
      (type = 1 → fs.canWrite temp ∨ isExistedFile temp fs = false) := by
  by_cases h0 : type = 0
  · subst h0
    simp [kindKept_string htype hr]
  · by_cases h1 : type = 1
    · subst h1
      simp [kindKept_file ht htype hr]
    · simp [kindKept_other h0 h1 htype hr, h0, h1]

end Kinds

/-- Files among which there is one at the path `p`. -/
def exampleFiles : Files := Files.blank.put (ascii "p") (ascii "secret")

theorem isExistedFile_exampleFiles : isExistedFile (ascii "p") exampleFiles = true := by
  rw [isExistedFile, exampleFiles, Files.openRead_put_self rfl rfl]
  rfl

theorem kindKept_iff_example : ∃ r,
    recv (exampleTemppath 0) exampleFiles (frameConn 0 1 [ascii "q"]) = .ok r ∧
      (KindKept 0 (exampleTemppath 0) exampleFiles r ↔
        ((0 : UInt8) = 0 → r.data.take 2 = LIST_PREFIX ∨ r.data.take 2 = PING_PREFIX ∨
          isExistedFile r.data exampleFiles = false) ∧
        ((0 : UInt8) = 1 → exampleFiles.canWrite (exampleTemppath 0) ∨
          isExistedFile (exampleTemppath 0) exampleFiles = false)) := by
  obtain ⟨r, hr, -⟩ := recv_frame (exampleTemppath 0) exampleFiles 0
    (show (ascii "q").length < 2 ^ 31 by decide) List.flatten_singleton
  exact ⟨r, hr, kindKept_iff (isTempPath_exampleTemppath (by decide)) rfl hr⟩

/-- A string that names a file of the node is taken for a packet. -/
theorem not_kindKept_local : ∃ r,
    recv (exampleTemppath 0) exampleFiles (frameConn 0 1 [ascii "p"]) = .ok r ∧
      ¬ KindKept 0 (exampleTemppath 0) exampleFiles r := by
  obtain ⟨r, hr, -, hdata, -⟩ := recv_frame (exampleTemppath 0) exampleFiles 0
    (show (ascii "p").length < 2 ^ 31 by decide) List.flatten_singleton
  replace hdata : r.data = ascii "p" := hdata
  refine ⟨r, hr, ?_⟩
  rw [kindKept_string rfl hr, hdata, isExistedFile_exampleFiles]
  decide

/-! ## Packets that are dropped -/

/-- The path that `deserialize` opens for writing, if it opens one. -/
def Message.target (m : Message) (input locate : Bytes) (heap : ℕ) (fs : Files) :
    Run (Option Bytes) :=
  match fs.openRead input with
  | none => .ok none
  | some file => do
    match ← readHeader m file with
    | none => return none
    | some (m, r) =>
      if m.type = 1 then return none
      else
        let (path, _) ← bodyPath m r locate heap
        return if path ≠ [] ∧ fs.canWrite path then some path else none

/-- `file` is a message of type 2 for a file of the name `name`, whose size `new` can allocate. -/
def NamesFile (heap : ℕ) (file name : Bytes) : Prop :=
  ∃ from_ to_ time size rest, from_.length ≤ 1025 ∧ to_.length ≤ 1025 ∧ size.length = 8 ∧
    ofBE size ≤ heap ∧ file = header from_ to_ 2 time ++ (size ++ rest) ∧
    name = cstr (rest.take (ofBE size))

section Target

variable {m m' : Message} {input locate path file : Bytes} {heap : ℕ} {fs fs' : Files} {ok : Bool}

theorem target_eq_some_iff : m.target input locate heap fs = .ok (some path) ↔
    ∃ file m₁ r r', fs.openRead input = some file ∧ m.readHeader file = .ok (some (m₁, r)) ∧
      m₁.type ≠ 1 ∧ m₁.bodyPath r locate heap = .ok (path, r') ∧ path ≠ [] ∧ fs.canWrite path := by
  constructor
  · intro h
    unfold target at h
    split at h
    · cases h
    · rename_i file hfile
      obtain ⟨_ | ⟨m₁, r⟩, hheader, h⟩ := Run.bind_eq_ok.1 h
      · cases h
      · dsimp only at h
        split_ifs at h with htype
        · cases h
        · obtain ⟨⟨path', r'⟩, hpath, h⟩ := Run.bind_eq_ok.1 h
          have hsome := Except.ok.inj h
          split_ifs at hsome with hopen
          cases hsome
          exact ⟨file, m₁, r, r', hfile, hheader, htype, hpath, hopen⟩
  · rintro ⟨file, m₁, r, r', hfile, hheader, htype, hpath, hopen⟩
    simp only [target, hfile, hheader, Run.ok_bind, if_neg htype, hpath, if_pos hopen]
    rfl

/-- The name of a file that `new` cannot hold makes it throw; nothing behind the header is
undefined. -/
theorem bodyPath_ne_undefined (m : Message) (r : Reader) (locate : Bytes) (heap : ℕ) :
    m.bodyPath r locate heap ≠ .error .undefined := by
  simp only [bodyPath, Reader.filename]
  split_ifs <;> simp

/-- **What is opened is determined** exactly when the names in the header fit the buffer. -/
theorem target_ne_undefined_iff (hfile : fs.openRead input = some file) :
    m.target input locate heap fs ≠ .error .undefined ↔ NamesFit file := by
  simp only [target, hfile]
  by_cases hfit : NamesFit file
  · refine iff_of_true ?_ hfit
    obtain ⟨_ | ⟨m₁, r⟩, hx⟩ := (readHeader_defined_iff m file).2 hfit
    · rw [hx]
      exact nofun
    · rw [hx, Run.ok_bind]
      dsimp only
      split_ifs
      · exact nofun
      · have hpath := bodyPath_ne_undefined m₁ r locate heap
        cases hbody : m₁.bodyPath r locate heap with
        | ok x => exact nofun
        | error e =>
          rw [hbody] at hpath
          intro h
          have he : (.error e : Run (Option Bytes)) = .error .undefined := h
          exact hpath (congrArg Except.error (Except.error.inj he))
  · rw [readHeader_of_not_namesFit hfit]
    exact iff_of_false (fun h => h rfl) hfit

/-- **`deserialize` changes no file but the one it opens for writing.** -/
theorem deserialize_files (h : m.deserialize input locate heap fs = .ok (ok, m', fs')) :
    fs' = fs ∨ ∃ path body, m.target input locate heap fs = .ok (some path) ∧
      fs' = fs.put path body := by
  unfold deserialize at h
  split at h
  · cases h
    exact .inl rfl
  · rename_i file hfile
    obtain ⟨header, hheader, h⟩ := Run.bind_eq_ok.1 h
    obtain _ | ⟨m₁, r⟩ := header
    · cases h
      exact .inl rfl
    · simp only [Message.readBody] at h
      split_ifs at h with htype
      · cases h
        exact .inl rfl
      · obtain ⟨⟨path, r'⟩, hpath, h⟩ := Run.bind_eq_ok.1 h
        dsimp only at h
        split_ifs at h with hnil hw
        · cases h
          exact .inl rfl
        · cases h
          exact .inr ⟨path, _, target_eq_some_iff.2
            ⟨file, m₁, r, r', hfile, hheader, htype, hpath, hnil, hw⟩, rfl⟩
        · cases h
          exact .inl rfl

/-- The file opened for writing is the temporary one, unless the message names it. -/
theorem target_cases (h : m.target input locate heap fs = .ok (some path)) :
    path = locate ∨ path ≠ [] ∧ fs.canWrite path ∧
      ∃ file, fs.openRead input = some file ∧ NamesFile heap file path := by
  obtain ⟨file, m₁, r, r', hfile, hheader, htype, hpath, hne, hw⟩ := target_eq_some_iff.1 h
  unfold bodyPath at hpath
  split_ifs at hpath with h2 h0
  · obtain ⟨from_, to_, type, content⟩ := m₁
    obtain rfl : type = 2 := h2
    -- a name that is not empty was read before the end of the file
    have heof := (Reader.filename_eof hpath hne).2
    obtain ⟨hf, ht, hs, time, hfile'⟩ := readHeader_whole hheader heof
    obtain ⟨size, rest, hsize, hheap, hrest, hname⟩ := Reader.filename_whole hs hpath hne
    rw [hrest] at hfile'
    exact .inr ⟨hne, hw, file, hfile, from_, to_, time, size, rest, hf, ht, hsize, hheap, hfile',
      hname⟩
  · cases hpath
    exact .inl rfl
  · cases hpath
    exact absurd rfl hne

/-- A message of type 2 that names a file opens it. -/
theorem target_of_namesFile (hfile : fs.openRead input = some file) (h : NamesFile heap file path)
    (hne : path ≠ []) (hw : fs.canWrite path) :
    m.target input locate heap fs = .ok (some path) := by
  obtain ⟨from_, to_, time, size, rest, hf, ht, hsize, hheap, rfl, rfl⟩ := h
  obtain ⟨r, hheader, hat⟩ := readHeader_header m hf ht 2 time (size ++ rest)
  obtain ⟨r', hname⟩ := hat.filename hsize hheap
  refine target_eq_some_iff.2 ⟨_, _, r, r', hfile, hheader, ?_, ?_, hne, hw⟩
  · exact (by decide : (2 : UInt8) ≠ 1)
  · exact hname

/-- A file names one file at most. -/
theorem NamesFile.unique {name name' : Bytes} (h : NamesFile heap file name)
    (h' : NamesFile heap file name') : name = name' := by
  obtain ⟨f, t, time, size, rest, hf, ht, hsize, hheap, rfl, rfl⟩ := h
  obtain ⟨f', t', time', size', rest', hf', ht', hsize', hheap', heq, rfl⟩ := h'
  obtain ⟨r, hheader, hat⟩ := readHeader_header clear hf ht 2 time (size ++ rest)
  obtain ⟨r', hheader', hat'⟩ := readHeader_header clear hf' ht' 2 time' (size' ++ rest')
  rw [← heq, hheader, Except.ok.injEq, Option.some.injEq, Prod.mk.injEq] at hheader'
  obtain ⟨-, rfl⟩ := hheader'
  obtain ⟨_, hname⟩ := hat.filename hsize hheap
  obtain ⟨_, hname'⟩ := hat'.filename hsize' hheap'
  rw [hname, Except.ok.injEq, Prod.mk.injEq] at hname'
  exact hname'.1

/-- A file named in a header is behind names that fit. -/
theorem NamesFile.namesFit {name : Bytes} (h : NamesFile heap file name) : NamesFit file := by
  obtain ⟨f, t, time, size, rest, hf, ht, -, -, rfl, -⟩ := h
  obtain ⟨r, hheader, -⟩ := readHeader_header clear hf ht 2 time (size ++ rest)
  exact (readHeader_defined_iff clear _).1 ⟨_, hheader⟩

/-- Whatever temporary path `deserialize` draws, it is defined, and a file that it opens for writing
is the temporary one or has a name without `/`. -/
def Permitted (m : Message) (input : Bytes) (heap : ℕ) (fs : Files) : Prop :=
  ∀ locate, IsTempPath locate → m.target input locate heap fs ≠ .error .undefined ∧
    ∀ path, m.target input locate heap fs = .ok (some path) → path = locate ∨ 47 ∉ path

end Target

/-- A message of type 2 from `a` to `c` for a file of the name `p`. -/
def exampleNamed : Bytes :=
  header (ascii "a") (ascii "c") 2 0 ++ (be 8 (ascii "p").length ++ (ascii "p" ++ ascii "x"))

theorem namesFile_exampleNamed : NamesFile 1 exampleNamed (ascii "p") :=
  ⟨ascii "a", ascii "c", 0, be 8 1, ascii "p" ++ ascii "x", by decide, by decide, by decide,
    by decide, rfl, by decide⟩

/-- A message of type 2 from `a` to `c` for a file in the root directory. -/
def exampleSlash : Bytes :=
  header (ascii "a") (ascii "c") 2 0 ++ (be 8 2 ++ (ascii "/p" ++ ascii "x"))

/-- Handling a packet that is dropped: the node opens no file for writing but its new ones, changes
no other file, and does nothing else. -/
structure Harmless (d : ListenDraws) (msgr : Messanger) (fs : Files) (file : Bytes)
    (s : Served) : Prop where
  opened : ∀ path, Message.clear.target d.recvPath d.outerPath d.heap (fs.put d.recvPath file) =
    .ok (some path) → path ∈ [d.recvPath, d.outerPath]
  files : ∀ q ∉ [d.recvPath, d.outerPath], s.fs.get q = fs.get q
  msgr_eq : s.msgr = msgr
  pushed : s.pushed = none
  sent : s.sent = none
  reply : s.reply = none

section Dropped

variable {env : Env} {d : ListenDraws} {msgr : Messanger} {fs fs' : Files} {file : Bytes}

/-- A packet dropped in the outer phase has been read by `deserialize`, and that is all. -/
theorem handle_dropped (env : Env) (hf : fs.Fresh d.paths)
    (hdrop : openOuter d msgr d.recvPath (fs.put d.recvPath file) = .ok (none, fs')) :
    handle env d msgr d.recvPath (fs.put d.recvPath file) = .ok (.idle msgr fs') ∧
      ∃ ok m, Message.clear.deserialize d.recvPath d.outerPath d.heap (fs.put d.recvPath file) =
        .ok (ok, m, fs') := by
  refine ⟨?_, ?_⟩
  · rw [handle_file hf, onionPacket, openPacket, hdrop]
    rfl
  · obtain ⟨⟨ok, m, fs''⟩, hdes, hdrop⟩ := Run.bind_eq_ok.1 hdrop
    refine ⟨ok, m, ?_⟩
    dsimp only at hdrop
    split_ifs at hdrop <;> cases hdrop <;> exact hdes

/-- A file that a packet names is one of those that the node opens. -/
theorem Harmless.mem_of_namesFile (hf : fs.Fresh d.paths) {s : Served}
    (h : Harmless d msgr fs file s) {name : Bytes} (hname : NamesFile d.heap file name)
    (hne : name ≠ []) (hw : fs.canWrite name) : name ∈ [d.recvPath, d.outerPath] := by
  refine h.opened name (target_of_namesFile (hf.openRead_put List.mem_cons_self file) hname hne ?_)
  rwa [Files.canWrite_put]

/-- **A packet that is dropped leaves the files of the node alone** exactly when it is not a message
of type 2 that names a file which the node may write. -/
theorem dropped_harmless_iff (hf : fs.Fresh d.paths)
    (hdrop : openOuter d msgr d.recvPath (fs.put d.recvPath file) = .ok (none, fs')) :
    (∃ s, handle env d msgr d.recvPath (fs.put d.recvPath file) = .ok s ∧
      Harmless d msgr fs file s) ↔
    ∀ name, NamesFile d.heap file name → name ≠ [] → fs.canWrite name →
      name ∈ [d.recvPath, d.outerPath] := by
  obtain ⟨hhandle, ok, m, hdes⟩ := handle_dropped env hf hdrop
  have hread := hf.openRead_put (List.mem_cons_self) file
  constructor
  · rintro ⟨s, -, hs⟩ name hname hne hw
    exact hs.mem_of_namesFile hf hname hne hw
  · intro hnames
    have hopened : ∀ path, Message.clear.target d.recvPath d.outerPath d.heap
        (fs.put d.recvPath file) = .ok (some path) → path ∈ [d.recvPath, d.outerPath] := by
      intro path hpath
      rcases target_cases hpath with rfl | ⟨hne, hw, file', hfile', hname⟩
      · simp
      · rw [Files.canWrite_put] at hw
        cases hread.symm.trans hfile'
        exact hnames path hname hne hw
    refine ⟨_, hhandle, hopened, fun q hq => ?_, rfl, rfl, rfl, rfl⟩
    rw [List.mem_cons, List.mem_singleton, not_or] at hq
    have hrecv : (fs.put d.recvPath file).get q = fs.get q :=
      Files.get_put_of_ne (by rw [hf.cstr_eq List.mem_cons_self]; exact hq.1) file
    rcases deserialize_files hdes with rfl | ⟨path, body, htarget, rfl⟩
    · exact hrecv
    · have hpath := hopened path htarget
      have hcstr : cstr path = path := by
        refine hf.cstr_eq ?_
        simp only [ListenDraws.paths, List.mem_cons] at hpath ⊢
        tauto
      refine (Files.get_put_of_ne ?_ body).trans hrecv
      rw [hcstr]
      rintro rfl
      rw [List.mem_cons, List.mem_singleton] at hpath
      exact hpath.elim hq.1 hq.2

/-- A packet for another node is dropped. -/
theorem openOuter_other {f t body : Bytes} {time : ℕ} (hf : fs.Fresh d.paths)
    (hfl : f.length ≤ 1025) (htl : t.length ≤ 1025) (hne : msgr.name ≠ t) :
    openOuter d msgr d.recvPath (fs.put d.recvPath (header f t 0 time ++ body)) =
      .ok (none, (fs.put d.recvPath (header f t 0 time ++ body)).put d.outerPath body) := by
  have hfresh := hf.put_head (header f t 0 time ++ body)
  have hread := hf.openRead_put List.mem_cons_self (header f t 0 time ++ body)
  have hdes := deserialize_packet Message.clear d.heap hfl htl hread
    (hfresh.ne_nil List.mem_cons_self) (hfresh.canWrite List.mem_cons_self)
  simp [openOuter, hdes, binary, hne]

/-- A message of type 2 is dropped when its file has been written. -/
theorem openOuter_named {f t name body : Bytes} {time : ℕ} (hf : fs.Fresh d.paths)
    (hfl : f.length ≤ 1025) (htl : t.length ≤ 1025) (hn : name.length < 256 ^ 8)
    (hheap : name.length ≤ d.heap) (hne : cstr name ≠ []) (hw : fs.canWrite (cstr name)) :
    openOuter d msgr d.recvPath (fs.put d.recvPath
        (header f t 2 time ++ (be 8 name.length ++ (name ++ body)))) =
      .ok (none, (fs.put d.recvPath
        (header f t 2 time ++ (be 8 name.length ++ (name ++ body)))).put (cstr name) body) := by
  have hread := hf.openRead_put List.mem_cons_self
    (header f t 2 time ++ (be 8 name.length ++ (name ++ body)))
  have hdes := deserialize_named Message.clear d.outerPath hfl htl hn hheap hread hne
    (by rwa [Files.canWrite_put])
  simp [openOuter, hdes]

end Dropped

/-- A packet for `b`, received by `c`. -/
theorem dropped_harmless_iff_example :
    (∃ s, handle exampleEnv exampleListenDraws exampleClient exampleListenDraws.recvPath
        (Files.blank.put exampleListenDraws.recvPath
          (header (ascii "a") (ascii "b") 0 0 ++ [])) = .ok s ∧
      Harmless exampleListenDraws exampleClient Files.blank
        (header (ascii "a") (ascii "b") 0 0 ++ []) s) ↔
    ∀ name, NamesFile exampleListenDraws.heap (header (ascii "a") (ascii "b") 0 0 ++ []) name →
      name ≠ [] → Files.blank.canWrite name →
        name ∈ [exampleListenDraws.recvPath, exampleListenDraws.outerPath] :=
  dropped_harmless_iff fresh_exampleListenDraws
    (openOuter_other fresh_exampleListenDraws (by decide) (by decide) (by decide))

/-- Draws under which `new` can allocate a block of a byte. -/
def exampleHeapDraws : ListenDraws := { exampleListenDraws with heap := 1 }

/-- The node `c` drops the message, but it has opened the file `p` for writing. -/
theorem not_harmless_named : ∃ fs',
    openOuter exampleHeapDraws exampleClient exampleHeapDraws.recvPath
      (Files.blank.put exampleHeapDraws.recvPath exampleNamed) = .ok (none, fs') ∧
    ¬ ∃ s, handle exampleEnv exampleHeapDraws exampleClient exampleHeapDraws.recvPath
        (Files.blank.put exampleHeapDraws.recvPath exampleNamed) = .ok s ∧
      Harmless exampleHeapDraws exampleClient Files.blank exampleNamed s := by
  have hf : Files.blank.Fresh exampleHeapDraws.paths := fresh_exampleListenDraws
  refine ⟨_, openOuter_named hf (by decide) (by decide) (by decide) (by decide) (by decide) rfl, ?_⟩
  rintro ⟨s, -, hs⟩
  exact absurd (hs.mem_of_namesFile hf namesFile_exampleNamed (by decide) rfl) (by decide)

end Onion5
