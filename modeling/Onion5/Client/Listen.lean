import Onion5.Client.Messanger
import Onion5.Common.Node

/-!
# The listener

The model of one turn of `liste_loop`: a connection is accepted and read, and the string received
is handled as a LIST, a PING or, when a file of that name exists, an onion packet.

The code called outside the repository is an `Env`: gpg, and the protobuf parser, which may leave
a partly filled list behind when it fails; SHA-1 (`sha1.cc`) is in it too. What the environment
decides while one connection is served is a `ListenDraws`.
-/

namespace Onion5

/-- The functions the listener calls. -/
structure Env where
  /-- gpg decrypting with a user's name and passphrase; `none` for exit status 512 -/
  decrypt : Bytes → Bytes → Bytes → Option Bytes
  sha1 : Bytes → Bytes
  /-- `NodeList::ParseFromString`: the result, and the nodes of the message afterwards -/
  parseFromString : Bytes → Bool × List Node

/-- What the environment decides while one connection is served. -/
structure ListenDraws where
  /-- the temporary path of `recv` -/
  recvPath : Bytes
  /-- the temporary path of the first `deserialize` -/
  outerPath : Bytes
  /-- the temporary path of `decrypt_file` -/
  plainPath : Bytes
  /-- the temporary path of the second `deserialize` -/
  innerPath : Bytes
  /-- the temporary path of `serialize` -/
  relayPath : Bytes
  time : ℕ
  /-- whether `serialize` may open the body -/
  opens : Bool
  connect : Bytes → Bool
  /-- what `new` can allocate -/
  heap : ℕ

/-- The temporary paths. -/
def ListenDraws.paths (d : ListenDraws) : List Bytes :=
  [d.recvPath, d.outerPath, d.plainPath, d.innerPath, d.relayPath]

/-- What serving one connection does: the object and the files afterwards, the arguments of
`push_message`, the file handed to `send_file`, the answer sent back, and whether `send_file`
returns. -/
structure Served where
  msgr : Messanger
  fs : Files
  pushed : Option (Bytes × Bytes)
  sent : Option Sent
  reply : Option Bytes
  ret : Run Unit

/-- Nothing but the files changes. -/
def Served.idle (msgr : Messanger) (fs : Files) : Served := ⟨msgr, fs, none, none, none, .ok ()⟩

/-- The loop of `list.insert`s, on the cleared list. -/
def insertNodes (nodes : List Node) : NodeMap :=
  nodes.foldl (fun list node => list.insertIfNew node.githubId node.ipAddr) ∅

/-- The LIST branch. The result of `ParseFromString` is not looked at. -/
def listFrame (env : Env) (msgr : Messanger) (msg : Bytes) (fs : Files) : Run Served := do
  let len := toInt msg.length
  let postfix_ ← substr msg (toSize (len - 2)) 2
  if postfix_ ≠ LIST_POSTFIX then return .idle msgr fs
  let msg ← substr msg 2 (toSize (len - 4))
  return .idle { msgr with nodeList := insertNodes (env.parseFromString msg).2 } fs

/-- The PING branch. -/
def pingFrame (env : Env) (msgr : Messanger) (msg : Bytes) (fs : Files) : Run Served := do
  let len := toInt msg.length
  let postfix_ ← substr msg (toSize (len - 2)) 2
  if postfix_ ≠ PING_POSTFIX then return .idle msgr fs
  let key ← substr msg 2 (toSize (len - 4))
  let msg := env.sha1 (msgr.name ++ key)
  let msg := env.sha1 (key ++ msg)
  return { Served.idle msgr fs with reply := some (PONG_PREFIX ++ msg ++ PONG_POSTFIX) }

/-- The outer phase: the packet is read, and dropped unless it is a binary one for this node. -/
def openOuter (d : ListenDraws) (msgr : Messanger) (msg : Bytes) (fs : Files) :
    Run (Option Message × Files) := do
  let (ok, m, fs) ← Message.clear.deserialize msg d.outerPath d.heap fs
  if ¬ ok then return (none, fs)
  if msgr.name ≠ m.to_ then return (none, fs)
  if m.type ≠ 0 then return (none, fs)
  return (some m, fs)

/-- The inner phase: the body is decrypted and read. The result of `deserialize` is not looked
at. -/
def openInner (env : Env) (d : ListenDraws) (msgr : Messanger) (filename : Bytes) (fs : Files) :
    Run (Option Message × Files) := do
  let (ok, filename, fs) := msgr.gpg.decryptFile env.decrypt filename filename d.plainPath fs
  if ¬ ok then return (none, fs)
  let (_, m, fs) ← Message.clear.deserialize filename d.innerPath d.heap fs
  return (some m, fs)

/-- Both phases. -/
def openPacket (env : Env) (d : ListenDraws) (msgr : Messanger) (msg : Bytes) (fs : Files) :
    Run (Option Message × Files) := do
  match ← openOuter d msgr msg fs with
  | (none, fs) => return (none, fs)
  | (some m, fs) => openInner env d msgr m.content fs

/-- The relay branch: the message goes on to the address of its recipient, which `operator[]`
puts into the list. -/
def relay (d : ListenDraws) (msgr : Messanger) (m : Message) (fs : Files) : Served :=
  let ser := m.serialize d.relayPath d.time d.opens fs
  let (host, nodeList) := msgr.nodeList.index m.to_
  { msgr := { msgr with nodeList := nodeList }
    fs := ser.2.remove ser.1
    pushed := none
    sent := if d.connect host then some ⟨host, ser.1, ser.2.openRead ser.1⟩ else none
    reply := none
    ret := if d.connect host then discard (sendFile ser.1 ser.2) else .ok () }

/-- The delivery branch. -/
def deliver (msgr : Messanger) (m : Message) (fs : Files) : Served :=
  { Served.idle msgr fs with
    pushed :=
      if m.type = 1 then some (m.from_, m.from_ ++ ascii ": " ++ m.content)
      else if m.type = 2 then some (m.from_, m.from_ ++ ascii " send '" ++ m.content ++ ascii "'")
      else none }

/-- What becomes of an opened message. -/
def dispatch (d : ListenDraws) (msgr : Messanger) (m : Message) (fs : Files) : Served :=
  if msgr.name = m.from_ then relay d msgr m fs
  else if msgr.name = m.to_ then deliver msgr m fs
  else .idle msgr fs

/-- The branch for a message that names a file. -/
def onionPacket (env : Env) (d : ListenDraws) (msgr : Messanger) (msg : Bytes) (fs : Files) :
    Run Served := do
  match ← openPacket env d msgr msg fs with
  | (none, fs) => return .idle msgr fs
  | (some m, fs) => return dispatch d msgr m fs

/-- One turn of `liste_loop` after `recv`. -/
def handle (env : Env) (d : ListenDraws) (msgr : Messanger) (msg : Bytes) (fs : Files) :
    Run Served :=
  if msg.take 2 = LIST_PREFIX then listFrame env msgr msg fs
  else if msg.take 2 = PING_PREFIX then pingFrame env msgr msg fs
  else if isExistedFile msg fs then onionPacket env d msgr msg fs
  else .ok (.idle msgr fs)

/-- One turn of `liste_loop`, on an accepted connection. -/
def listeLoop (env : Env) (d : ListenDraws) (msgr : Messanger) (fs : Files) (client : Conn) :
    Run Served := do
  let r ← recv d.recvPath fs client
  let s ← handle env d msgr r.data r.fs
  let _ ← s.ret
  return s

end Onion5
