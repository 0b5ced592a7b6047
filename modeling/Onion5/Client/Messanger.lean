import Onion5.Common.TcpClient
import Onion5.Client.GpgWrapper
import Onion5.Client.Message

/-!
# Sending a message

The model of `Messanger::send_message`. It writes the text message, wraps it in one layer for
every node of the route, from the recipient back to the sender, and hands the last file to
`TCP_Client::send_file`. The results of `encrypt_file` and `serialize` are kept in `calls`, which
the source does not look at.

What the environment decides during a call (the temporary paths drawn, the times, the shuffle,
what each run of gpg does, whether files and connections can be opened) is a `SendDraws`.
-/

namespace Onion5

/-- `operator[]` of a map: the value, and the map with the key in it. -/
def NodeMap.index (list : NodeMap) (key : Bytes) : Bytes × NodeMap :=
  (list.getD key [], list.insertIfNew key [])

/-- The members of `class Messanger` that sending and listening use. -/
structure Messanger where
  gpg : GPG
  name : Bytes
  nodeList : NodeMap

/-- A file handed to `TCP_Client::send_file`: the address, the path, and what the file holds when
it is opened, if it can be. -/
structure Sent where
  host : Bytes
  path : Bytes
  content : Option Bytes
  deriving DecidableEq

/-- What the environment decides in one turn of the layer loop. -/
structure LayerDraws where
  /-- the temporary path of `encrypt_file` -/
  encPath : Bytes
  /-- whether this run of gpg exits with status 0 when it can open its input -/
  status : Bool
  /-- the ciphertext it then makes, from the recipient and the content of the input -/
  encrypt : Bytes → Bytes → Bytes
  /-- the temporary path of `serialize` -/
  serPath : Bytes
  time : ℕ
  /-- whether `serialize` may open the body -/
  opens : Bool

/-- This run of gpg. -/
def LayerDraws.gpg (d : LayerDraws) (recipient content : Bytes) : Option Bytes :=
  if d.status then some (d.encrypt recipient content) else none

/-- What the environment decides during `send_message`. -/
structure SendDraws where
  shuffle : List Bytes → List Bytes
  textPath : Bytes
  textTime : ℕ
  layer : ℕ → LayerDraws
  connect : Bytes → Bool

/-- The variables of the layer loop, the files, and the results of the calls made so far:
whether `encrypt_file` returned true, and whether `serialize` returned a path. -/
structure Layering where
  tempFrom : Bytes
  tempFile : Bytes
  filename : Bytes
  fs : Files
  calls : List (Bool × Bool)

/-- One turn of the layer loop; `hop` is `route.back()`. -/
def layerStep (g : GPG) (d : LayerDraws) (hop : Bytes) (st : Layering) : Layering :=
  let tempTo := st.tempFrom
  let enc := g.encryptFile d.gpg st.filename tempTo st.tempFile d.encPath st.fs
  let ser := (Message.binary hop tempTo enc.2.1).serialize d.serPath d.time d.opens enc.2.2
  { tempFrom := hop
    tempFile := enc.2.1
    filename := ser.1
    fs := ser.2
    calls := st.calls ++ [(enc.1, !ser.1.isEmpty)] }

/-- The layer loop, over the route from its back. -/
def layerLoop (g : GPG) (layer : ℕ → LayerDraws) : ℕ → List Bytes → Layering → Layering
  | _, [], st => st
  | i, hop :: rest, st => layerLoop g layer (i + 1) rest (layerStep g (layer i) hop st)

/-- What `send_message` does: the value it returns, the object and the files afterwards, the file
it handed over, and the results of the calls of its loop. -/
structure SendResult where
  ret : Run Bool
  msgr : Messanger
  fs : Files
  sent : Option Sent
  calls : List (Bool × Bool)

/-- The route of `send_message`. -/
def Messanger.route (m : Messanger) (to_ : Bytes) (d : SendDraws) : List Bytes :=
  generatePath m.nodeList m.name to_ 3 d.shuffle

/-- The address of the first hop. -/
def Messanger.firstHop (m : Messanger) (route : List Bytes) : Bytes :=
  m.nodeList.getD (route.getD 1 []) []

/-- `send_message` up to the end of its loop, along `route`. -/
def Messanger.layers (m : Messanger) (route : List Bytes) (content : Bytes) (d : SendDraws)
    (fs : Files) : Layering :=
  let strFrom := route.headD []
  let strTo := route.getLastD []
  let ser := (Message.text strFrom strTo content).serialize d.textPath d.textTime true fs
  layerLoop m.gpg d.layer 0 route.reverse ⟨strTo, [], ser.1, ser.2, []⟩

/-- `Messanger::send_message`. -/
def Messanger.sendMessage (m : Messanger) (to_ content : Bytes) (d : SendDraws) (fs : Files) :
    SendResult :=
  if to_ ∉ m.nodeList then ⟨.ok false, m, fs, none, []⟩
  else
    let route := m.route to_ d
    let strNext := route.getD 1 []
    let st := m.layers route content d fs
    let (host, nodeList) := m.nodeList.index strNext
    let m := { m with nodeList := nodeList }
    if ¬ d.connect host then ⟨.ok false, m, st.fs, none, st.calls⟩
    else
      { ret := do
          let _ ← sendFile st.filename st.fs
          return true
        msgr := m
        fs := st.fs
        sent := some ⟨host, st.filename, st.fs.openRead st.filename⟩
        calls := st.calls }

end Onion5
