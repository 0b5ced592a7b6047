import Onion5.Foundations.InStream
import Onion5.Foundations.Decimal
import Onion5.Foundations.Regex
import Onion5.Server.NodeManage
import Onion5.Server.Splitting

/-!
# The REST server

The model of `request_handler`, cut into the part that reads a request off the connection
(`receive`) and the part that serves it (`NodeManage.serve`). The connection is a stream of the
bytes the client sends before it closes its side. The answer goes into the same `iostream`, which
writes nothing any more once a read has hit the end of these bytes.

The body is read into a block of uninitialised memory and then taken for a C string; what that
memory and the memory behind it hold, up to its first NUL byte, is an argument.
-/

namespace Onion5

/-! ## Cutting strings -/

/-- The part of `s` before the first `c` and the part after it, as the calls of `substr` and `erase`
with positions from `find` compute them: without a `c` both are all of `s`. -/
def cut (c : UInt8) (s : Bytes) : Bytes × Bytes :=
  (s.takeWhile (· ≠ c), match s.dropWhile (· ≠ c) with | [] => s | _ :: rest => rest)

theorem cut_append {c : UInt8} {a : Bytes} (h : c ∉ a) (b : Bytes) :
    cut c (a ++ c :: b) = (a, b) := by
  rw [cut, takeWhile_ne_append h, dropWhile_ne_append h]

/-! ## Patterns -/

/-- `[0-9A-Za-z]` -/
def alnumClass : Regex UInt8 := .cls isAlnum

/-- `^[0-9A-Za-z][0-9A-Za-z-]{0,38}$` -/
def githubIdRegex : Regex UInt8 :=
  .seq alnumClass (.rep (.cls fun c => isAlnum c || c = 45) 0 38)

/-- `([0-9]|[1-9][0-9]|1[0-9]{2}|2[0-4][0-9]|25[0-5])` -/
def octetRegex : Regex UInt8 :=
  .alt (.cls isDigit) <|
  .alt (.seq (.cls fun c => 49 ≤ c ∧ c ≤ 57) (.cls isDigit)) <|
  .alt (.seq (.cls (· = 49)) (.rep (.cls isDigit) 2 0)) <|
  .alt (.seq (.cls (· = 50)) (.seq (.cls fun c => 48 ≤ c ∧ c ≤ 52) (.cls isDigit)))
    (.seq (.cls (· = 50)) (.seq (.cls (· = 53)) (.cls fun c => 48 ≤ c ∧ c ≤ 53)))

/-- `.`: everything but the line terminators. -/
def anyClass : Regex UInt8 := .cls fun c => c ≠ 10 ∧ c ≠ 13

/-- `^(octet.){3}octet$`. In the source the dot is written `\.` in an ordinary string literal, which
leaves `.` for the regular expression. -/
def ipv4AddressRegex : Regex UInt8 := .seq (.rep (.seq octetRegex anyClass) 3 0) octetRegex

/-! ## Reading a request -/

/-- What a request asks for, with the checks of the handler done. -/
inductive Request
  | getUsers
  | addUser (githubId ipAddress : Bytes)
  | deleteUser (githubId : Bytes)
  | bad
  deriving DecidableEq

/-- The loop over the header lines: `content_size`, and the stream after the blank line. Once the
stream has ended, `temp` stays a line that does not end the loop, and the loop goes on forever. -/
def headerLoop (is : InStream) (temp : Bytes) (contentSize : ℤ) : Run (ℤ × InStream) :=
  if _h : is.eof then .error .diverges
  else do
    let line := (is.getline temp).1
    let isSize : Bool := line.take 16 = ascii "Content-Length: "
    let erased := if isSize then line.drop 16 else line
    let contentSize ← if isSize then stoi erased else .ok contentSize
    if erased.length ≠ 1 then headerLoop (is.getline temp).2 erased contentSize
    else return (contentSize, (is.getline temp).2)
termination_by is.todo
decreasing_by exact InStream.todo_getline_lt (by simpa using _h) _

/-- The body of `n` bytes, in a block whose memory holds `memory`, and the stream after it. -/
def readBody (is : InStream) (n : ℕ) (memory : Bytes) : Bytes × InStream :=
  let (bufff, is) := is.read n
  ((cstr (overlay bufff memory)).take n, is)

/-- The loop over the fields: the last values of `github_id` and `ip_address`. -/
def formFields (output : List Bytes) : Bytes × Bytes :=
  output.foldl (fun r it =>
    let (name, value) := cut 61 it
    if name = ascii "github_id" then (value, r.2)
    else if name = ascii "ip_address" then (r.1, value)
    else r) ([], [])

/-- The check of the values of a form. -/
def checkForm (githubId ipAddress : Bytes) : Request :=
  if githubIdRegex.fullMatch githubId ∧ ipv4AddressRegex.fullMatch ipAddress then
    .addUser githubId ipAddress
  else .bad

/-- The branch of `POST /users`, and the stream after it. -/
def readPost (is : InStream) (memory : Bytes) : Run (Request × InStream) := do
  let (contentSize, is) ← headerLoop is [] 0
  if contentSize > 0 then
    let (temp, is) := readBody is contentSize.toNat memory
    let output ← stringSplit temp 38
    return (checkForm (formFields output).1 (formFields output).2, is)
  else return (.bad, is)

/-- `request_handler` up to the change of the directory, and the stream after its reads. -/
def receive (conn : InStream) (memory : Bytes) : Run (Request × InStream) :=
  let (buf, conn) := conn.getline []
  let (method, buf) := cut 32 buf
  if method ≠ ascii "GET" ∧ method ≠ ascii "POST" ∧ method ≠ ascii "DELETE" then .ok (.bad, conn)
  else
    let uri := (cut 32 buf).1
    if method = ascii "GET" ∧ uri = ascii "/users" then .ok (.getUsers, conn)
    else if method = ascii "POST" ∧ uri = ascii "/users" then readPost conn memory
    else if method = ascii "DELETE" ∧ uri.take 7 = ascii "/users/" then
      let uri := uri.drop 7
      if githubIdRegex.fullMatch uri then .ok (.deleteUser uri, conn) else .ok (.bad, conn)
    else .ok (.bad, conn)

/-- The request that `receive` reads. -/
def readRequest (conn : InStream) (memory : Bytes) : Run Request := do
  let r ← receive conn memory
  return r.1

/-! ## Serving it -/

/-- The directory and the answer after a request. -/
def NodeManage.serve (serialize : List Node → Bytes) (m : NodeManage) : Request → NodeManage × Bytes
  | .getUsers =>
    let content := m.getBinary serialize
    (m, ascii "HTTP/1.0 200 OK\r\n" ++ (ascii "Cotnent-Length: " ++ decimal content.length ++
      ascii "\r\n") ++ ascii "\r\n" ++ content)
  | .addUser githubId ipAddress =>
    (m.addUser githubId ipAddress, ascii "HTTP/1.0 200 OK\r\n\r\n")
  | .deleteUser githubId => (m.deleteUser githubId, ascii "HTTP/1.0 200 OK\r\n\r\n")
  | .bad => (m, ascii "HTTP/1.0 400 Bad Request\r\n\r\n")

/-- `(*conn) << reply`: what is written. The state of the stream is that of its reads. -/
def InStream.written (conn : InStream) (reply : Bytes) : Bytes := if conn.eof then [] else reply

/-- `request_handler`: the directory afterwards and what is written to the connection. -/
def requestHandler (serialize : List Node → Bytes) (conn : InStream) (memory : Bytes)
    (m : NodeManage) : Run (NodeManage × Bytes) := do
  let (r, conn) ← receive conn memory
  return ((m.serve serialize r).1, conn.written (m.serve serialize r).2)

section Handler

variable {serialize : List Node → Bytes} {conn is : InStream} {memory : Bytes} {r : Request}

theorem readRequest_eq_ok_iff :
    readRequest conn memory = .ok r ↔ ∃ is, receive conn memory = .ok (r, is) := by
  constructor
  · intro h
    obtain ⟨⟨r', is⟩, hr, h⟩ := Run.bind_eq_ok.1 h
    cases h
    exact ⟨is, hr⟩
  · rintro ⟨is, hr⟩
    rw [readRequest, hr]
    rfl

theorem requestHandler_of_receive (h : receive conn memory = .ok (r, is)) (m : NodeManage) :
    requestHandler serialize conn memory m =
      .ok ((m.serve serialize r).1, is.written (m.serve serialize r).2) := by
  rw [requestHandler, h]
  rfl

/-- A request that has been read is served, whether or not an answer can still be written. -/
theorem exists_requestHandler (h : readRequest conn memory = .ok r) (m : NodeManage) :
    ∃ reply, requestHandler serialize conn memory m = .ok ((m.serve serialize r).1, reply) := by
  obtain ⟨is, hr⟩ := readRequest_eq_ok_iff.1 h
  exact ⟨_, requestHandler_of_receive hr m⟩

end Handler

end Onion5
