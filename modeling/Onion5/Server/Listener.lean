import Onion5.Server.RequestHandler
import Onion5.Server.Dissemination

/-!
# The listener at work

The loop of `boradcast_listener` as a process of its own. For every datagram with an id it asks the
REST server twice, each time over a new connection: `add_node` posts the registration, and
`send_list` fetches the list with `get_nodes` and sends it to the address of the datagram. Other
requests may be served in between, the clients do what they do, either connection may fail, and so
may the one to the client, which can kill the process (`Listening.Move`).

* `getNodes_serve`: the list that `get_nodes` returns is the one of the directory, whoever else has
  been served before.
* `Listening.Moves.runs`: so a run of the listener is one of `World.Runs`.
* `Listening.joins_of_run`: from the registration of a client on, every list that the listener sends
  has it, until its deletion is asked for.
* `getNodes_cut`, `sendList_cut`: the size of the list is in a header line with a misspelled name,
  so an answer that breaks off passes for a shorter list.
-/

namespace Onion5

open OrderedMap (Op current)

/-! ## Fetching the list -/

/-- libcurl getting a URL: the request it writes, and from what it receives, if it can connect,
whether the transfer succeeds and the pieces that it hands to the write function. -/
structure CurlGet where
  request : Bytes → Bytes
  perform : Option Bytes → Bool × List Bytes

/-- `WriteCallback`. -/
def writeCallback (userp contents : Bytes) : Bytes := userp ++ contents

/-- `HTTP::_get`: the request. -/
def httpGetRequest (curl : CurlGet) (url : Bytes) : Bytes := curl.request (cstr url)

/-- `HTTP::_get`: whether it succeeds, and `str` afterwards. -/
def httpGet (curl : CurlGet) (received : Option Bytes) (str : Bytes) : Bool × Bytes :=
  let (res, pieces) := curl.perform received
  (res, pieces.foldl writeCallback str)

/-- `Client_REST::get_nodes`: the request. -/
def getNodesRequest (curl : CurlGet) : Bytes := httpGetRequest curl baseUrl

/-- `Client_REST::get_nodes`: the list, from what is received. -/
def getNodes (curl : CurlGet) (received : Option Bytes) : Bytes :=
  let (ok, buff) := httpGet curl received []
  if ok then buff else []

/-- What stands before the list in an answer to `GET /users`. -/
def answerHeader (size : ℕ) : Bytes :=
  ascii "HTTP/1.0 200 OK\r\n" ++ (ascii "Cotnent-Length: " ++ decimal size ++ ascii "\r\n") ++
    ascii "\r\n"

/-- libcurl writes a well-formed request. No header line that it knows gives the size of an answer,
so all that comes before the end of the connection is the body. -/
structure CurlGet.Gets (curl : CurlGet) : Prop where
  request : ∃ lines : List Bytes, (∀ line ∈ lines, IsHeader line) ∧ curl.request baseUrl =
    ascii "GET /users HTTP/1.1" ++ crlf ++ (headerLines lines ++ crlf)
  answer : ∀ size body, ∃ pieces, curl.perform (some (answerHeader size ++ body)) = (true, pieces) ∧
    pieces.flatten = body
  unanswered : (curl.perform none).1 = false

theorem foldl_writeCallback (pieces : List Bytes) (str : Bytes) :
    pieces.foldl writeCallback str = str ++ pieces.flatten := by
  have hmap : pieces.foldl writeCallback str = str ++ (pieces.map id).flatten :=
    List.foldl_append_eq_append
  rw [hmap, List.map_id]

section GetNodes

variable {get : CurlGet} (hget : get.Gets) {serialize : List Node → Bytes}

include hget

theorem getNodes_answer (size : ℕ) (body : Bytes) :
    getNodes get (some (answerHeader size ++ body)) = body := by
  obtain ⟨pieces, hperform, rfl⟩ := hget.answer size body
  rw [getNodes, httpGet, hperform]
  exact foldl_writeCallback pieces []

theorem getNodes_none : getNodes get none = [] := by
  have hfail := hget.unanswered
  rw [getNodes, httpGet]
  generalize get.perform none = r at hfail
  obtain ⟨res, pieces⟩ := r
  rw [show res = false from hfail]
  rfl

/-- The request is served as one for the list. -/
theorem requestHandler_getNodes (memory : Bytes) (m : NodeManage) :
    requestHandler serialize (.opened (getNodesRequest get)) memory m =
      .ok (m.serve serialize .getUsers) := by
  obtain ⟨lines, -, hrequest⟩ := hget.request
  have hurl : cstr baseUrl = baseUrl := by decide
  have hline : InStream.getline (.opened (getNodesRequest get)) [] =
      (ascii "GET /users HTTP/1.1" ++ [13], ⟨headerLines lines ++ crlf, false⟩) := by
    rw [getNodesRequest, httpGetRequest, hurl, hrequest]
    exact getline_crlf _ _ (by decide)
  have htarget : HasTarget (ascii "GET /users HTTP/1.1" ++ [13]) (ascii "GET") (ascii "/users") :=
    ⟨by decide, .inr ⟨ascii "HTTP/1.1" ++ [13], rfl⟩⟩
  rw [requestHandler_of_receive (receive_getUsers hline htarget memory)]
  rfl

/-- **`get_nodes` returns the list of the directory.** -/
theorem getNodes_serve (m : NodeManage) :
    getNodes get (some (m.serve serialize .getUsers).2) = m.getBinary serialize :=
  getNodes_answer hget _ _

/-- What a pass of the health server goes through. -/
theorem snapshot_eq_getNodes (parseFromString : Bytes → Bool × List Node) (m : NodeManage) :
    m.snapshot serialize parseFromString =
      (parseFromString (getNodes get (some (m.serve serialize .getUsers).2))).2 := by
  rw [getNodes_serve hget]
  rfl

/-- What becomes of the answer to the request, which changes nothing. -/
theorem getNodes_of_requestHandler {memory reply : Bytes} {m m' : NodeManage}
    (hm : requestHandler serialize (.opened (getNodesRequest get)) memory m = .ok (m', reply)) :
    m' = m ∧ getNodes get (some reply) = m.getBinary serialize := by
  have hserve := Except.ok.inj (hm.symm.trans (requestHandler_getNodes hget memory m))
  obtain rfl : reply = (m.serve serialize .getUsers).2 := congrArg Prod.snd hserve
  exact ⟨congrArg Prod.fst hserve, getNodes_serve hget m⟩

/-- **An answer that breaks off** within the list passes for a whole one. -/
theorem getNodes_cut (size : ℕ) (content : Bytes) (k : ℕ) :
    getNodes get (some ((answerHeader size ++ content).take ((answerHeader size).length + k))) =
      content.take k := by
  rw [List.take_length_add_append, getNodes_answer hget]

end GetNodes

/-! ## The loop of the listener -/

/-- Where the listener is: before a datagram, in `send_list` for an address, or at its end. -/
inductive Phase
  | waiting
  | sending (addr : InAddr)
  | killed
  deriving DecidableEq

/-- The server with its clients, and where the listener is. -/
structure Listening where
  world : World
  phase : Phase

namespace Listening

/-- The steps of the system, with the changes of the directory that they ask for. -/
inductive Move (serialize : List Node → Bytes) (env : Env) (post : Curl) (get : CurlGet) :
    Listening → List (Op Bytes Bytes) → Listening → Prop
  /-- somebody else's step, which fetches no list -/
  | world {w w' phase new} (h : World.Step serialize env w new w')
      (hno : w'.flight.length ≤ w.flight.length) :
      Move serialize env post get ⟨w, phase⟩ new ⟨w', phase⟩
  /-- a datagram without an id -/
  | ignore {w payload} (hid : datagramId payload = .ok []) :
      Move serialize env post get ⟨w, .waiting⟩ [] ⟨w, .waiting⟩
  /-- a datagram with an id, and `add_node` -/
  | register {w payload addr githubId memory r m reply} (hid : datagramId payload = .ok githubId)
      (hne : githubId ≠ [])
      (hr : readRequest (.opened (addNode post (trimRight githubId) (inetNtoa addr))) memory =
        .ok r)
      (hm : requestHandler serialize
        (.opened (addNode post (trimRight githubId) (inetNtoa addr))) memory w.directory =
          .ok (m, reply)) :
      Move serialize env post get ⟨w, .waiting⟩ r.changes
        ⟨{ w with directory := m }, .sending addr⟩
  /-- the same, when `add_node` cannot connect -/
  | unheard {w payload addr githubId} (hid : datagramId payload = .ok githubId)
      (hne : githubId ≠ []) : Move serialize env post get ⟨w, .waiting⟩ [] ⟨w, .sending addr⟩
  /-- `send_list`, to an address that takes the frame -/
  | answered {w addr memory m reply frame}
      (hm : requestHandler serialize (.opened (getNodesRequest get)) memory w.directory =
        .ok (m, reply))
      (hf : sendList (getNodes get (some reply)) = .ok frame) :
      Move serialize env post get ⟨w, .sending addr⟩ []
        ⟨{ w with directory := m, flight := w.flight ++ frame.toList.map (addr, ·) }, .waiting⟩
  /-- `send_list`, to an address that refuses the connection or breaks it off: the result of
  `connect` is not looked at, and a write ends the process with `SIGPIPE` -/
  | refused {w addr memory m reply}
      (hm : requestHandler serialize (.opened (getNodesRequest get)) memory w.directory =
        .ok (m, reply))
      (hne : getNodes get (some reply) ≠ []) :
      Move serialize env post get ⟨w, .sending addr⟩ [] ⟨{ w with directory := m }, .killed⟩
  /-- the same, when the write returns -1 instead -/
  | broken {w addr memory m reply}
      (hm : requestHandler serialize (.opened (getNodesRequest get)) memory w.directory =
        .ok (m, reply))
      (hne : getNodes get (some reply) ≠ []) :
      Move serialize env post get ⟨w, .sending addr⟩ [] ⟨{ w with directory := m }, .waiting⟩
  /-- `send_list`, when libcurl cannot connect -/
  | unanswered {w addr frame} (hf : sendList (getNodes get none) = .ok frame) :
      Move serialize env post get ⟨w, .sending addr⟩ []
        ⟨{ w with flight := w.flight ++ frame.toList.map (addr, ·) }, .waiting⟩

/-- A run, with the changes of the directory asked for in it. -/
inductive Moves (serialize : List Node → Bytes) (env : Env) (post : Curl) (get : CurlGet) :
    Listening → List (Op Bytes Bytes) → Listening → Prop
  | refl (l : Listening) : Moves serialize env post get l [] l
  | tail {l l' l'' trace new} (h : Moves serialize env post get l trace l')
      (hm : Move serialize env post get l' new l'') :
      Moves serialize env post get l (trace ++ new) l''

variable {serialize : List Node → Bytes} {env : Env} {post : Curl} {get : CurlGet}
  {l l' : Listening} {w w' : World} {addr : InAddr} {new trace : List (Op Bytes Bytes)}

/-- **The end of a turn.** Nothing is sent, or the list of the directory at this moment. -/
theorem Move.ends (hget : get.Gets) {phase : Phase} (hphase : phase ≠ .sending addr)
    (h : Move serialize env post get ⟨w, .sending addr⟩ new ⟨w', phase⟩) :
    new = [] ∧ (w' = w ∨ phase = .waiting ∧ ∃ frame,
      sendList (w.directory.getBinary serialize) = .ok (some frame) ∧
        w' = { w with flight := w.flight ++ [(addr, frame)] }) := by
  cases h with
  | world => exact absurd rfl hphase
  | @answered _ _ memory m reply frame hm hf =>
    obtain ⟨rfl, hlist⟩ := getNodes_of_requestHandler hget hm
    rw [hlist] at hf
    cases frame with
    | none => exact ⟨rfl, .inl (by simp)⟩
    | some frame => exact ⟨rfl, .inr ⟨rfl, frame, hf, rfl⟩⟩
  | refused hm | broken hm =>
    obtain ⟨rfl, -⟩ := getNodes_of_requestHandler hget hm
    exact ⟨rfl, .inl rfl⟩
  | unanswered hf =>
    rw [getNodes_none hget] at hf
    cases hf
    exact ⟨rfl, .inl (by simp)⟩

/-- One step of the listener is none of the world, or one. -/
theorem Move.runs (hget : get.Gets) (h : Move serialize env post get l new l') :
    World.Runs serialize env l.world new l'.world := by
  have hends {w w' : World} (addr : InAddr) {phase : Phase} {new : List (Op Bytes Bytes)}
      (hphase : phase ≠ .sending addr)
      (h : Move serialize env post get ⟨w, .sending addr⟩ new ⟨w', phase⟩) :
      World.Runs serialize env w new w' := by
    obtain ⟨rfl, rfl | ⟨-, frame, hf, rfl⟩⟩ := h.ends hget hphase
    · exact .refl _
    · exact (World.Runs.refl w).tail (.fetch addr hf)
  cases h with
  | world h => exact (World.Runs.refl _).tail h
  | ignore => exact .refl _
  | register _ _ hr hm => exact (World.Runs.refl _).tail (.request hr hm)
  | unheard => exact .refl _
  | answered hm hf => exact hends _ (by simp) (.answered hm hf)
  | @refused _ addr _ _ _ hm hne => exact hends addr (by simp) (.refused hm hne)
  | @broken _ addr _ _ _ hm hne => exact hends addr (by simp) (.broken hm hne)
  | unanswered hf => exact hends _ (by simp) (.unanswered hf)

/-- **A run of the listener is one of the world.** -/
theorem Moves.runs (hget : get.Gets) (h : Moves serialize env post get l trace l') :
    World.Runs serialize env l.world trace l'.world := by
  induction h with
  | refl => exact .refl _
  | tail _ hm ih => exact ih.trans (hm.runs hget)

/-- A listener that has been killed stays so. -/
theorem Moves.killed (h : Moves serialize env post get l trace l') (hl : l.phase = .killed) :
    l'.phase = .killed := by
  induction h with
  | refl => exact hl
  | tail _ hm ih =>
    cases hm with
    | world => exact ih
    | _ => cases ih

/-- The frame leaves every client with the list. -/
def Leaves (env : Env) (frame : Bytes) (list : Bytes → Option Bytes) : Prop :=
  ∀ (msgr : Messanger) (fs : Files) (d : ListenDraws) (segs : List Bytes),
    segs.flatten = frame.drop 9 → ∃ s, listeLoop env d msgr fs (scriptOf frame segs) = .ok s ∧
      ∀ id : Bytes, s.msgr.nodeList[id]? = list id

theorem leaves_of_reaches (hparse : ∀ nodes, env.parseFromString (serialize nodes) = (true, nodes))
    {ok : NodeManage → Request → Prop} {m : NodeManage} {ops : List (Op Bytes Bytes)}
    (h : NodeManage.Reaches serialize ok m ops) {frame : Bytes}
    (hf : sendList (m.getBinary serialize) = .ok (some frame)) : Leaves env frame (current ops) :=
  fun msgr fs d _ hsegs => ⟨_, World.listeLoop_sent hf hsegs d msgr fs,
    World.getElem?_insertNodes_of_reaches hparse h⟩

/-- The listener, which is about to send the list to `a`, can do so if `a` takes it, unless it is
too long. Whatever it sends leaves the client with `list`, and if it sends nothing, it goes on or
has been killed. -/
structure Sends (serialize : List Node → Bytes) (env : Env) (post : Curl) (get : CurlGet)
    (w : World) (a : InAddr) (list : Bytes → Option Bytes) : Prop where
  can_send : (w.directory.getBinary serialize).length + 4 < 2 ^ 31 → ∃ frame,
    Move serialize env post get ⟨w, .sending a⟩ []
      ⟨{ w with flight := w.flight ++ [(a, frame)] }, .waiting⟩
  leaves : ∀ {new w' phase}, phase ≠ .sending a →
    Move serialize env post get ⟨w, .sending a⟩ new ⟨w', phase⟩ → new = [] ∧ (w' = w ∨
      phase = .waiting ∧ ∃ frame, w' = { w with flight := w.flight ++ [(a, frame)] } ∧
        Leaves env frame list)

section Joins

variable {w₀ : World} {ops : List (Op Bytes Bytes)} {id : Bytes}

/-- **The second half of a turn.** -/
theorem sends_of_reaches (hget : get.Gets) (hempty : serialize [] = [])
    (hparse : ∀ nodes, env.parseFromString (serialize nodes) = (true, nodes))
    (h : NodeManage.Reaches serialize (fun _ _ => True) w.directory ops) {node : Node}
    (hnode : node ∈ w.directory.nodeList) (a : InAddr) :
    Sends serialize env post get w a (current ops) where
  can_send hlen := by
    have hf := sendList_eq (getBinary_ne_nil hempty hparse hnode) hlen
    rw [← getNodes_serve hget] at hf
    exact ⟨_, .answered (requestHandler_getNodes hget [] w.directory) hf⟩
  leaves hphase hmove := by
    obtain ⟨hnew, rfl | ⟨hwaiting, frame, hf, rfl⟩⟩ := hmove.ends hget hphase
    · exact ⟨hnew, .inl rfl⟩
    · exact ⟨hnew, .inr ⟨hwaiting, frame, rfl, leaves_of_reaches hparse h hf⟩⟩

/-- The first half of a turn, when a client has advertised itself. -/
theorem Move.advertised (hpost : post.Posts) (hid : githubIdRegex.fullMatch id) (memory : Bytes)
    (addr : InAddr) (w : World) :
    Move serialize env post get ⟨w, .waiting⟩ [.add id (inetNtoa addr)]
      ⟨{ w with directory := (w.directory.serve serialize (.addUser id (inetNtoa addr))).1 },
        Phase.sending addr⟩ := by
  obtain ⟨-, hread⟩ := @announce_advertise id hid post hpost serialize memory addr w.directory
  have hne : id ≠ [] := List.ne_nil_of_length_pos (length_githubId hid).1
  have hr : readRequest (.opened (addNode post (trimRight id) (inetNtoa addr))) memory =
      .ok (.addUser id (inetNtoa addr)) := by rwa [trimRight_githubId hid]
  obtain ⟨reply, hm⟩ := exists_requestHandler hr w.directory
  exact .register (datagramId_advertise hid) hne hr hm

/-- **Joining under way.** Whatever has happened before, a listener that has not been killed
registers a client that advertises itself. From then on, whatever is served in between, every list
that it sends, to this client or to another one, is the directory of that moment and has the client,
until somebody asks for its deletion. -/
theorem joins_of_run (hpost : post.Posts) (hget : get.Gets) (hempty : serialize [] = [])
    (hparse : ∀ nodes, env.parseFromString (serialize nodes) = (true, nodes)) (h : w₀.Starts)
    (hrun : Moves serialize env post get ⟨w₀, .waiting⟩ ops ⟨w, .waiting⟩)
    (hid : githubIdRegex.fullMatch id) (memory : Bytes) (addr : InAddr) :
    ∃ m, announce post serialize memory addr (advertise id) w.directory = .ok m ∧
      Move serialize env post get ⟨w, .waiting⟩ [.add id (inetNtoa addr)]
        ⟨{ w with directory := m }, Phase.sending addr⟩ ∧
      ∀ trace w' a, Moves serialize env post get
          ⟨{ w with directory := m }, Phase.sending addr⟩ trace ⟨w', .sending a⟩ →
        .del id ∉ trace →
        current (ops ++ .add id (inetNtoa addr) :: trace) id =
          some ((current ops id).getD (inetNtoa addr)) ∧
        Sends serialize env post get w' a (current (ops ++ .add id (inetNtoa addr) :: trace)) := by
  obtain ⟨hannounce, -⟩ := @announce_advertise id hid post hpost serialize memory addr w.directory
  have hmove : Move serialize env post get ⟨w, .waiting⟩ [.add id (inetNtoa addr)] _ :=
    .advertised hpost hid memory addr w
  refine ⟨_, hannounce, hmove, fun trace w' a hmoves hdel => ?_⟩
  have hreach : NodeManage.Reaches serialize (fun _ _ => True) w'.directory
      (ops ++ .add id (inetNtoa addr) :: trace) := by
    rw [List.append_cons]
    exact (World.holds_of_run hparse h (((hrun.tail hmove).runs hget).trans
      (hmoves.runs hget))).directory
  have hcurrent : current (ops ++ .add id (inetNtoa addr) :: trace) id =
      some ((current ops id).getD (inetNtoa addr)) := by
    rw [List.append_cons]
    refine OrderedMap.current_append ?_ hdel
    rw [OrderedMap.current_concat_add, if_pos rfl]
    cases current ops id <;> rfl
  exact ⟨hcurrent, sends_of_reaches hget hempty hparse hreach
    ((NodeManage.mem_nodeList_iff hreach).2 hcurrent) a⟩

end Joins

end Listening

/-! ## Answers that break off -/

/-- What follows the first empty line. -/
def bodyOf : Bytes → Bytes
  | [] => []
  | c :: s => if crlf ++ crlf <+: c :: s then s.drop 3 else bodyOf s

/-- A libcurl that adds no other header lines than its usual ones, and passes a body on in one
piece. -/
def exampleCurlGet : CurlGet where
  request url := ascii "GET " ++ url.drop 22 ++ ascii " HTTP/1.1" ++ crlf ++
    (headerLines [ascii "Host: 127.0.0.1:31337", ascii "Accept: */*"] ++ crlf)
  perform
    | none => (false, [])
    | some received =>
      if ascii "HTTP/1.0 200" <+: received then (true, [bodyOf received]) else (false, [])

theorem bodyOf_append {s : Bytes} (h : 13 ∉ s) (t : Bytes) : bodyOf (s ++ t) = bodyOf t := by
  induction s with
  | nil => rfl
  | cons c s ih =>
    rw [List.mem_cons, not_or] at h
    rw [List.cons_append, bodyOf, if_neg, ih h.2]
    exact fun hpre => h.1 (List.cons_prefix_cons.1 hpre).1

theorem bodyOf_answer (size : ℕ) (body : Bytes) : bodyOf (answerHeader size ++ body) = body := by
  have hsize : (13 : UInt8) ∉ 10 :: (ascii "Cotnent-Length: " ++ decimal size) := by
    simp only [List.mem_cons, List.mem_append, not_or]
    exact ⟨by decide, by decide, notMem_decimal rfl size⟩
  have hanswer : answerHeader size ++ body = ascii "HTTP/1.0 200 OK" ++
      13 :: (10 :: (ascii "Cotnent-Length: " ++ decimal size) ++ 13 :: 10 :: 13 :: 10 :: body) := by
    simp only [answerHeader, List.append_assoc]
    rfl
  rw [hanswer, bodyOf_append (by decide), bodyOf, if_neg, bodyOf_append hsize, bodyOf, if_pos]
  · rfl
  · exact List.prefix_append (crlf ++ crlf) body
  · intro hpre
    have htake := List.prefix_iff_eq_take.1 hpre
    cases htake

theorem gets_exampleCurlGet : exampleCurlGet.Gets where
  request := by
    refine ⟨_, ?_, rfl⟩
    rw [List.forall_mem_cons, List.forall_mem_singleton]
    exact ⟨⟨by decide, by decide, by decide⟩, by decide, by decide, by decide⟩
  answer size body := by
    refine ⟨[body], ?_, List.flatten_singleton⟩
    have hstatus : ascii "HTTP/1.0 200" <+: answerHeader size ++ body := ⟨_, rfl⟩
    simp only [exampleCurlGet, if_pos hstatus, bodyOf_answer]
  unanswered := rfl

/-- `a` joins an empty directory. -/
theorem Listening.joins_of_run_example :
    ∃ m, announce exampleCurl NodeList.serialize [] exampleAddr (advertise (ascii "a"))
        World.exampleWorld.directory = .ok m ∧
      Move NodeList.serialize exampleEnv exampleCurl exampleCurlGet ⟨World.exampleWorld, .waiting⟩
        [.add (ascii "a") (inetNtoa exampleAddr)]
        ⟨{ World.exampleWorld with directory := m }, Phase.sending exampleAddr⟩ ∧
      ∀ trace w' a, Moves NodeList.serialize exampleEnv exampleCurl exampleCurlGet
          ⟨{ World.exampleWorld with directory := m }, Phase.sending exampleAddr⟩ trace
          ⟨w', .sending a⟩ →
        .del (ascii "a") ∉ trace →
        current ([] ++ .add (ascii "a") (inetNtoa exampleAddr) :: trace) (ascii "a") =
          some ((current [] (ascii "a")).getD (inetNtoa exampleAddr)) ∧
        Sends NodeList.serialize exampleEnv exampleCurl exampleCurlGet w' a
          (current ([] ++ .add (ascii "a") (inetNtoa exampleAddr) :: trace)) :=
  joins_of_run posts_exampleCurl gets_exampleCurlGet rfl NodeList.parse_serialize
    World.starts_exampleWorld (.refl _) (by decide) [] exampleAddr

end Onion5
