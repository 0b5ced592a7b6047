import Onion5.Client.Anonymity

/-!
# The node list of a client

How `node_list` changes while a client runs. It is replaced by every LIST frame whose markers are
right, whatever the parser says of its content, and an onion packet that is relayed puts its
recipient into it.

* `handle_nodeList`: everything that handling a message does to the object.
* `mem_nodeList_of_reaches`: as long as no packet is relayed to a node outside the list, the node
  list is the map that the last list accepted makes, and no other message changes it.
* `badList_unchanged_iff`: when a list that does not parse leaves `node_list` as it was.
-/

namespace Onion5

/-! ## The list built from a message -/

/-- The nodes that the parser leaves of the content of a LIST message. -/
def acceptedList (env : Env) (msg : Bytes) : Option (List Node) :=
  (unwrap LIST_PREFIX LIST_POSTFIX msg).map fun inner => (env.parseFromString inner).2

theorem getElem?_foldl_insertIfNew (nodes : List Node) (list : NodeMap) (k : Bytes) :
    (nodes.foldl (fun list node => list.insertIfNew node.githubId node.ipAddr) list)[k]? =
      list[k]?.or ((nodes.find? (·.githubId = k)).map Node.ipAddr) := by
  induction nodes generalizing list with
  | nil => simp
  | cons node nodes ih =>
    rw [List.foldl_cons, ih, Std.ExtTreeMap.getElem?_insertIfNew, List.find?_cons]
    by_cases hk : node.githubId = k
    · subst hk
      by_cases hmem : node.githubId ∈ list
      · simp [hmem]
      · simp [hmem]
    · simp [hk]

/-- **The list built from a message**: every id has the address it comes with first. -/
theorem getElem?_insertNodes (nodes : List Node) (k : Bytes) :
    (insertNodes nodes)[k]? = (nodes.find? (·.githubId = k)).map Node.ipAddr := by
  rw [insertNodes, getElem?_foldl_insertIfNew, Std.ExtTreeMap.getElem?_empty, Option.none_or]

theorem mem_insertNodes {nodes : List Node} {k : Bytes} :
    k ∈ insertNodes nodes ↔ ∃ node ∈ nodes, node.githubId = k := by
  rw [Std.ExtTreeMap.mem_iff_isSome_getElem?, getElem?_insertNodes, Option.isSome_map,
    List.find?_isSome]
  simp

/-! ## One message -/

section Handle

variable {env : Env} {d : ListenDraws} {msgr : Messanger} {msg : Bytes} {fs : Files} {s : Served}

/-- The LIST branch. -/
theorem listFrame_eq (hlen : msg.length < 2 ^ 31) (hpre : msg.take 2 = LIST_PREFIX) :
    listFrame env msgr msg fs = .ok (.idle (match acceptedList env msg with
      | some nodes => { msgr with nodeList := insertNodes nodes }
      | none => msgr) fs) := by
  rw [listFrame, substr_last_two hlen (two_le_length rfl hpre)]
  by_cases hpost : msg.drop (msg.length - 2) = LIST_POSTFIX
  · have h4 := four_le_of_markers hpre hpost (by decide) (by decide)
    simp [hpost, substr_between hlen h4, acceptedList, unwrap, hpre, h4]
  · simp [hpost, acceptedList, unwrap]

/-- The PING branch leaves the object. -/
theorem pingFrame_msgr (h : pingFrame env msgr msg fs = .ok s) : s.msgr = msgr := by
  obtain ⟨post, -, h⟩ := Run.bind_eq_ok.1 h
  split_ifs at h
  · cases h
    rfl
  · obtain ⟨key, -, h⟩ := Run.bind_eq_ok.1 h
    cases h
    rfl

/-- A packet that handling the message `msg` relays names a node of the list. -/
def RelaysListed (env : Env) (d : ListenDraws) (msgr : Messanger) (msg : Bytes)
    (fs : Files) : Prop :=
  msg.take 2 ≠ LIST_PREFIX → msg.take 2 ≠ PING_PREFIX → isExistedFile msg fs →
    ∀ m fs', openPacket env d msgr msg fs = .ok (some m, fs') → msgr.name = m.from_ →
      m.to_ ∈ msgr.nodeList

/-- **What handling a message does to the object**: a list accepted replaces the node list, a
packet relayed enters its recipient, and everything else leaves the object as it was. -/
theorem handle_nodeList (hlen : msg.length < 2 ^ 31) (h : handle env d msgr msg fs = .ok s) :
    (∃ nodes, acceptedList env msg = some nodes ∧
      s.msgr = { msgr with nodeList := insertNodes nodes }) ∨
    acceptedList env msg = none ∧ (s.msgr = msgr ∨
      msg.take 2 ≠ LIST_PREFIX ∧ msg.take 2 ≠ PING_PREFIX ∧ isExistedFile msg fs ∧
      ∃ m fs', openPacket env d msgr msg fs = .ok (some m, fs') ∧ msgr.name = m.from_ ∧
        s.msgr = { msgr with nodeList := (msgr.nodeList.index m.to_).2 }) := by
  have hnone : msg.take 2 ≠ LIST_PREFIX → acceptedList env msg = none := by
    intro hpre
    simp [acceptedList, unwrap, hpre]
  unfold handle at h
  split_ifs at h with hpre hping hfile
  · rw [listFrame_eq hlen hpre] at h
    cases h
    cases hacc : acceptedList env msg with
    | some nodes => exact .inl ⟨nodes, rfl, rfl⟩
    | none => exact .inr ⟨rfl, .inl rfl⟩
  · exact .inr ⟨hnone hpre, .inl (pingFrame_msgr h)⟩
  · refine .inr ⟨hnone hpre, ?_⟩
    obtain ⟨⟨m, fs'⟩, hopen, h⟩ := Run.bind_eq_ok.1 h
    cases m with
    | none =>
      cases h
      exact .inl rfl
    | some m =>
      cases h
      by_cases hfrom : msgr.name = m.from_
      · refine .inr ⟨hpre, hping, hfile, m, fs', hopen, hfrom, ?_⟩
        simp [dispatch, hfrom, relay]
      · left
        simp only [dispatch, hfrom, if_false]
        split_ifs <;> rfl
  · cases h
    exact .inr ⟨hnone hpre, .inl rfl⟩

end Handle

/-! ## Runs -/

/-- A client at work, from the object `m₀`: connections that it serves and messages that its user
sends, in any order. `ok` restricts the messages handled. The last argument is what the last list
accepted carries. -/
inductive Reaches (env : Env) (ok : ListenDraws → Messanger → Bytes → Files → Prop)
    (m₀ : Messanger) : Messanger → Files → Option (List Node) → Prop
  | start (fs : Files) : Reaches env ok m₀ m₀ fs none
  | serve {msgr fs last d client r s} (h : Reaches env ok m₀ msgr fs last)
      (hp : IsTempPath d.recvPath) (hr : recv d.recvPath fs client = .ok r)
      (hok : ok d msgr r.data r.fs) (hs : listeLoop env d msgr fs client = .ok s) :
      Reaches env ok m₀ s.msgr s.fs ((acceptedList env r.data).or last)
  | send {msgr fs last to_ content d} (h : Reaches env ok m₀ msgr fs last)
      (hd : IsShuffle d.shuffle) :
      Reaches env ok m₀ (msgr.sendMessage to_ content d fs).msgr
        (msgr.sendMessage to_ content d fs).fs last

theorem IsTempPath.length_lt {p : Bytes} (h : IsTempPath p) : p.length < 2 ^ 31 := by
  obtain ⟨random, hlen, -, rfl⟩ := h
  rw [getTemppath, List.length_append, hlen]
  exact (by decide : 5 + 16 < 2 ^ 31)

/-- What `recv` delivers is shorter than `2 ^ 31` bytes. -/
theorem length_data_lt {temp : Bytes} (ht : IsTempPath temp) {fs : Files} {conn : Conn}
    {r : Received} (hr : recv temp fs conn = .ok r) : r.data.length < 2 ^ 31 := by
  rcases length_recv_data_lt hr with h | h
  · exact h
  · exact h ▸ ht.length_lt

/-- A connection served is one message handled. -/
theorem handle_of_listeLoop {env : Env} {d : ListenDraws} {msgr : Messanger} {fs : Files}
    {client : Conn} {r : Received} {s : Served} (hr : recv d.recvPath fs client = .ok r)
    (hs : listeLoop env d msgr fs client = .ok s) : handle env d msgr r.data r.fs = .ok s := by
  rw [listeLoop, hr, Run.ok_bind] at hs
  obtain ⟨s', hs', hs⟩ := Run.bind_eq_ok.1 hs
  obtain ⟨-, -, hs⟩ := Run.bind_eq_ok.1 hs
  cases hs
  exact hs'

/-- Sending a message leaves the node list. -/
theorem sendMessage_nodeList (msgr : Messanger) (to_ content : Bytes) {d : SendDraws}
    (hd : IsShuffle d.shuffle) (fs : Files) :
    (msgr.sendMessage to_ content d fs).msgr.nodeList = msgr.nodeList := by
  by_cases hto : to_ ∈ msgr.nodeList
  · rw [sendMessage_msgr hto]
    obtain ⟨relays, hroute, -, hrel⟩ :=
      generatePath_shape msgr.nodeList msgr.name to_ 3 hd
    rw [Messanger.route, hroute]
    refine NodeMap.index_of_mem ?_
    cases relays with
    | nil => exact hto
    | cons r relays => exact (hrel r List.mem_cons_self).1
  · simp [Messanger.sendMessage, hto]

section Runs

variable {env : Env} {m₀ msgr : Messanger} {fs : Files} {last : Option (List Node)}

/-- The node list of a client whose last list accepted carries the nodes `last`. -/
def listed (last : Option (List Node)) : NodeMap := (last.map insertNodes).getD ∅

/-- What the client `msgr` has is the last list accepted, address by address, and a message that is
no list leaves it as it is. -/
structure Reflects (env : Env) (msgr : Messanger) (fs : Files) (last : Option (List Node)) :
    Prop where
  nodeList : msgr.nodeList = listed last
  mem (k : Bytes) :
    k ∈ msgr.nodeList ↔ ∃ nodes, last = some nodes ∧ ∃ node ∈ nodes, node.githubId = k
  kept {d client r s} (hp : IsTempPath d.recvPath) (hr : recv d.recvPath fs client = .ok r)
    (hok : RelaysListed env d msgr r.data r.fs) (hs : listeLoop env d msgr fs client = .ok s)
    (hno : acceptedList env r.data = none) : s.msgr.nodeList = msgr.nodeList

/-- A message that is no list and that is not relayed to a node outside the list leaves the node
list. -/
theorem nodeList_of_serve {d : ListenDraws} {client : Conn} {r : Received} {s : Served}
    (hp : IsTempPath d.recvPath) (hr : recv d.recvPath fs client = .ok r)
    (hok : RelaysListed env d msgr r.data r.fs) (hs : listeLoop env d msgr fs client = .ok s)
    (hno : acceptedList env r.data = none) : s.msgr.nodeList = msgr.nodeList := by
  rcases handle_nodeList (length_data_lt hp hr) (handle_of_listeLoop hr hs) with
    ⟨nodes, hacc, -⟩ | ⟨-, hmsgr | ⟨hlist, hping, hfile, m, fs', hopen, hfrom, hmsgr⟩⟩
  · exact absurd hacc (by simp [hno])
  · rw [hmsgr]
  · rw [hmsgr]
    exact NodeMap.index_of_mem (hok hlist hping hfile m fs' hopen hfrom)

/-- A list accepted becomes the node list. -/
theorem nodeList_of_accepted {d : ListenDraws} {client : Conn} {r : Received} {s : Served}
    {nodes : List Node} (hp : IsTempPath d.recvPath) (hr : recv d.recvPath fs client = .ok r)
    (hs : listeLoop env d msgr fs client = .ok s) (hacc : acceptedList env r.data = some nodes) :
    s.msgr.nodeList = insertNodes nodes := by
  rcases handle_nodeList (length_data_lt hp hr) (handle_of_listeLoop hr hs) with
    ⟨nodes', hacc', hmsgr⟩ | ⟨hno, -⟩
  · rw [hacc] at hacc'
    cases hacc'
    rw [hmsgr]
  · exact absurd hacc (by simp [hno])

theorem nodeList_of_reaches (h₀ : m₀.nodeList = ∅)
    (h : Reaches env (RelaysListed env) m₀ msgr fs last) : msgr.nodeList = listed last := by
  induction h with
  | start => exact h₀
  | @serve msgr fs last d client r s _ hp hr hok hs ih =>
    cases hacc : acceptedList env r.data with
    | some nodes => exact nodeList_of_accepted hp hr hs hacc
    | none =>
      rw [nodeList_of_serve hp hr hok hs hacc, ih]
      rfl
  | send _ hd ih => rw [sendMessage_nodeList _ _ _ hd, ih]

/-- **As long as packets are relayed to nodes of the list only, the node list is that of the last
list accepted**, and empty before the first. -/
theorem mem_nodeList_of_reaches (h₀ : m₀.nodeList = ∅)
    (h : Reaches env (RelaysListed env) m₀ msgr fs last) : Reflects env msgr fs last where
  nodeList := nodeList_of_reaches h₀ h
  mem k := by
    rw [nodeList_of_reaches h₀ h]
    cases last with
    | none => simp [listed]
    | some nodes => simp [listed, mem_insertNodes]
  kept hp hr hok hs hno := nodeList_of_serve hp hr hok hs hno

end Runs

/-! ## Lists received -/

section Lists

variable {env : Env} {d : ListenDraws} {msgr : Messanger} {fs : Files} {inner : Bytes}

/-- **A list received replaces the node list**, whether its content parses or not. -/
theorem listeLoop_accepted {client : Conn} {r : Received} (hlen : r.data.length < 2 ^ 31)
    (hr : recv d.recvPath fs client = .ok r)
    (hdata : r.data = LIST_PREFIX ++ inner ++ LIST_POSTFIX) :
    listeLoop env d msgr fs client =
      .ok (.idle { msgr with nodeList := insertNodes (env.parseFromString inner).2 } r.fs) := by
  have hacc : acceptedList env r.data = some (env.parseFromString inner).2 := by
    rw [acceptedList, hdata, (unwrap_eq_some_iff rfl rfl).2 rfl, Option.map_some]
  have hpre : r.data.take 2 = LIST_PREFIX := by
    rw [hdata, List.append_assoc]
    rfl
  rw [listeLoop, hr, Run.ok_bind, handle, if_pos hpre, listFrame_eq hlen hpre, hacc]
  rfl

theorem length_list (inner : Bytes) :
    (LIST_PREFIX ++ inner ++ LIST_POSTFIX).length = inner.length + 4 := by
  simp [LIST_PREFIX, LIST_POSTFIX]

/-- The frame of a list shorter than `2 ^ 31` bytes is received whole. -/
theorem recv_list (temp : Bytes) (fs : Files) (hlen : inner.length + 4 < 2 ^ 31) {segs : List Bytes}
    (hs : segs.flatten = LIST_PREFIX ++ inner ++ LIST_POSTFIX) :
    ∃ r, recv temp fs (frameConn 0 (inner.length + 4) segs) = .ok r ∧
      r.data = LIST_PREFIX ++ inner ++ LIST_POSTFIX ∧ r.fs = fs := by
  obtain ⟨r, hr, -, hdata, hfs⟩ := recv_frame temp fs 0 (length_list inner ▸ hlen) hs
  exact ⟨r, length_list inner ▸ hr, hdata, hfs⟩

/-- The frame of a list, under every segmentation. -/
theorem listeLoop_list (hlen : inner.length + 4 < 2 ^ 31) {segs : List Bytes}
    (hs : segs.flatten = LIST_PREFIX ++ inner ++ LIST_POSTFIX) :
    listeLoop env d msgr fs (frameConn 0 (inner.length + 4) segs) =
      .ok (.idle { msgr with nodeList := insertNodes (env.parseFromString inner).2 } fs) := by
  obtain ⟨r, hr, hdata, hfs⟩ := recv_list d.recvPath fs hlen hs
  rw [listeLoop_accepted (by rwa [hdata, length_list]) hr hdata, hfs]

/-- **A list that does not parse leaves the node list** exactly when the list was already that of
the nodes the failed parse leaves behind. -/
theorem badList_unchanged_iff {client : Conn} {r : Received} (hp : IsTempPath d.recvPath)
    (hr : recv d.recvPath fs client = .ok r) (hdata : r.data = LIST_PREFIX ++ inner ++ LIST_POSTFIX)
    (_hbad : (env.parseFromString inner).1 = false) :
    (∃ s, listeLoop env d msgr fs client = .ok s ∧ s.msgr.nodeList = msgr.nodeList) ↔
      ∀ k, msgr.nodeList[k]? =
        ((env.parseFromString inner).2.find? (·.githubId = k)).map Node.ipAddr := by
  rw [listeLoop_accepted (length_data_lt hp hr) hr hdata]
  constructor
  · rintro ⟨s, hs, hlist⟩ k
    cases hs
    rw [← hlist]
    exact getElem?_insertNodes _ k
  · intro h
    refine ⟨_, rfl, Std.ExtTreeMap.ext_getElem? fun k => ?_⟩
    rw [h k]
    exact getElem?_insertNodes _ k

end Lists

/-! ## Examples of lists -/

/-- The node `c` of three, before it has a list. -/
def exampleClient : Messanger := { exampleNode with
  gpg := ⟨ascii "c", ascii "secret"⟩
  name := ascii "c"
  nodeList := ∅ }

/-- The functions of examples. -/
def exampleEnv : Env := ⟨exampleDecrypt, fun _ => [], NodeList.parse⟩

/-- Draws of a connection under which nothing can be connected to. -/
def exampleListenDraws : ListenDraws :=
  { Network.drawing (exampleTemppath 0) (exampleTemppath 1) (exampleTemppath 2) (exampleTemppath 3)
      (exampleTemppath 4) with connect := fun _ => false }

theorem fresh_exampleListenDraws : Files.blank.Fresh exampleListenDraws.paths :=
  Files.fresh_blank_range (k := 0) (n := 5) (by decide)

/-- A list of one node. -/
def exampleNodes : List Node := [⟨ascii "a", ascii "10.0.0.1"⟩]

theorem length_exampleNodes : (NodeList.serialize exampleNodes).length + 4 < 2 ^ 31 := by
  rw [exampleNodes, NodeList.length_serialize_cons (by decide)]
  decide

/-- A client that has accepted a list. -/
theorem mem_nodeList_example : ∃ msgr fs,
    Reaches exampleEnv (RelaysListed exampleEnv) exampleClient msgr fs (some exampleNodes) ∧
      Reflects exampleEnv msgr fs (some exampleNodes) := by
  have hloop : listeLoop exampleEnv exampleListenDraws exampleClient Files.blank
      (frameConn 0 _ [_]) = .ok _ :=
    listeLoop_list length_exampleNodes List.flatten_singleton
  obtain ⟨r, hr, hdata, -⟩ := recv_list exampleListenDraws.recvPath Files.blank
    length_exampleNodes List.flatten_singleton
  have hacc : acceptedList exampleEnv r.data = some exampleNodes := by
    rw [acceptedList, hdata, (unwrap_eq_some_iff rfl rfl).2 rfl, Option.map_some]
    exact congrArg some (congrArg Prod.snd (NodeList.parse_serialize _))
  have hok : RelaysListed exampleEnv exampleListenDraws exampleClient r.data r.fs := by
    intro hpre
    rw [hdata, List.append_assoc] at hpre
    exact absurd rfl hpre
  have hstart : Reaches exampleEnv (RelaysListed exampleEnv) exampleClient exampleClient
      Files.blank none := .start _
  have hreach := hstart.serve (isTempPath_exampleTemppath (by decide)) hr hok hloop
  rw [hacc, Option.some_or] at hreach
  exact ⟨_, _, hreach, mem_nodeList_of_reaches rfl hreach⟩

/-- A packet made for `c` that names a node `x` nobody has announced puts `x` into the list. -/
theorem exists_relayed_entry : ∃ msgr fs,
    Reaches exampleEnv (fun _ _ _ _ => True) exampleClient msgr fs none ∧
      ascii "x" ∈ msgr.nodeList := by
  have hf : Files.blank.Fresh exampleListenDraws.paths := fresh_exampleListenDraws
  set x := Message.header (ascii "c") (ascii "x") 0 0 ++ [] with hx
  set file := Message.header (ascii "a") (ascii "c") 0 0 ++ exampleEncrypt (ascii "c") x with hfile
  have hdec : exampleClient.Decrypts exampleEnv (exampleEncrypt (ascii "c") x) x :=
    exampleDecrypt_self (ascii "c") (ascii "secret") x
  obtain ⟨s, hs, hmsgr, -, -, -, hret, -⟩ := handle_relayed 0
    (show exampleClient.name = ascii "c" from rfl) hf rfl (by decide)
    (show (ascii "a").length ≤ 1025 by decide) (by decide) (by decide) hdec
  have hlen : file.length < 2 ^ 31 := by
    simp only [hfile, hx]
    decide
  obtain ⟨r, hr, -, hdata, -⟩ := recv_frame exampleListenDraws.recvPath Files.blank 1 hlen
    (List.flatten_singleton (l := file))
  have hloop : listeLoop exampleEnv exampleListenDraws exampleClient Files.blank
      (frameConn 1 _ [file]) = _ := listeLoop_file hlen List.flatten_singleton
  rw [hs, Run.ok_bind, hret rfl, Run.ok_bind] at hloop
  have hacc : acceptedList exampleEnv r.data = none := by
    rw [hdata]
    decide
  have hstart : Reaches exampleEnv (fun _ _ _ _ => True) exampleClient exampleClient
      Files.blank none := .start _
  have hreach := hstart.serve (isTempPath_exampleTemppath (by decide)) hr trivial hloop
  rw [hacc, Option.none_or, hmsgr] at hreach
  exact ⟨_, _, hreach, by simp [NodeMap.index]⟩

/-- The frame of a list whose content is `nodes` and then a byte that does not parse. -/
def exampleBadConn (nodes : List Node) : Conn :=
  frameConn 0 ((NodeList.serialize nodes ++ [0xFF]).length + 4)
    [LIST_PREFIX ++ (NodeList.serialize nodes ++ [0xFF]) ++ LIST_POSTFIX]

theorem recv_exampleBadConn {nodes : List Node}
    (hlen : (NodeList.serialize nodes).length + 5 < 2 ^ 31) : ∃ r,
    recv exampleListenDraws.recvPath Files.blank (exampleBadConn nodes) = .ok r ∧
      r.data = LIST_PREFIX ++ (NodeList.serialize nodes ++ [0xFF]) ++ LIST_POSTFIX := by
  have hlen' : (NodeList.serialize nodes ++ [0xFF]).length + 4 < 2 ^ 31 := by
    rw [List.length_append, List.length_singleton]
    omega
  obtain ⟨r, hr, hdata, -⟩ := recv_list exampleListenDraws.recvPath Files.blank hlen'
    List.flatten_singleton
  exact ⟨r, hr, hdata⟩

/-- The client `c` when `exampleNodes` are its list. -/
def exampleListedClient : Messanger := { exampleClient with nodeList := insertNodes exampleNodes }

/-- A list broken off after the nodes that a client has leaves it these nodes. -/
theorem badList_unchanged_iff_example : exampleListedClient.nodeList ≠ ∅ ∧
    ∃ s, listeLoop exampleEnv exampleListenDraws exampleListedClient Files.blank
        (exampleBadConn exampleNodes) = .ok s ∧
      s.msgr.nodeList = exampleListedClient.nodeList := by
  obtain ⟨r, hr, hdata⟩ := @recv_exampleBadConn exampleNodes (by
    rw [exampleNodes, NodeList.length_serialize_cons (by decide)]
    decide)
  have hparse : exampleEnv.parseFromString (NodeList.serialize exampleNodes ++ [0xFF]) =
      (false, exampleNodes) := NodeList.parse_invalid exampleNodes
  refine ⟨by decide, (badList_unchanged_iff (isTempPath_exampleTemppath (by decide)) hr hdata
    (congrArg Prod.fst hparse)).2 fun k => ?_⟩
  rw [hparse]
  exact getElem?_insertNodes exampleNodes k

/-- The list of no node empties the list of `a`. -/
theorem badList_clears : (exampleEnv.parseFromString [0xFF]).1 = false ∧
    ∃ s, listeLoop exampleEnv exampleListenDraws exampleNode Files.blank
        (exampleBadConn []) = .ok s ∧
      s.msgr.nodeList ≠ exampleNode.nodeList := by
  obtain ⟨r, hr, hdata⟩ := @recv_exampleBadConn [] (by decide)
  refine ⟨congrArg Prod.fst (NodeList.parse_invalid []), _,
    listeLoop_accepted (by rw [hdata]; decide) hr hdata, ?_⟩
  change insertNodes (NodeList.parse ([] ++ [0xFF])).2 ≠ exampleNode.nodeList
  have hparse : NodeList.parse ([] ++ [0xFF]) = (false, []) := NodeList.parse_invalid []
  rw [hparse]
  decide

end Onion5
