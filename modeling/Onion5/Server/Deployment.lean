import Onion5.Server.Dissemination
import Onion5.Server.HealthChecksum
import Onion5.Client.Conversations

/-!
# The server at work under the network

The three processes of the server beside the participants of a network: requests are served, the
list is fetched for one address or another and arrives some time later, and the health server goes
through the directory again and again, in any order with what the participants do
(`Deployment.Move`). Every participant is registered and can be reached, and nobody else registers;
the participants register again whenever they like, as `adver_loop` does.

* `Settled.step`: no step of the server changes what a participant knows.
* `Settled.run`: so every run is one of the participants with fixed node lists, which
  `Onion5.Client.Delivery` and `Onion5.Client.Conversations` are about.
* `World.settles`: the clients of a server that has started with an empty directory become such a
  network once all of them have got the list.
-/

namespace Onion5

open OrderedMap (Op current)
open Network (Parcel Status Steady Coherent Chatting opening)

/-- The pass of the health server with the directory, the LIST frames on their way to an address,
and the participants. -/
structure Deployment (n : ℕ) where
  pass : NodeManage.Pass
  flight : List (Bytes × Bytes)
  chats : Chats n

/-- The directory has exactly the participants, under their addresses. -/
structure Complete (serialize : List Node → Bytes) (net : Network) (m : NodeManage) : Prop where
  reaches : ∃ ops, NodeManage.Reaches serialize (fun _ _ => True) m ops
  mem_iff : ∀ id ip, ⟨id, ip⟩ ∈ m.nodeList ↔ id ∈ net.ids ∧ ip = net.addr id

namespace Complete

variable {serialize : List Node → Bytes} {net : Network} {m m' : NodeManage}

/-- A registration that is repeated changes nothing. -/
theorem request (h : Complete serialize net m) {conn : InStream} {memory reply : Bytes}
    {r : Request} (hr : readRequest conn memory = .ok r)
    (hagain : ∀ op ∈ r.changes, ∃ id ∈ net.ids, ∃ ip, op = .add id ip)
    (hm : requestHandler serialize conn memory m = .ok (m', reply)) :
    Complete serialize net m' := by
  obtain ⟨ops, hreach⟩ := h.reaches
  have hreach' := hreach.serve hr trivial hm
  refine ⟨⟨_, hreach'⟩, fun id ip => ?_⟩
  rw [← h.mem_iff, NodeManage.mem_nodeList_iff hreach', NodeManage.mem_nodeList_iff hreach]
  cases r with
  | getUsers => rw [Request.changes, List.append_nil]
  | bad => rw [Request.changes, List.append_nil]
  | deleteUser id' =>
    obtain ⟨id₁, -, ip₁, hop⟩ := hagain (.del id') (List.mem_singleton_self _)
    cases hop
  | addUser id' ip' =>
    obtain ⟨id₁, hid, ip₁, hop⟩ := hagain (.add id' ip') (List.mem_singleton_self _)
    cases hop
    rw [Request.changes, OrderedMap.current_concat_add]
    split_ifs with heq
    · subst heq
      rw [(NodeManage.mem_nodeList_iff hreach).1 ((h.mem_iff _ _).2 ⟨hid, rfl⟩), Option.some_or]
    · rw [Option.or_none]

/-- The list of the directory is the one that the participants have. -/
theorem getElem?_list (h : Complete serialize net m)
    (hparse : ∀ nodes, net.env.parseFromString (serialize nodes) = (true, nodes)) (id : Bytes) :
    (insertNodes (net.env.parseFromString (m.getBinary serialize)).2)[id]? =
      if id ∈ net.ids then some (net.addr id) else none := by
  obtain ⟨ops, hreach⟩ := h.reaches
  refine Option.ext fun ip => ?_
  rw [World.getElem?_insertNodes_of_reaches hparse hreach, ← NodeManage.mem_nodeList_iff hreach,
    h.mem_iff]
  split_ifs with hid
  · rw [Option.some_inj]
    exact ⟨fun hip => hip.2.symm, fun hip => ⟨hid, hip.symm⟩⟩
  · exact ⟨fun hip => absurd hip.1 hid, fun hip => by cases hip⟩

/-- **A list that arrives changes nothing.** -/
theorem arrive (h : Complete serialize net m)
    (hparse : ∀ nodes, net.env.parseFromString (serialize nodes) = (true, nodes)) {frame : Bytes}
    (hf : sendList (m.getBinary serialize) = .ok (some frame)) {segs : List Bytes}
    (hsegs : segs.flatten = frame.drop 9) {r : Bytes} (hr : r ∈ net.ids) (d : ListenDraws)
    (fs : Files) :
    listeLoop net.env d (net.node r) fs (scriptOf frame segs) = .ok (.idle (net.node r) fs) := by
  rw [World.listeLoop_sent hf hsegs]
  have hlist : insertNodes (net.env.parseFromString (m.getBinary serialize)).2 =
      (net.node r).nodeList := by
    refine Std.ExtTreeMap.ext_getElem? fun id => ?_
    rw [h.getElem?_list hparse, net.nodeList_eq r hr]
  rw [hlist]

end Complete

/-- **A participant passes every check** under its own id. -/
theorem checkNode_participant {net : Network} (hsha : net.env.sha1 = SHA1.sha1) {node : Node}
    {r : Bytes} (hr : r ∈ net.ids) (hid : node.githubId = r) {key frame : Bytes} {k : ℕ}
    (hsend : send (pingData key) = .ok (frame, k)) {sock : Conn}
    (hsock : Answers net.env (net.node r) frame sock) (temp : Bytes) (fs : Files) :
    checkNode SHA1.sha1 (fun _ => true) node key temp fs sock = .ok true := by
  obtain ⟨hlen, rfl⟩ := send_eq_ok hsend
  rw [checkNode_answers hsha rfl hlen hsock, net.name_eq r hr, hid, decide_eq_true rfl]

namespace Deployment

variable {net : Network} {n : ℕ}

/-- The steps of the server and the participants. -/
inductive Move (serialize : List Node → Bytes) (curl : CurlDelete) (p : Fin n → net.Parcel) :
    Deployment n → Deployment n → Prop
  /-- the participants -/
  | chat {pass flight c c'} (h : Network.Move p c c') :
      Move serialize curl p ⟨pass, flight, c⟩ ⟨pass, flight, c'⟩
  /-- a request, which registers nobody but participants and deletes nobody -/
  | request {todo m m' flight c conn memory r reply} (hr : readRequest conn memory = .ok r)
      (hagain : ∀ op ∈ r.changes, ∃ id ∈ net.ids, ∃ ip, op = .add id ip)
      (hm : requestHandler serialize conn memory m = .ok (m', reply)) :
      Move serialize curl p ⟨⟨todo, m⟩, flight, c⟩ ⟨⟨todo, m'⟩, flight, c⟩
  /-- `send_list`, up to the frame -/
  | fetch {pass flight c frame} (host : Bytes)
      (hf : sendList (pass.m.getBinary serialize) = .ok (some frame)) :
      Move serialize curl p ⟨pass, flight, c⟩ ⟨pass, flight ++ [(host, frame)], c⟩
  /-- a LIST frame arrives -/
  | arrive {pass l₁ l₂ session config edited r frame segs d s} (hr : r ∈ net.ids)
      (hsegs : segs.flatten = frame.drop 9)
      (hs : listeLoop net.env d (config.shared r).msgr (config.shared r).fs (scriptOf frame segs) =
        .ok s) :
      Move serialize curl p ⟨pass, l₁ ++ (net.addr r, frame) :: l₂, ⟨session, config, edited⟩⟩
        ⟨pass, l₁ ++ l₂, ⟨
          Function.update session r { session r with nodeList := s.msgr.nodeList },
          { config with shared := Function.update config.shared r ⟨s.msgr, s.fs⟩ }, edited⟩⟩
  /-- a LIST frame is lost -/
  | lose {pass l₁ f l₂ c} : Move serialize curl p ⟨pass, l₁ ++ f :: l₂, c⟩ ⟨pass, l₁ ++ l₂, c⟩
  /-- the health server starts a pass -/
  | snapshot {m flight c} : Move serialize curl p ⟨⟨[], m⟩, flight, c⟩
      ⟨⟨m.snapshot serialize net.env.parseFromString, m⟩, flight, c⟩
  /-- the health server checks the participant at the address of the next node, and deletes the node
  if it fails -/
  | check {node todo m m' flight c r key frame k sock temp fs flag} (hr : r ∈ net.ids)
      (haddr : net.addr r = node.ipAddr) (hsend : send (pingData key) = .ok (frame, k))
      (hsock : Answers net.env (c.config.shared r).msgr frame sock)
      (hflag : checkNode SHA1.sha1 (fun _ => true) node key temp fs sock = .ok flag)
      (hm : if flag then m' = m else ∃ memory reply,
        requestHandler serialize (.opened (deleteNode curl node.githubId)) memory m =
          .ok (m', reply)) :
      Move serialize curl p ⟨⟨node :: todo, m⟩, flight, c⟩ ⟨⟨todo, m'⟩, flight, c⟩

/-- The server and the participants know the same, and whatever the server does they go on knowing
it. -/
structure Settled (serialize : List Node → Bytes) (p : Fin n → net.Parcel) (d : Deployment n) :
    Prop where
  directory : Complete serialize net d.pass.m
  todo : ∀ node ∈ d.pass.todo, node.githubId ∈ net.ids ∧ node.ipAddr = net.addr node.githubId
  flight : ∀ f ∈ d.flight, ∃ m, Complete serialize net m ∧
    sendList (m.getBinary serialize) = .ok (some f.2)
  network : d.chats.config.Holds net.Steady fun i => Status (p i)
  coherent : Coherent p d.chats

variable {serialize : List Node → Bytes} {curl : CurlDelete} {p : Fin n → net.Parcel}
  {d d' : Deployment n}

/-- **One step.** The participants take one of theirs, or nothing about them changes. -/
theorem Settled.step (hparse : ∀ nodes, net.env.parseFromString (serialize nodes) = (true, nodes))
    (hsha : net.env.sha1 = SHA1.sha1) (h0 : ∀ i, 0 ∉ (p i).text) (h : Settled serialize p d)
    (hm : Move serialize curl p d d') : Settled serialize p d' ∧ Chatting p d.chats d'.chats := by
  cases hm with
  | chat hm =>
    have hrun : Chatting p _ _ := Relation.ReflTransGen.single hm
    exact ⟨⟨h.directory, h.todo, h.flight,
      Interleaving.run_invariant (Network.invariant h0) h.network hrun.config,
      h.coherent.move hm⟩, hrun⟩
  | request hr hagain hm =>
    exact ⟨⟨h.directory.request hr hagain hm, h.todo, h.flight, h.network, h.coherent⟩, .refl⟩
  | fetch host hf =>
    refine ⟨⟨h.directory, h.todo, fun f hmem => ?_, h.network, h.coherent⟩, .refl⟩
    rcases List.mem_append.1 hmem with hmem | hmem
    · exact h.flight f hmem
    · rw [List.mem_singleton.1 hmem]
      exact ⟨_, h.directory, hf⟩
  | @arrive pass l₁ l₂ session config edited r frame segs draws s hr hsegs hs =>
    obtain ⟨m, hcomplete, hf⟩ := h.flight _ (List.mem_append_right l₁ List.mem_cons_self)
    have hmsgr : (config.shared r).msgr = net.node r := h.network.1 r hr
    rw [hmsgr, hcomplete.arrive hparse hf hsegs hr] at hs
    cases hs
    have hhost : (⟨net.node r, (config.shared r).fs⟩ : Host) = config.shared r := by rw [← hmsgr]
    have hsession : { session r with nodeList := (net.node r).nodeList } = session r := by
      rw [← (h.coherent.owned r hr).nodeList]
    rw [Served.idle, hhost, hsession, Function.update_eq_self, Function.update_eq_self]
    refine ⟨⟨h.directory, h.todo, fun f hmem => h.flight f ?_, h.network, h.coherent⟩, .refl⟩
    exact List.mem_append.2 ((List.mem_append.1 hmem).imp_right (List.mem_cons_of_mem _))
  | lose =>
    refine ⟨⟨h.directory, h.todo, fun f hmem => h.flight f ?_, h.network, h.coherent⟩, .refl⟩
    exact List.mem_append.2 ((List.mem_append.1 hmem).imp_right (List.mem_cons_of_mem _))
  | snapshot =>
    refine ⟨⟨h.directory, fun node hnode => ?_, h.flight, h.network, h.coherent⟩, .refl⟩
    rw [NodeManage.snapshot_eq hparse] at hnode
    exact (h.directory.mem_iff _ _).1 hnode
  | @check node todo m m' flight c r key frame k sock temp fs flag hr haddr hsend hsock hflag hm =>
    obtain ⟨hid, hip⟩ := h.todo node List.mem_cons_self
    -- the address is the one of the participant with the id
    have hnode : node.githubId = r := (net.addr_inj r hr _ hid (haddr.trans hip)).symm
    rw [h.network.1 r hr] at hsock
    obtain rfl := Except.ok.inj (hflag.symm.trans (checkNode_participant hsha hr hnode hsend hsock
      temp fs))
    obtain rfl : m' = m := by rwa [if_pos rfl] at hm
    exact ⟨⟨h.directory, fun node hmem => h.todo node (List.mem_cons_of_mem _ hmem), h.flight,
      h.network, h.coherent⟩, .refl⟩

/-- **The participants do not notice the server.** -/
theorem Settled.run (hparse : ∀ nodes, net.env.parseFromString (serialize nodes) = (true, nodes))
    (hsha : net.env.sha1 = SHA1.sha1) (h0 : ∀ i, 0 ∉ (p i).text) (h : Settled serialize p d)
    (hrun : Relation.ReflTransGen (Move serialize curl p) d d') :
    Settled serialize p d' ∧ Chatting p d.chats d'.chats := by
  induction hrun with
  | refl => exact ⟨h, .refl⟩
  | tail _ hm ih =>
    obtain ⟨hsettled, hchat⟩ := ih.1.step hparse hsha h0 hm
    exact ⟨hsettled, ih.2.trans hchat⟩

end Deployment

/-! ## From the start of the server -/

namespace World

/-- The directory has exactly the ids `ids`, at the addresses of clients with these names, all of
which have got the list. No older list is on its way. -/
structure Ready (w : World) (ids : List Bytes) (addr : Bytes → InAddr) : Prop where
  directory : ∀ id ip, ⟨id, ip⟩ ∈ w.directory.nodeList ↔ id ∈ ids ∧ ip = inetNtoa (addr id)
  addr_inj : ∀ r ∈ ids, ∀ r' ∈ ids, addr r = addr r' → r = r'
  name_eq : ∀ r ∈ ids, (w.client (addr r)).msgr.name = r
  authorized : ∀ r ∈ ids, (w.client (addr r)).msgr.gpg.isAuthorized
  list : ∀ r ∈ ids, ∀ id ip : Bytes,
    (w.list (addr r))[id]? = some ip ↔ ⟨id, ip⟩ ∈ w.directory.nodeList
  flight : w.flight = []

section Ready

variable {serialize : List Node → Bytes} {w : World} {ids : List Bytes} {addr : Bytes → InAddr}
  {ops : List (Op Bytes Bytes)}

theorem Ready.getElem?_nodeList (h : w.Ready ids addr) : ∀ r ∈ ids, ∀ k,
    (w.client (addr r)).msgr.nodeList[k]? = if k ∈ ids then some (inetNtoa (addr k)) else none := by
  intro r hr k
  refine Option.ext fun ip => ?_
  rw [← World.list, h.list r hr, h.directory]
  split_ifs with hk
  · rw [Option.some_inj]
    exact ⟨fun hip => hip.2.symm, fun hip => ⟨hk, hip.symm⟩⟩
  · exact ⟨fun hip => absurd hip.1 hk, fun hip => by cases hip⟩

/-- The network of the clients. -/
def Ready.network (h : w.Ready ids addr) (env : Env)
    (hreach : NodeManage.Reaches serialize (fun _ _ => True) w.directory ops) : Network where
  env := env
  ids := ids
  addr r := inetNtoa (addr r)
  node r := (w.client (addr r)).msgr
  length_le r hr := by
    have hid := NodeManage.checked_of_reaches hreach ((h.directory r _).2 ⟨hr, rfl⟩)
    have hlen := (length_githubId hid.1).2
    dsimp only at hlen
    omega
  addr_inj r hr r' hr' heq := h.addr_inj r hr r' hr' (inetNtoa_injective heq)
  name_eq := h.name_eq
  authorized := h.authorized
  nodeList_eq := h.getElem?_nodeList

/-- The server and the clients, before the health server has started a pass. -/
def deployed (w : World) (net : Network) (n : ℕ) (addr : Bytes → InAddr) : Deployment n :=
  ⟨⟨[], w.directory⟩, [], opening net n fun r => w.client (addr r)⟩

theorem Ready.settled (h : w.Ready ids addr) (env : Env)
    (hreach : NodeManage.Reaches serialize (fun _ _ => True) w.directory ops) {n : ℕ}
    (p : Fin n → (h.network env hreach).Parcel) :
    Deployment.Settled serialize p (w.deployed (h.network env hreach) n addr) where
  directory := ⟨⟨ops, hreach⟩, h.directory⟩
  todo _ hnode := by cases hnode
  flight _ hf := by cases hf
  network := Network.holds_start p fun _ _ => rfl
  coherent := Network.coherent_opening p _

/-- **The system as a whole.** Let a server start with the empty directory and its clients without a
list, and let them come to a moment where the directory has exactly the clients `ids` and all of
them have got it. From then on they are a network with fixed lists: whatever the server does, and in
whatever order, a run is one of this network, and no client is deleted. -/
theorem settles {env : Env} {curl : CurlDelete} {w₀ : World}
    (hparse : ∀ nodes, env.parseFromString (serialize nodes) = (true, nodes))
    (hsha : env.sha1 = SHA1.sha1) (h : w₀.Starts) (hrun : Runs serialize env w₀ ops w)
    (hready : w.Ready ids addr) :
    ∃ net : Network, net.env = env ∧ net.ids = ids ∧
      (∀ r ∈ ids, net.addr r = inetNtoa (addr r) ∧ net.node r = (w.client (addr r)).msgr) ∧
      ∀ (n : ℕ) (p : Fin n → net.Parcel), (∀ i, 0 ∉ (p i).text) → ∀ d : Deployment n,
        Relation.ReflTransGen (Deployment.Move serialize curl p) (w.deployed net n addr) d →
        Chatting p (opening net n fun r => w.client (addr r)) d.chats ∧
          ∀ id ip, ⟨id, ip⟩ ∈ d.pass.m.nodeList ↔ ⟨id, ip⟩ ∈ w.directory.nodeList := by
  have hreach := (holds_of_run hparse h hrun).directory
  refine ⟨hready.network env hreach, rfl, rfl, fun _ _ => ⟨rfl, rfl⟩, fun n p h0 d hd => ?_⟩
  obtain ⟨hsettled, hchat⟩ := (hready.settled env hreach p).run hparse hsha h0 hd
  refine ⟨hchat, fun id ip => ?_⟩
  rw [hsettled.directory.mem_iff, hready.directory]
  rfl

end Ready

/-! ## Two clients -/

/-- The addresses of `a` and of everybody else. -/
def exampleInAddr (r : Bytes) : InAddr := if r = ascii "a" then ⟨10, 0, 0, 1⟩ else ⟨10, 0, 0, 2⟩

/-- The client `r` before it has a list. -/
def exampleHost (r : Bytes) : Host :=
  ⟨{ exampleNode with gpg := ⟨r, ascii "secret"⟩, name := r, nodeList := ∅ }, Files.blank⟩

/-- The empty directory, and the clients `a` and `b`. -/
def exampleTwo : World :=
  ⟨⟨[]⟩, fun addr => exampleHost (if addr = ⟨10, 0, 0, 1⟩ then ascii "a" else ascii "b"), []⟩

/-- Both register, and the list is sent to both. -/
theorem runs_exampleTwo : ∃ ops client,
    Runs NodeList.serialize exampleSha1Env exampleTwo ops ⟨NodeManage.examplePair, client, []⟩ ∧
      ∀ r ∈ [ascii "a", ascii "b"], client (exampleInAddr r) =
        ⟨{ (exampleHost r).msgr with
          nodeList := insertNodes NodeManage.examplePair.nodeList }, Files.blank⟩ := by
  have hadd := NodeManage.readRequest_exampleAdd
    (show (ascii "a").length + (ascii "10.0.0.1").length < 2 ^ 30 by decide) (by decide)
  have hadd' := NodeManage.readRequest_exampleAdd
    (show (ascii "b").length + (ascii "10.0.0.2").length < 2 ^ 30 by decide) (by decide)
  obtain ⟨reply, hm⟩ := exists_requestHandler hadd exampleTwo.directory
  have hone : Runs NodeList.serialize exampleSha1Env exampleTwo _
      { exampleTwo with directory := ⟨exampleNodes⟩ } := (Runs.refl _).tail (.request hadd hm)
  obtain ⟨reply', hm'⟩ := exists_requestHandler hadd' ⟨exampleNodes⟩
  have hboth : Runs NodeList.serialize exampleSha1Env exampleTwo _
      { exampleTwo with directory := NodeManage.examplePair } := hone.tail (.request hadd' hm')
  have hlen : (NodeManage.examplePair.getBinary NodeList.serialize).length = 30 := by
    rw [NodeManage.getBinary, NodeManage.examplePair, NodeList.length_serialize_cons (by decide),
      NodeList.length_serialize_cons (by decide)]
    rfl
  have hf := sendList_eq (List.ne_nil_of_length_pos (by rw [hlen]; decide)) (by rw [hlen]; decide)
  have hparse : (exampleSha1Env.parseFromString
      (NodeManage.examplePair.getBinary NodeList.serialize)).2 = NodeManage.examplePair.nodeList :=
    congrArg Prod.snd (NodeList.parse_serialize _)
  have hne : (⟨10, 0, 0, 1⟩ : InAddr) ≠ ⟨10, 0, 0, 2⟩ := by decide
  refine ⟨_, _, (hboth.trans (runs_fetched exampleSha1Env hf _ ⟨10, 0, 0, 1⟩)).trans
    (runs_fetched exampleSha1Env hf _ ⟨10, 0, 0, 2⟩), ?_⟩
  rw [hparse, List.forall_mem_cons, List.forall_mem_singleton]
  constructor
  · exact (Function.update_of_ne hne _ _).trans (Function.update_self _ _ _)
  · refine (Function.update_self _ _ _).trans ?_
    rw [Function.update_of_ne hne.symm]
    rfl

theorem ready_exampleTwo {client : InAddr → Host}
    (h : ∀ r ∈ [ascii "a", ascii "b"], client (exampleInAddr r) =
      ⟨{ (exampleHost r).msgr with
        nodeList := insertNodes NodeManage.examplePair.nodeList }, Files.blank⟩) :
    Ready ⟨NodeManage.examplePair, client, []⟩ [ascii "a", ascii "b"] exampleInAddr where
  directory id ip := by
    have ha : inetNtoa (exampleInAddr (ascii "a")) = ascii "10.0.0.1" := by
      simp [exampleInAddr, inetNtoa, decimal]
      decide
    have hb : inetNtoa (exampleInAddr (ascii "b")) = ascii "10.0.0.2" := by
      rw [exampleInAddr, if_neg (by decide)]
      simp [inetNtoa, decimal]
      decide
    simp only [NodeManage.examplePair, List.mem_cons, List.not_mem_nil, or_false, Node.mk.injEq]
    constructor
    · rintro (⟨rfl, rfl⟩ | ⟨rfl, rfl⟩)
      · exact ⟨Or.inl rfl, ha.symm⟩
      · exact ⟨Or.inr rfl, hb.symm⟩
    · rintro ⟨rfl | rfl, rfl⟩
      · exact Or.inl ⟨rfl, ha⟩
      · exact Or.inr ⟨rfl, hb⟩
  addr_inj := by decide
  name_eq r hr := congrArg (fun host : Host => host.msgr.name) (h r hr)
  authorized r hr := by
    have hsecret : ∀ r ∈ [ascii "a", ascii "b"], (exampleHost r).msgr.gpg.isAuthorized := by decide
    exact (congrArg (fun host : Host => host.msgr.gpg.isAuthorized) (h r hr)).trans (hsecret r hr)
  list r hr id ip := by
    have hlist : (client (exampleInAddr r)).msgr.nodeList =
      insertNodes NodeManage.examplePair.nodeList :=
        congrArg (fun host : Host => host.msgr.nodeList) (h r hr)
    rw [World.list, hlist, getElem?_insertNodes]
    exact NodeManage.find?_eq_some_iff (by decide)
  flight := rfl

theorem settles_example : ∃ ops w, Runs NodeList.serialize exampleSha1Env exampleTwo ops w ∧
    ∃ net : Network, net.env = exampleSha1Env ∧ net.ids = [ascii "a", ascii "b"] ∧
      (∀ r ∈ [ascii "a", ascii "b"], net.addr r = inetNtoa (exampleInAddr r) ∧
        net.node r = (w.client (exampleInAddr r)).msgr) ∧
      ∀ (n : ℕ) (p : Fin n → net.Parcel), (∀ i, 0 ∉ (p i).text) → ∀ d : Deployment n,
        Relation.ReflTransGen (Deployment.Move NodeList.serialize exampleCurlDelete p)
          (w.deployed net n exampleInAddr) d →
        Chatting p (opening net n fun r => w.client (exampleInAddr r)) d.chats ∧
          ∀ id ip, ⟨id, ip⟩ ∈ d.pass.m.nodeList ↔ ⟨id, ip⟩ ∈ w.directory.nodeList := by
  obtain ⟨ops, client, hrun, hclient⟩ := runs_exampleTwo
  exact ⟨ops, _, hrun, settles NodeList.parse_serialize rfl ⟨rfl, fun _ => rfl, rfl⟩ hrun
    (ready_exampleTwo hclient)⟩

end World

end Onion5
