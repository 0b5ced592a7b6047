import Onion5.Server.Distribution
import Onion5.Server.HealthPass

/-!
# The directory and its clients

The REST server, `boradcast_listener` and any number of clients at work: requests are served, the
list is fetched for one client or another and is on its way to it for a while, and the clients
handle what else they receive and send their messages, in any order (`World.Step`). Nobody else
sends LIST messages, packets are relayed to nodes of the list only, and a list arrives whole or not
at all.

* `World.lists_of_run`: the list of a client is at any time the directory of some moment before, so
  two lists disagree about an id only when it has been deleted in between.
* `World.registered_of_run`: as long as an id is not deleted, every list fetched from then on has
  its address.
* `joins`: a client that advertises itself is in the list it is sent, under its own address or under
  the one that its id has been registered with before.
-/

namespace Onion5

open OrderedMap (Op current)

/-- The directory, the clients by their addresses, and the LIST frames on their way to them. -/
structure World where
  directory : NodeManage
  client : InAddr → Host
  flight : List (InAddr × Bytes)

namespace World

/-- The node list of the client at an address. -/
def list (w : World) (a : InAddr) : NodeMap := (w.client a).msgr.nodeList

/-- The steps of the server and its clients, with the changes of the directory that they ask for. -/
inductive Step (serialize : List Node → Bytes) (env : Env) : World → List (Op Bytes Bytes) → World →
    Prop
  /-- a request is served -/
  | request {w conn memory r m reply} (hr : readRequest conn memory = .ok r)
      (hm : requestHandler serialize conn memory w.directory = .ok (m, reply)) :
      Step serialize env w r.changes { w with directory := m }
  /-- `send_list`, up to the frame -/
  | fetch {w frame} (a : InAddr)
      (hf : sendList (w.directory.getBinary serialize) = .ok (some frame)) :
      Step serialize env w [] { w with flight := w.flight ++ [(a, frame)] }
  /-- a LIST frame arrives -/
  | deliver {m client a frame l₁ l₂ segs d s} (hsegs : segs.flatten = frame.drop 9)
      (hs : listeLoop env d (client a).msgr (client a).fs (scriptOf frame segs) = .ok s) :
      Step serialize env ⟨m, client, l₁ ++ (a, frame) :: l₂⟩ []
        ⟨m, Function.update client a ⟨s.msgr, s.fs⟩, l₁ ++ l₂⟩
  /-- a LIST frame is lost -/
  | lose {m client p l₁ l₂} :
      Step serialize env ⟨m, client, l₁ ++ p :: l₂⟩ [] ⟨m, client, l₁ ++ l₂⟩
  /-- a client handles something else -/
  | serve {w a conn d r s} (hp : IsTempPath d.recvPath)
      (hr : recv d.recvPath (w.client a).fs conn = .ok r) (hno : acceptedList env r.data = none)
      (hok : RelaysListed env d (w.client a).msgr r.data r.fs)
      (hs : listeLoop env d (w.client a).msgr (w.client a).fs conn = .ok s) :
      Step serialize env w [] { w with client := Function.update w.client a ⟨s.msgr, s.fs⟩ }
  /-- a client sends a message -/
  | send {w a to_ content d r} (hd : IsShuffle d.shuffle)
      (hr : (w.client a).msgr.sendMessage to_ content d (w.client a).fs = r) :
      Step serialize env w [] { w with client := Function.update w.client a ⟨r.msgr, r.fs⟩ }

/-- A run, with the changes of the directory asked for in it. -/
inductive Runs (serialize : List Node → Bytes) (env : Env) : World → List (Op Bytes Bytes) →
    World → Prop
  | refl (w : World) : Runs serialize env w [] w
  | tail {w w' w'' trace new} (h : Runs serialize env w trace w')
      (hs : Step serialize env w' new w'') : Runs serialize env w (trace ++ new) w''

variable {serialize : List Node → Bytes} {env : Env}

theorem Runs.trans {w w' w'' : World} {trace trace' : List (Op Bytes Bytes)}
    (h : Runs serialize env w trace w') (h' : Runs serialize env w' trace' w'') :
    Runs serialize env w (trace ++ trace') w'' := by
  induction h' with
  | refl => rwa [List.append_nil]
  | tail _ hs ih =>
    rw [← List.append_assoc]
    exact ih.tail hs

/-! ## A list that arrives -/

/-- A list that is sent fits in a frame. -/
theorem eq_of_sendList {content frame : Bytes} (hf : sendList content = .ok (some frame)) :
    content.length + 4 < 2 ^ 31 ∧ frame = [0] ++
      be 8 (LIST_PREFIX ++ content ++ LIST_POSTFIX).length ++
        (LIST_PREFIX ++ content ++ LIST_POSTFIX) := by
  have hne : content ≠ [] := by
    rintro rfl
    cases hf
  have hlen : content.length + 4 < 2 ^ 31 := by
    by_contra hlen
    rw [sendList_overflow hne (not_lt.1 hlen)] at hf
    cases hf
  rw [sendList_eq hne hlen] at hf
  exact ⟨hlen, (Option.some.inj (Except.ok.inj hf)).symm⟩

/-- What a client does with a list that arrives. -/
theorem listeLoop_sent {content frame : Bytes} (hf : sendList content = .ok (some frame))
    {segs : List Bytes} (hsegs : segs.flatten = frame.drop 9) (d : ListenDraws) (msgr : Messanger)
    (fs : Files) : listeLoop env d msgr fs (scriptOf frame segs) =
      .ok (.idle { msgr with nodeList := insertNodes (env.parseFromString content).2 } fs) := by
  obtain ⟨hlen, rfl⟩ := eq_of_sendList hf
  rw [drop_frame] at hsegs
  rw [scriptOf_eq, length_list, listeLoop_list hlen hsegs]

/-- **A list that arrives is the directory it was fetched from.** -/
theorem getElem?_insertNodes_of_reaches
    (hparse : ∀ nodes, env.parseFromString (serialize nodes) = (true, nodes))
    {ok : NodeManage → Request → Prop} {m : NodeManage} {ops : List (Op Bytes Bytes)}
    (h : NodeManage.Reaches serialize ok m ops) (id : Bytes) :
    (insertNodes (env.parseFromString (m.getBinary serialize)).2)[id]? = current ops id := by
  refine Option.ext fun ip => ?_
  rw [NodeManage.getBinary, hparse, getElem?_insertNodes,
    NodeManage.find?_eq_some_iff (NodeManage.nodup_ids_of_reaches h), NodeManage.mem_nodeList_iff h]

/-! ## The invariant -/

/-- The directory at some moment from the trace `base` on, when the trace has become `ops`. -/
def Past (serialize : List Node → Bytes) (base ops : List (Op Bytes Bytes)) (m : NodeManage)
    (before : List (Op Bytes Bytes)) : Prop :=
  base <+: before ∧ before <+: ops ∧ NodeManage.Reaches serialize (fun _ _ => True) m before

/-- What holds in a run from `w₀`, where the trace is `base`: the directory is the one of the trace,
every list on its way is a directory since then, and so is the list of every client that has got
one. -/
structure Holds (serialize : List Node → Bytes) (w₀ : World) (base ops : List (Op Bytes Bytes))
    (w : World) : Prop where
  directory : NodeManage.Reaches serialize (fun _ _ => True) w.directory ops
  base_prefix : base <+: ops
  flight : ∀ p ∈ w.flight, ∃ m before, Past serialize base ops m before ∧
    sendList (m.getBinary serialize) = .ok (some p.2)
  list : ∀ a, w.list a = w₀.list a ∨ ∃ m before, Past serialize base ops m before ∧
    ∀ id : Bytes, (w.list a)[id]? = current before id

theorem Past.append {base ops before : List (Op Bytes Bytes)} {m : NodeManage}
    (h : Past serialize base ops m before) (new : List (Op Bytes Bytes)) :
    Past serialize base (ops ++ new) m before :=
  ⟨h.1, h.2.1.trans (List.prefix_append ops new), h.2.2⟩

section Steps

variable {w₀ w w' : World} {base ops new : List (Op Bytes Bytes)}

/-- Only the directory is another one. -/
theorem Holds.serve (h : Holds serialize w₀ base ops w) {m : NodeManage}
    (hm : NodeManage.Reaches serialize (fun _ _ => True) m (ops ++ new)) :
    Holds serialize w₀ base (ops ++ new) { w with directory := m } where
  directory := hm
  base_prefix := h.base_prefix.trans (List.prefix_append ops new)
  flight p hp := by
    obtain ⟨m', before, hpast, hf⟩ := h.flight p hp
    exact ⟨m', before, hpast.append new, hf⟩
  list a := by
    rcases h.list a with hsame | ⟨m', before, hpast, hlist⟩
    · exact Or.inl hsame
    · exact Or.inr ⟨m', before, hpast.append new, hlist⟩

theorem list_update_self (m : NodeManage) (client : InAddr → Host) (a : InAddr) (host : Host)
    (flight : List (InAddr × Bytes)) :
    World.list ⟨m, Function.update client a host, flight⟩ a = host.msgr.nodeList :=
  congrArg (fun h : Host => h.msgr.nodeList) (Function.update_self a host client)

theorem list_update_of_ne (m : NodeManage) (client : InAddr → Host) {a b : InAddr} (hb : b ≠ a)
    (host : Host) (flight : List (InAddr × Bytes)) :
    World.list ⟨m, Function.update client a host, flight⟩ b = (client b).msgr.nodeList :=
  congrArg (fun h : Host => h.msgr.nodeList) (Function.update_of_ne hb host client)

/-- A client is another one, with the same list. -/
theorem Holds.update (h : Holds serialize w₀ base ops w) {a : InAddr} {host : Host}
    (hlist : host.msgr.nodeList = w.list a) :
    Holds serialize w₀ base ops ⟨w.directory, Function.update w.client a host, w.flight⟩ where
  directory := h.directory
  base_prefix := h.base_prefix
  flight := h.flight
  list b := by
    by_cases hb : b = a
    · subst hb
      rw [list_update_self, hlist]
      exact h.list b
    · rw [list_update_of_ne _ _ hb]
      exact h.list b

/-- Some of the lists on their way are gone. -/
theorem Holds.sublist (h : Holds serialize w₀ base ops w) {flight : List (InAddr × Bytes)}
    (hsub : flight.Sublist w.flight) : Holds serialize w₀ base ops { w with flight := flight } where
  directory := h.directory
  base_prefix := h.base_prefix
  flight p hp := h.flight p (hsub.subset hp)
  list := h.list

/-- A message that is no list leaves the node list. -/
theorem nodeList_of_serve {d : ListenDraws} {msgr : Messanger} {fs : Files} {conn : Conn}
    {r : Received} {s : Served} (hp : IsTempPath d.recvPath) (hr : recv d.recvPath fs conn = .ok r)
    (hno : acceptedList env r.data = none) (hok : RelaysListed env d msgr r.data r.fs)
    (hs : listeLoop env d msgr fs conn = .ok s) : s.msgr.nodeList = msgr.nodeList := by
  rcases handle_nodeList (length_data_lt hp hr) (handle_of_listeLoop hr hs) with
    ⟨nodes, hacc, -⟩ | ⟨-, hmsgr | ⟨hlist, hping, hfile, m, fs', hopen, hfrom, hmsgr⟩⟩
  · rw [hno] at hacc
    cases hacc
  · rw [hmsgr]
  · rw [hmsgr, NodeMap.index_of_mem (hok hlist hping hfile m fs' hopen hfrom)]

/-- **One step.** -/
theorem Holds.step (hparse : ∀ nodes, env.parseFromString (serialize nodes) = (true, nodes))
    (h : Holds serialize w₀ base ops w) (hs : Step serialize env w new w') :
    Holds serialize w₀ base (ops ++ new) w' := by
  cases hs with
  | request hr hm => exact h.serve (h.directory.serve hr trivial hm)
  | fetch a hf =>
    rw [List.append_nil]
    refine ⟨h.directory, h.base_prefix, fun p hp => ?_, h.list⟩
    rcases List.mem_append.1 hp with hp | hp
    · exact h.flight p hp
    · rw [List.mem_singleton.1 hp]
      exact ⟨_, ops, ⟨h.base_prefix, List.prefix_refl ops, h.directory⟩, hf⟩
  | @deliver m client a frame l₁ l₂ segs d s hsegs hs =>
    rw [List.append_nil]
    obtain ⟨m', before, hpast, hf⟩ := h.flight (a, frame)
      (List.mem_append_right _ List.mem_cons_self)
    rw [listeLoop_sent hf hsegs] at hs
    cases hs
    refine ⟨h.directory, h.base_prefix, fun p hp => h.flight p ?_, fun b => ?_⟩
    · rcases List.mem_append.1 hp with hp | hp
      · exact List.mem_append_left _ hp
      · exact List.mem_append_right _ (List.mem_cons_of_mem _ hp)
    · by_cases hb : b = a
      · subst hb
        right
        rw [list_update_self]
        exact ⟨m', before, hpast, getElem?_insertNodes_of_reaches hparse hpast.2.2⟩
      · rw [list_update_of_ne _ _ hb]
        exact h.list b
  | lose =>
    rw [List.append_nil]
    exact h.sublist (List.Sublist.append_left (List.sublist_cons_self _ _) _)
  | serve hp hr hno hok hs =>
    rw [List.append_nil]
    exact h.update (nodeList_of_serve hp hr hno hok hs)
  | send hd hr =>
    subst hr
    rw [List.append_nil]
    exact h.update (sendMessage_nodeList _ _ _ hd _)

/-- **A whole run.** -/
theorem Holds.run (hparse : ∀ nodes, env.parseFromString (serialize nodes) = (true, nodes))
    (h : Holds serialize w₀ base ops w) {trace : List (Op Bytes Bytes)}
    (hrun : Runs serialize env w trace w') : Holds serialize w₀ base (ops ++ trace) w' := by
  induction hrun with
  | refl => rwa [List.append_nil]
  | tail _ hs ih =>
    rw [← List.append_assoc]
    exact ih.step hparse hs

end Steps

/-! ## Runs from the start -/

/-- The empty directory, and clients without a list. -/
structure Starts (w : World) : Prop where
  directory : w.directory = ⟨[]⟩
  list : ∀ a, w.list a = ∅
  flight : w.flight = []

section Runs

variable {w₀ w w' : World} {ops trace : List (Op Bytes Bytes)}

theorem holds_of_run (hparse : ∀ nodes, env.parseFromString (serialize nodes) = (true, nodes))
    (h : w₀.Starts) (hrun : Runs serialize env w₀ ops w) : Holds serialize w₀ [] ops w := by
  have hstart : Holds serialize w₀ [] [] w₀ := by
    refine ⟨h.directory ▸ .start, List.prefix_refl _, fun p hp => ?_, fun a => Or.inl rfl⟩
    rw [h.flight] at hp
    cases hp
  exact hstart.run hparse hrun

/-- The list of a client is a directory of the past. -/
theorem exists_past (hparse : ∀ nodes, env.parseFromString (serialize nodes) = (true, nodes))
    (h : w₀.Starts) (hrun : Runs serialize env w₀ ops w) (a : InAddr) :
    ∃ before, before <+: ops ∧ ∀ id : Bytes, (w.list a)[id]? = current before id := by
  rcases (holds_of_run hparse h hrun).list a with hsame | ⟨m, before, hpast, hlist⟩
  · refine ⟨[], List.nil_prefix, fun id => ?_⟩
    rw [hsame, h.list]
    exact Std.ExtTreeMap.getElem?_empty
  · exact ⟨before, hpast.2.1, hlist⟩

/-- An id keeps its address in the directories between two that have it, unless it is deleted. -/
theorem current_inj_of_le {before after : List (Op Bytes Bytes)} {id ip ip' : Bytes}
    (hle : before <+: after) (hdel : .del id ∉ after) (h : current before id = some ip)
    (h' : current after id = some ip') : ip = ip' := by
  obtain ⟨rest, rfl⟩ := hle
  have hrest : .del id ∉ rest := fun hmem => hdel (List.mem_append_right _ hmem)
  rw [OrderedMap.current_append h hrest] at h'
  exact Option.some.inj h'

/-- **The lists of the clients**: each is at any time the directory of some moment before, and two
of them disagree about an id only when it has been deleted. -/
theorem lists_of_run (hparse : ∀ nodes, env.parseFromString (serialize nodes) = (true, nodes))
    (h : w₀.Starts) (hrun : Runs serialize env w₀ ops w) :
    (∀ a, ∃ before, before <+: ops ∧ ∀ id : Bytes, (w.list a)[id]? = current before id) ∧
      ∀ a b (id ip ip' : Bytes), (w.list a)[id]? = some ip → (w.list b)[id]? = some ip' →
        ip ≠ ip' → .del id ∈ ops := by
  have hpast := exists_past hparse h hrun
  refine ⟨hpast, fun a b id ip ip' ha hb hne => ?_⟩
  obtain ⟨before, hle, hlist⟩ := hpast a
  obtain ⟨before', hle', hlist'⟩ := hpast b
  rw [hlist] at ha
  rw [hlist'] at hb
  by_contra hdel
  rcases List.prefix_or_prefix_of_prefix hle hle' with hpre | hpre
  · exact hne (current_inj_of_le hpre (fun hmem => hdel (hle'.subset hmem)) ha hb)
  · exact hne (current_inj_of_le hpre (fun hmem => hdel (hle.subset hmem)) hb ha).symm

/-- **A registration reaches everybody.** As long as an id of the directory is not deleted, every
list that is fetched from then on, by whichever client, has its address. -/
theorem registered_of_run (hparse : ∀ nodes, env.parseFromString (serialize nodes) = (true, nodes))
    (h : w₀.Starts) (hrun : Runs serialize env w₀ ops w) (hflight : w.flight = [])
    {id ip : Bytes} (hid : ⟨id, ip⟩ ∈ w.directory.nodeList)
    (hrun' : Runs serialize env w trace w') (hdel : .del id ∉ trace) :
    ⟨id, ip⟩ ∈ w'.directory.nodeList ∧
      ∀ a, w'.list a = w.list a ∨ (w'.list a)[id]? = some ip := by
  have hreach := (holds_of_run hparse h hrun).directory
  have hcurrent := (NodeManage.mem_nodeList_iff hreach).1 hid
  have hbase : Holds serialize w ops ops w := by
    refine ⟨hreach, List.prefix_refl ops, fun p hp => ?_, fun a => Or.inl rfl⟩
    rw [hflight] at hp
    cases hp
  have hend := hbase.run hparse hrun'
  refine ⟨?_, fun a => (hend.list a).imp_right ?_⟩
  · rw [NodeManage.mem_nodeList_iff hend.directory]
    exact OrderedMap.current_append hcurrent hdel
  · rintro ⟨m, before, ⟨⟨rest, rfl⟩, hle, -⟩, hlist⟩
    rw [hlist]
    refine OrderedMap.current_append hcurrent fun hmem => hdel ?_
    exact ((List.prefix_append_right_inj ops).1 hle).subset hmem

end Runs

end World

/-! ## Joining -/

theorem ipv4Address_inetNtoa (addr : InAddr) : ipv4AddressRegex.fullMatch (inetNtoa addr) := by
  have hdot : NotNewline 46 := ⟨by decide, by decide⟩
  exact Regex.fullMatch_iff.2 (mem_ipv4AddressRegex.2 ⟨_, addr.a.toNat_lt, _, addr.b.toNat_lt, _,
    addr.c.toNat_lt, _, addr.d.toNat_lt, 46, 46, 46, hdot, hdot, hdot, rfl⟩)

/-- An address is determined by its decimals. -/
theorem inetNtoa_injective : Function.Injective inetNtoa := by
  have hcut : ∀ {m n : ℕ} {s t : Bytes}, decimal m ++ 46 :: s = decimal n ++ 46 :: t →
      m = n ∧ s = t := by
    intro m n s t h
    have hdot : ∀ k, (46 : UInt8) ∉ decimal k := notMem_decimal rfl
    have htake := congrArg (List.takeWhile (· ≠ 46)) h
    rw [takeWhile_ne_append (hdot m), takeWhile_ne_append (hdot n)] at htake
    rw [htake, List.append_cancel_left_eq] at h
    exact ⟨decimal_injective htake, (List.cons.inj h).2⟩
  rintro ⟨a, b, c, d⟩ ⟨a', b', c', d'⟩ h
  obtain ⟨ha, h⟩ := hcut h
  obtain ⟨hb, h⟩ := hcut h
  obtain ⟨hc, h⟩ := hcut h
  obtain rfl := UInt8.toNat_inj.1 ha
  obtain rfl := UInt8.toNat_inj.1 hb
  obtain rfl := UInt8.toNat_inj.1 hc
  obtain rfl := UInt8.toNat_inj.1 (decimal_injective h)
  rfl

/-- A directory with a node is sent. -/
theorem getBinary_ne_nil {serialize : List Node → Bytes} {env : Env} (hempty : serialize [] = [])
    (hparse : ∀ nodes, env.parseFromString (serialize nodes) = (true, nodes)) {m : NodeManage}
    {node : Node} (h : node ∈ m.nodeList) : m.getBinary serialize ≠ [] := by
  intro hnil
  have hlist := congrArg Prod.snd ((hparse m.nodeList).symm.trans
    ((congrArg env.parseFromString (hnil.trans hempty.symm)).trans (hparse [])))
  rw [show m.nodeList = [] from hlist] at h
  cases h

section Joins

variable {id : Bytes} (hid : githubIdRegex.fullMatch id)

include hid

theorem length_githubId : 0 < id.length ∧ id.length ≤ 39 := by
  obtain ⟨c, s, rfl, -, hlen, -⟩ := mem_githubIdRegex.1 (Regex.fullMatch_iff.1 hid)
  rw [List.length_cons]
  omega

theorem trimRight_githubId : trimRight id = id := by
  refine List.rdropWhile_eq_self_iff.2 fun hne hspace => ?_
  have hlast := List.getLast_mem hne
  revert hspace hlast
  generalize id.getLast hne = c
  intro hspace hlast
  refine notMem_of_githubId hid (x := c) ?_ ?_ hlast
  · simp only [isSpace, decide_eq_true_eq] at hspace
    obtain rfl | ⟨-, h13⟩ := hspace
    · decide
    · have hle : c.toNat ≤ 13 := UInt8.le_iff_toNat_le.1 h13
      simp only [isAlnum, UInt8.le_iff_toNat_le, UInt8.toNat_ofNat, decide_eq_false_iff_not]
      omega
  · rintro rfl
    exact absurd hspace (by decide)

/-- The datagram of `advertise` carries the id. -/
theorem datagramId_advertise : datagramId (advertise id) = .ok id := by
  obtain ⟨hpos, hle⟩ := length_githubId hid
  have hlen : (advertise id).length = id.length + 4 := by
    simp [advertise, BROADCAST_PREFIX, BROADCAST_POSTFIX]
  have hne : advertise id ≠ [0xBA, 0xAA, 0xAD] := by
    intro h
    have h3 : (advertise id).length = 3 := congrArg List.length h
    omega
  have hbuf : (advertise id).length ≤ BUFSIZ := by
    rw [hlen, BUFSIZ]
    omega
  exact ((datagramId_exact_iff hbuf).2 hne id (List.ne_nil_of_length_pos hpos)).2 rfl

/-- **What a node asks for when it advertises itself.** -/
theorem announce_advertise {curl : Curl} (hcurl : curl.Posts) {serialize : List Node → Bytes}
    (memory : Bytes) (addr : InAddr) (m : NodeManage) :
    announce curl serialize memory addr (advertise id) m =
        .ok (m.serve serialize (.addUser id (inetNtoa addr))).1 ∧
      readRequest (.opened (addNode curl id (inetNtoa addr))) memory =
        .ok (.addUser id (inetNtoa addr)) := by
  obtain ⟨hpos, hle⟩ := length_githubId hid
  have hform : readForm (cstr (addNodeForm id (inetNtoa addr))) =
      .addUser id (inetNtoa addr) := by
    rw [cstr_addNodeForm (notMem_of_githubId hid rfl (by decide))
      (notMem_inetNtoa rfl (by decide) addr), readForm_addNodeForm_of_valid hid
      (ipv4Address_inetNtoa addr) (notMem_inetNtoa rfl (by decide) addr)]
  constructor
  · rw [announce_eq hcurl (datagramId_advertise hid) (List.ne_nil_of_length_pos hpos),
      trimRight_githubId hid, hform]
  · have hlen : id.length + (inetNtoa addr).length < 2 ^ 30 := by
      have haddr := length_inetNtoa_le addr
      omega
    rw [readRequest_addNode hcurl hlen, hform]

/-- **A client that advertises itself is in the list it is sent**: the list is the directory with
the client in it, under the address that the datagram has come from, unless the id has been
registered with another one before, which it then keeps. -/
theorem joins {curl : Curl} (hcurl : curl.Posts) {serialize : List Node → Bytes} {env : Env}
    (hempty : serialize [] = [])
    (hparse : ∀ nodes, env.parseFromString (serialize nodes) = (true, nodes))
    {ok : NodeManage → Request → Prop} {m : NodeManage} {ops : List (Op Bytes Bytes)}
    (h : NodeManage.Reaches serialize ok m ops) (memory : Bytes) (addr : InAddr) :
    ∃ m', announce curl serialize memory addr (advertise id) m = .ok m' ∧
      ((m'.getBinary serialize).length + 4 < 2 ^ 31 →
        ∃ frame, sendList (m'.getBinary serialize) = .ok (some frame) ∧
          ∀ (msgr : Messanger) (fs : Files) (d : ListenDraws) (segs : List Bytes),
            segs.flatten = frame.drop 9 →
            ∃ s, listeLoop env d msgr fs (scriptOf frame segs) = .ok s ∧
              s.msgr.nodeList[id]? = some ((current ops id).getD (inetNtoa addr)) ∧
              ∀ other ≠ id, s.msgr.nodeList[other]? = current ops other) := by
  obtain ⟨hannounce, hread⟩ := announce_advertise hid hcurl memory addr m
  have hreach : NodeManage.Reaches serialize (fun _ _ => True)
      (m.serve serialize (.addUser id (inetNtoa addr))).1 (ops ++ [.add id (inetNtoa addr)]) :=
    (h.mono fun _ _ _ => trivial).concat hread trivial
  refine ⟨_, hannounce, fun hlen => ?_⟩
  generalize (m.serve serialize (.addUser id (inetNtoa addr))).1 = m' at hreach hlen
  have hadded : current (ops ++ [.add id (inetNtoa addr)]) id =
      some ((current ops id).getD (inetNtoa addr)) := by
    rw [OrderedMap.current_concat_add, if_pos rfl]
    cases current ops id <;> rfl
  have hne := getBinary_ne_nil hempty hparse ((NodeManage.mem_nodeList_iff hreach).2 hadded)
  refine ⟨_, sendList_eq hne hlen, fun msgr fs d segs hsegs => ?_⟩
  have harrived := World.getElem?_insertNodes_of_reaches hparse hreach
  refine ⟨_, World.listeLoop_sent (sendList_eq hne hlen) hsegs d msgr fs,
    (harrived id).trans hadded, fun other hother => (harrived other).trans ?_⟩
  rw [OrderedMap.current_concat_add, if_neg (Ne.symm hother), Option.or_none]

end Joins

/-- `a` joins. -/
theorem joins_example :
    ∃ m', announce exampleCurl NodeList.serialize [] exampleAddr (advertise (ascii "a")) ⟨[]⟩ =
        .ok m' ∧
      ((m'.getBinary NodeList.serialize).length + 4 < 2 ^ 31 →
        ∃ frame, sendList (m'.getBinary NodeList.serialize) = .ok (some frame) ∧
          ∀ (msgr : Messanger) (fs : Files) (d : ListenDraws) (segs : List Bytes),
            segs.flatten = frame.drop 9 →
            ∃ s, listeLoop exampleEnv d msgr fs (scriptOf frame segs) = .ok s ∧
              s.msgr.nodeList[ascii "a"]? =
                some ((current [] (ascii "a")).getD (inetNtoa exampleAddr)) ∧
              ∀ other ≠ ascii "a", s.msgr.nodeList[other]? = current [] other) :=
  joins (by decide) posts_exampleCurl rfl NodeList.parse_serialize
    (NodeManage.Reaches.start : NodeManage.Reaches _ (fun _ _ => True) _ _) [] exampleAddr

/-! ## A run of one client -/

namespace World

/-- The empty directory, and clients `c` without a list. -/
def exampleWorld : World := ⟨⟨[]⟩, fun _ => ⟨exampleClient, Files.blank⟩, []⟩

theorem starts_exampleWorld : exampleWorld.Starts := ⟨rfl, fun _ => rfl, rfl⟩

/-- `a` is registered. -/
theorem runs_registered : Runs NodeList.serialize exampleEnv exampleWorld
    [.add (ascii "a") (ascii "10.0.0.1")] { exampleWorld with directory := ⟨exampleNodes⟩ } := by
  have hr := NodeManage.readRequest_exampleAdd
    (show (ascii "a").length + (ascii "10.0.0.1").length < 2 ^ 30 by decide) (by decide)
  obtain ⟨reply, hm⟩ := exists_requestHandler hr exampleWorld.directory
  exact (Runs.refl _).tail (.request hr hm)

/-- The list is fetched for a client, and arrives. -/
theorem runs_fetched (env : Env) {m : NodeManage} {frame : Bytes}
    (hf : sendList (m.getBinary serialize) = .ok (some frame)) (client : InAddr → Host)
    (a : InAddr) : Runs serialize env ⟨m, client, []⟩ [] ⟨m, Function.update client a
      ⟨{ (client a).msgr with
        nodeList := insertNodes (env.parseFromString (m.getBinary serialize)).2 }, (client a).fs⟩,
      []⟩ := by
  have hfetch : Runs serialize env ⟨m, client, []⟩ [] ⟨m, client, [] ++ [(a, frame)]⟩ :=
    (Runs.refl _).tail (.fetch a hf)
  have harrive : Step serialize env ⟨m, client, [] ++ (a, frame) :: []⟩ [] ⟨m, _, [] ++ []⟩ :=
    .deliver List.flatten_singleton
      (listeLoop_sent hf List.flatten_singleton exampleListenDraws _ _)
  exact hfetch.tail harrive

theorem sendList_exampleNodes : ∃ frame,
    sendList (NodeManage.getBinary NodeList.serialize ⟨exampleNodes⟩) = .ok (some frame) := by
  refine ⟨_, sendList_eq (List.ne_nil_of_length_pos ?_) length_exampleNodes⟩
  rw [NodeManage.getBinary, exampleNodes, NodeList.length_serialize_cons (by decide)]
  decide

/-- A registration, and the list that is fetched after it and delivered to one of two clients. -/
theorem lists_of_run_example : ∃ w,
    Runs NodeList.serialize exampleEnv exampleWorld
      ([.add (ascii "a") (ascii "10.0.0.1")] ++ []) w ∧
    (w.list exampleAddr)[ascii "a"]? = some (ascii "10.0.0.1") ∧
    (∀ a, ∃ before, before <+: [.add (ascii "a") (ascii "10.0.0.1")] ++ [] ∧
      ∀ id : Bytes, (w.list a)[id]? = current before id) ∧
    ∀ a b (id ip ip' : Bytes), (w.list a)[id]? = some ip → (w.list b)[id]? = some ip' →
      ip ≠ ip' → .del id ∈ [Op.add (ascii "a") (ascii "10.0.0.1")] ++ [] := by
  obtain ⟨frame, hf⟩ := sendList_exampleNodes
  have hrun := runs_registered.trans (runs_fetched exampleEnv hf exampleWorld.client exampleAddr)
  have hparse : (exampleEnv.parseFromString
      (NodeManage.getBinary NodeList.serialize ⟨exampleNodes⟩)).2 = exampleNodes :=
    congrArg Prod.snd (NodeList.parse_serialize _)
  refine ⟨_, hrun, ?_, lists_of_run NodeList.parse_serialize starts_exampleWorld hrun⟩
  simp only [World.list, Function.update_self, hparse, getElem?_insertNodes]
  rfl

/-- A list fetched after the registration. -/
theorem registered_of_run_example : ∃ w',
    Runs NodeList.serialize exampleEnv { exampleWorld with directory := ⟨exampleNodes⟩ } [] w' ∧
    ⟨ascii "a", ascii "10.0.0.1"⟩ ∈ w'.directory.nodeList ∧
      ∀ a, w'.list a = exampleWorld.list a ∨
        (w'.list a)[ascii "a"]? = some (ascii "10.0.0.1") := by
  obtain ⟨frame, hf⟩ := sendList_exampleNodes
  have hrun := runs_fetched exampleEnv hf exampleWorld.client exampleAddr
  exact ⟨_, hrun, registered_of_run NodeList.parse_serialize starts_exampleWorld runs_registered rfl
    (List.mem_singleton_self _) hrun List.not_mem_nil⟩

end World

end Onion5
