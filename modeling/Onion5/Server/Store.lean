import Onion5.Server.RestClient
import Onion5.Server.Patterns

/-!
# Runs of the directory

The states of the directory over all sequences of requests, from the empty one.

* `entries_of_reaches`: the list refines the insertion-ordered map that the additions and deletions
  make, and `refines_of_reaches` says what that means for its ids, its order and its search.
* `isDottedQuad_of_reaches`: as long as every address that enters has three dots, all addresses are
  dotted quads.
-/

namespace Onion5

open OrderedMap (Op)

/-! ## Requests -/

/-- The changes a request asks for. -/
def Request.changes : Request → List (Op Bytes Bytes)
  | .addUser githubId ipAddress => [.add githubId ipAddress]
  | .deleteUser githubId => [.del githubId]
  | .getUsers => []
  | .bad => []

/-- The strings of a request have passed the checks of the handler. -/
def Request.Checked : Request → Prop
  | .addUser githubId ipAddress =>
    githubIdRegex.fullMatch githubId ∧ ipv4AddressRegex.fullMatch ipAddress
  | .deleteUser githubId => githubIdRegex.fullMatch githubId
  | .getUsers => True
  | .bad => True

theorem checked_checkForm (githubId ipAddress : Bytes) :
    (checkForm githubId ipAddress).Checked := by
  unfold checkForm
  split_ifs with h
  · exact h
  · trivial

theorem checked_of_readPost {is is' : InStream} {memory : Bytes} {r : Request}
    (h : readPost is memory = .ok (r, is')) : r.Checked := by
  obtain ⟨⟨contentSize, is₁⟩, -, h⟩ := Run.bind_eq_ok.1 h
  dsimp only at h
  split_ifs at h
  · obtain ⟨output, -, h⟩ := Run.bind_eq_ok.1 h
    cases h
    exact checked_checkForm _ _
  · cases h
    trivial

/-- **What the handler serves has passed its checks.** -/
theorem checked_of_readRequest {conn : InStream} {memory : Bytes} {r : Request}
    (h : readRequest conn memory = .ok r) : r.Checked := by
  obtain ⟨is, h⟩ := readRequest_eq_ok_iff.1 h
  simp only [receive] at h
  split_ifs at h with hmethod hget hpost hdelete hid
  · cases h
    trivial
  · cases h
    trivial
  · exact checked_of_readPost h
  · cases h
    exact hid
  · cases h
    trivial
  · cases h
    trivial

namespace NodeManage

variable {serialize : List Node → Bytes} {m : NodeManage}

/-- **A request changes the list as its changes do the map.** -/
theorem entries_serve {om : OrderedMap Bytes Bytes} (h : m.entries = om.entries) (r : Request) :
    (m.serve serialize r).1.entries = (r.changes.foldl OrderedMap.apply om).entries := by
  cases r with
  | getUsers => exact h
  | addUser githubId ipAddress => exact entries_addUser h githubId ipAddress
  | deleteUser githubId => exact entries_deleteUser h githubId
  | bad => exact h

/-- A node of the directory after a request was there before, or is the one the request adds. -/
theorem mem_serve {node : Node} (r : Request) (h : node ∈ (m.serve serialize r).1.nodeList) :
    node ∈ m.nodeList ∨ r = .addUser node.githubId node.ipAddr ∧ node.githubId ∉ m.ids := by
  cases r with
  | getUsers => exact .inl h
  | addUser githubId ipAddress =>
    simp only [serve, addUser] at h
    split_ifs at h with hidx
    · rcases List.mem_append.1 h with h | h
      · exact .inl h
      · rw [List.mem_singleton.1 h]
        exact .inr ⟨rfl, findIdx_eq_neg_one_iff.1 hidx⟩
    · exact .inl h
  | deleteUser githubId =>
    simp only [serve, deleteUser, deleteIdx] at h
    split_ifs at h
    · exact .inl (List.mem_of_mem_eraseIdx h)
    · exact .inl h
  | bad => exact .inl h

/-- A new id is added. -/
theorem mem_serve_addUser {githubId ipAddress : Bytes} (h : githubId ∉ m.ids) :
    ⟨githubId, ipAddress⟩ ∈ (m.serve serialize (.addUser githubId ipAddress)).1.nodeList := by
  simp [serve, addUser, findIdx_eq_neg_one_iff.2 h]

/-! ## Runs -/

/-- A server at work, from the empty directory: requests that it reads and serves, in any number.
`ok` restricts the requests served. The last argument is the trace of the changes asked for. -/
inductive Reaches (serialize : List Node → Bytes) (ok : NodeManage → Request → Prop) :
    NodeManage → List (Op Bytes Bytes) → Prop
  | start : Reaches serialize ok ⟨[]⟩ []
  | serve {m m' ops conn memory r reply} (h : Reaches serialize ok m ops)
      (hr : readRequest conn memory = .ok r) (hok : ok m r)
      (hm : requestHandler serialize conn memory m = .ok (m', reply)) :
      Reaches serialize ok m' (ops ++ r.changes)

/-- Serving a request that has been read. -/
theorem Reaches.concat {ok : NodeManage → Request → Prop} {ops : List (Op Bytes Bytes)}
    {conn : InStream} {memory : Bytes} {r : Request} (h : Reaches serialize ok m ops)
    (hr : readRequest conn memory = .ok r) (hok : ok m r) :
    Reaches serialize ok (m.serve serialize r).1 (ops ++ r.changes) := by
  obtain ⟨reply, hm⟩ := exists_requestHandler hr m
  exact .serve h hr hok hm

theorem serve_of_requestHandler {conn : InStream} {memory reply : Bytes} {r : Request}
    {m' : NodeManage} (hr : readRequest conn memory = .ok r)
    (hm : requestHandler serialize conn memory m = .ok (m', reply)) :
    m' = (m.serve serialize r).1 := by
  obtain ⟨reply', hm'⟩ := exists_requestHandler hr m
  cases hm.symm.trans hm'
  rfl

section Runs

variable {ok : NodeManage → Request → Prop} {ops : List (Op Bytes Bytes)}

/-- **The list refines the map.** -/
theorem entries_of_reaches (h : Reaches serialize ok m ops) :
    m.entries = (OrderedMap.run ops).entries := by
  induction h with
  | start => rfl
  | serve _ hr _ hm ih =>
    rw [serve_of_requestHandler hr hm, entries_serve ih, OrderedMap.run, OrderedMap.run,
      List.foldl_append]

/-- The strings of every node have passed the checks. -/
theorem checked_of_reaches (h : Reaches serialize ok m ops) {node : Node}
    (hnode : node ∈ m.nodeList) :
    githubIdRegex.fullMatch node.githubId ∧ ipv4AddressRegex.fullMatch node.ipAddr := by
  induction h with
  | start => cases hnode
  | serve _ hr _ hm ih =>
    rw [serve_of_requestHandler hr hm] at hnode
    rcases mem_serve _ hnode with hnode | ⟨rfl, -⟩
    · exact ih hnode
    · exact checked_of_readRequest hr

theorem nodup_ids_of_reaches (h : Reaches serialize ok m ops) : m.ids.Nodup := by
  rw [← map_fst_entries, entries_of_reaches h]
  exact (OrderedMap.run ops).nodup

/-- An entry is in the directory when the trace says so. -/
theorem mem_nodeList_iff (h : Reaches serialize ok m ops) {id ip : Bytes} :
    ⟨id, ip⟩ ∈ m.nodeList ↔ OrderedMap.current ops id = some ip := by
  rw [← OrderedMap.lookup_run, OrderedMap.lookup_eq_some, ← entries_of_reaches h, mem_entries]

/-! ## The directory against the trace -/

/-- The directory `m` is what the trace `ops` makes of the empty one. -/
structure Refines (m : NodeManage) (ops : List (Op Bytes Bytes)) : Prop where
  nodup : m.ids.Nodup
  grammar : ∀ id ∈ m.ids, githubIdRegex.fullMatch id
  /-- an id has the address of its first addition after its last deletion -/
  current : ∀ id ip, ⟨id, ip⟩ ∈ m.nodeList ↔ OrderedMap.current ops id = some ip
  /-- the nodes stand in the order of the additions still in force -/
  order : m.entries = OrderedMap.live ops
  delete_absent : ∀ id ∉ m.ids, m.deleteUser id = m
  findIdx_eq : ∀ id (i : ℕ), m.findIdx id = i ↔ m.ids[i]? = some id
  findIdx_absent : ∀ id, m.findIdx id = -1 ↔ id ∉ m.ids

/-- **Every directory reached refines the map of its trace.** -/
theorem refines_of_reaches (h : Reaches serialize ok m ops) : Refines m ops where
  nodup := nodup_ids_of_reaches h
  grammar := by
    intro id hid
    obtain ⟨node, hnode, rfl⟩ := List.mem_map.1 hid
    exact (checked_of_reaches h hnode).1
  current := by
    intro id ip
    rw [← OrderedMap.lookup_run, OrderedMap.lookup_eq_some, ← entries_of_reaches h, mem_entries]
  order := by rw [← OrderedMap.entries_run, entries_of_reaches h]
  delete_absent := by
    intro id hid
    simp [deleteUser, findIdx_eq_neg_one_iff.2 hid]
  findIdx_eq := fun _ _ => findIdx_eq_iff (nodup_ids_of_reaches h)
  findIdx_absent := fun _ => findIdx_eq_neg_one_iff

/-! ## Addresses -/

/-- An address that a request enters has three dots. -/
def EntersDotted (m : NodeManage) (r : Request) : Prop :=
  ∀ githubId ipAddress, r = .addUser githubId ipAddress → githubId ∉ m.ids →
    ipAddress.count 46 = 3

/-- One request keeps the addresses dotted quads exactly when the one it enters has three dots. -/
theorem isDottedQuad_serve_iff (hm : ∀ node ∈ m.nodeList, IsDottedQuad node.ipAddr) {r : Request}
    (hr : r.Checked) :
    (∀ node ∈ (m.serve serialize r).1.nodeList, IsDottedQuad node.ipAddr) ↔ EntersDotted m r := by
  constructor
  · rintro h githubId ipAddress rfl hid
    exact (isDottedQuad_iff hr.2).1 (h _ (mem_serve_addUser hid))
  · intro h node hnode
    rcases mem_serve r hnode with hold | ⟨rfl, hid⟩
    · exact hm node hold
    · exact (isDottedQuad_iff hr.2).2 (h _ _ rfl hid)

/-- **The addresses are dotted quads** as long as those that enter have three dots. -/
theorem isDottedQuad_of_reaches (h : Reaches serialize EntersDotted m ops) :
    ∀ node ∈ m.nodeList, IsDottedQuad node.ipAddr := by
  induction h with
  | start => simp
  | serve _ hr hok hm ih =>
    rw [serve_of_requestHandler hr hm]
    exact (isDottedQuad_serve_iff ih (checked_of_readRequest hr)).2 hok

end Runs

/-! ## Examples of runs -/

/-- The request of a registration by a node with a short id. -/
theorem readRequest_exampleAdd {githubId ipAddress : Bytes}
    (hlen : githubId.length + ipAddress.length < 2 ^ 30)
    (hform : readForm (cstr (addNodeForm githubId ipAddress)) = .addUser githubId ipAddress) :
    readRequest (.opened (addNode exampleCurl githubId ipAddress)) [] =
      .ok (.addUser githubId ipAddress) := by
  rw [readRequest_addNode posts_exampleCurl hlen, hform]

/-- A registration in the empty directory. -/
theorem Reaches.example_add {ok : NodeManage → Request → Prop} (githubId ipAddress : Bytes)
    (hlen : githubId.length + ipAddress.length < 2 ^ 30)
    (hform : readForm (cstr (addNodeForm githubId ipAddress)) = .addUser githubId ipAddress)
    (hok : ok ⟨[]⟩ (.addUser githubId ipAddress)) :
    Reaches NodeList.serialize ok ⟨[⟨githubId, ipAddress⟩]⟩ [.add githubId ipAddress] :=
  Reaches.concat .start (readRequest_exampleAdd hlen hform) hok

/-- `a` registers, cannot change its address, and can once it has been deleted. `b` comes before
that. -/
def exampleOps : List (Op Bytes Bytes) :=
  [.add (ascii "a") (ascii "10.0.0.1")] ++ [.add (ascii "b") (ascii "10.0.0.2")] ++
    [.add (ascii "a") (ascii "10.0.0.3")] ++ [.del (ascii "a")] ++
    [.add (ascii "a") (ascii "10.0.0.3")]

theorem reaches_exampleOps : Reaches NodeList.serialize (fun _ _ => True)
    ⟨[⟨ascii "b", ascii "10.0.0.2"⟩, ⟨ascii "a", ascii "10.0.0.3"⟩]⟩ exampleOps := by
  have hone : Reaches NodeList.serialize (fun _ _ => True) ⟨[⟨ascii "a", ascii "10.0.0.1"⟩]⟩
      [.add (ascii "a") (ascii "10.0.0.1")] :=
    Reaches.example_add _ _ (by decide) (by decide) trivial
  have hb : readRequest (.opened (addNode exampleCurl (ascii "b") (ascii "10.0.0.2"))) [] =
      .ok (.addUser (ascii "b") (ascii "10.0.0.2")) :=
    readRequest_exampleAdd (by decide) (by decide)
  have ha : readRequest (.opened (addNode exampleCurl (ascii "a") (ascii "10.0.0.3"))) [] =
      .ok (.addUser (ascii "a") (ascii "10.0.0.3")) :=
    readRequest_exampleAdd (by decide) (by decide)
  have hdel := readRequest_deleteNode deletes_exampleCurlDelete
    (show githubIdRegex.fullMatch (ascii "a") by decide) []
  exact (((hone.concat hb trivial).concat ha trivial).concat hdel trivial).concat ha trivial

theorem refines_example :
    Refines ⟨[⟨ascii "b", ascii "10.0.0.2"⟩, ⟨ascii "a", ascii "10.0.0.3"⟩]⟩ exampleOps :=
  refines_of_reaches reaches_exampleOps

theorem isDottedQuad_example :
    Reaches NodeList.serialize EntersDotted ⟨[⟨ascii "a", ascii "10.0.0.1"⟩]⟩
      [.add (ascii "a") (ascii "10.0.0.1")] ∧
    ∀ node ∈ (⟨[⟨ascii "a", ascii "10.0.0.1"⟩]⟩ : NodeManage).nodeList,
      IsDottedQuad node.ipAddr := by
  have h : Reaches NodeList.serialize EntersDotted ⟨[⟨ascii "a", ascii "10.0.0.1"⟩]⟩
      [.add (ascii "a") (ascii "10.0.0.1")] := by
    refine Reaches.example_add _ _ (by decide) (by decide) ?_
    rintro githubId ipAddress heq -
    cases heq
    decide
  exact ⟨h, isDottedQuad_of_reaches h⟩

/-- An address with other characters in the place of its dots enters the directory. -/
theorem exists_not_isDottedQuad : ∃ m ops,
    Reaches NodeList.serialize (fun _ _ => True) m ops ∧
      ∃ node ∈ m.nodeList, ¬ IsDottedQuad node.ipAddr := by
  refine ⟨_, _, Reaches.example_add (ascii "a") (ascii "1x2x3x4") (by decide) (by decide)
    trivial, _, List.mem_singleton_self _, ?_⟩
  rw [isDottedQuad_iff (by decide)]
  decide

end NodeManage

end Onion5
