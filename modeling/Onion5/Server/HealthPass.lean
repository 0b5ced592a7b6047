import Onion5.Server.Store

/-!
# A pass of the health server

`health_server` asks the directory for its nodes, goes through this list, which is not brought up to
date any more, and deletes every node whose check fails. In between the server serves the requests
of others, of which none is a deletion.

Every request reaches the server as it was sent, and is served in one step. Which checks fail is
arbitrary.

* `reaches_of_passRun`: the directory during a pass is what the additions and deletions sent make of
  the one at its start.
* `pass_exact`: so a pass removes the nodes whose check fails, and no others.
-/

namespace Onion5

open OrderedMap (Op current)

namespace NodeManage

/-- The nodes that a pass goes through: what `health_server` parses of the answer to
`GET /users`. -/
def snapshot (serialize : List Node → Bytes) (parseFromString : Bytes → Bool × List Node)
    (m : NodeManage) : List Node := (parseFromString (m.getBinary serialize)).2

/-- A pass at work: the nodes still to be checked, and the directory. -/
structure Pass where
  todo : List Node
  m : NodeManage

variable {serialize : List Node → Bytes} {curl : CurlDelete} {fails : Node → Bool}

/-- A step of the pass or of the server, with the additions and deletions sent: the next check, with
the deletion when it fails, or a request that somebody else sends. -/
inductive PassStep (serialize : List Node → Bytes) (curl : CurlDelete) (fails : Node → Bool) :
    Pass → List (Op Bytes Bytes) → Pass → Prop
  | live {node todo m} (h : fails node = false) :
      PassStep serialize curl fails ⟨node :: todo, m⟩ [] ⟨todo, m⟩
  | exterminate {node todo m m' memory reply} (h : fails node = true)
      (hm : requestHandler serialize (.opened (deleteNode curl node.githubId)) memory m =
        .ok (m', reply)) :
      PassStep serialize curl fails ⟨node :: todo, m⟩ [.del node.githubId] ⟨todo, m'⟩
  | request {todo m m' conn memory r reply} (hr : readRequest conn memory = .ok r)
      (hno : ∀ githubId, r ≠ .deleteUser githubId)
      (hm : requestHandler serialize conn memory m = .ok (m', reply)) :
      PassStep serialize curl fails ⟨todo, m⟩ r.changes ⟨todo, m'⟩

/-- A part of a pass, with the additions and deletions sent in it. -/
inductive PassRun (serialize : List Node → Bytes) (curl : CurlDelete) (fails : Node → Bool) :
    Pass → List (Op Bytes Bytes) → Pass → Prop
  | refl (s : Pass) : PassRun serialize curl fails s [] s
  | tail {s s' s'' trace new} (h : PassRun serialize curl fails s trace s')
      (hs : PassStep serialize curl fails s' new s'') :
      PassRun serialize curl fails s (trace ++ new) s''

/-! ## The trace of a pass -/

/-- What the trace of a pass from `s` to `s'` has to do with the nodes gone through: the deletions
are those of nodes whose check fails, all of them. -/
structure Exterminates (fails : Node → Bool) (s : Pass) (trace : List (Op Bytes Bytes))
    (s' : Pass) : Prop where
  todo : ∀ node ∈ s'.todo, node ∈ s.todo
  failed : ∀ githubId, .del githubId ∈ trace →
    ∃ node ∈ s.todo, fails node = true ∧ node.githubId = githubId
  done : ∀ node ∈ s.todo, fails node = true → node ∈ s'.todo ∨ .del node.githubId ∈ trace

/-- A request that is no deletion sends none. -/
theorem del_notMem_changes {r : Request} (h : ∀ githubId, r ≠ .deleteUser githubId)
    (githubId : Bytes) : .del githubId ∉ r.changes := by
  cases r with
  | getUsers => exact List.not_mem_nil
  | addUser => simp [Request.changes]
  | deleteUser id => exact absurd rfl (h id)
  | bad => exact List.not_mem_nil

theorem PassStep.exterminates {s s' : Pass} {new : List (Op Bytes Bytes)}
    (h : PassStep serialize curl fails s new s') : Exterminates fails s new s' := by
  cases h with
  | @live node todo m hlive =>
    refine ⟨fun n hn => List.mem_cons_of_mem _ hn, fun _ hdel => absurd hdel List.not_mem_nil,
      fun n hn hfails => ?_⟩
    rcases List.mem_cons.1 hn with rfl | hn
    · rw [hlive] at hfails
      cases hfails
    · exact .inl hn
  | @exterminate node todo m m' memory reply hfails hm =>
    refine ⟨fun n hn => List.mem_cons_of_mem _ hn, fun id hdel => ?_, fun n hn _ => ?_⟩
    · cases List.mem_singleton.1 hdel
      exact ⟨node, List.mem_cons_self, hfails, rfl⟩
    · rcases List.mem_cons.1 hn with rfl | hn
      · exact .inr (List.mem_singleton_self _)
      · exact .inl hn
  | request hr hno hm =>
    exact ⟨fun _ hn => hn, fun id hdel => absurd hdel (del_notMem_changes hno id),
      fun _ hn _ => .inl hn⟩

theorem Exterminates.trans {s s' s'' : Pass} {trace new : List (Op Bytes Bytes)}
    (h : Exterminates fails s trace s') (h' : Exterminates fails s' new s'') :
    Exterminates fails s (trace ++ new) s'' := by
  refine ⟨fun n hn => h.todo n (h'.todo n hn), fun id hdel => ?_, fun n hn hfails => ?_⟩
  · rcases List.mem_append.1 hdel with hdel | hdel
    · exact h.failed id hdel
    · obtain ⟨node, hnode, hfails, hid⟩ := h'.failed id hdel
      exact ⟨node, h.todo node hnode, hfails, hid⟩
  · rw [List.mem_append]
    rcases h.done n hn hfails with hn | hdel
    · rcases h'.done n hn hfails with hn | hdel
      · exact .inl hn
      · exact .inr (.inr hdel)
    · exact .inr (.inl hdel)

theorem PassRun.exterminates {s s' : Pass} {trace : List (Op Bytes Bytes)}
    (h : PassRun serialize curl fails s trace s') : Exterminates fails s trace s' := by
  induction h with
  | refl =>
    exact ⟨fun _ hn => hn, fun _ hdel => absurd hdel List.not_mem_nil, fun _ hn _ => .inl hn⟩
  | tail _ hs ih => exact ih.trans hs.exterminates

/-! ## The directory during a pass -/

theorem Reaches.mono {ok ok' : NodeManage → Request → Prop} (hok : ∀ m r, ok m r → ok' m r)
    {m : NodeManage} {ops : List (Op Bytes Bytes)} (h : Reaches serialize ok m ops) :
    Reaches serialize ok' m ops := by
  induction h with
  | start => exact .start
  | serve _ hr hr' hm ih => exact .serve ih hr (hok _ _ hr') hm

/-- A step changes the directory as the requests sent say. Deletions of ids that follow the grammar
are understood. -/
theorem reaches_of_passStep (hcurl : curl.Deletes) {s s' : Pass} {ops new : List (Op Bytes Bytes)}
    (hids : ∀ node ∈ s.todo, githubIdRegex.fullMatch node.githubId)
    (h : Reaches serialize (fun _ _ => True) s.m ops)
    (hs : PassStep serialize curl fails s new s') :
    Reaches serialize (fun _ _ => True) s'.m (ops ++ new) := by
  cases hs with
  | live => rwa [List.append_nil]
  | exterminate hfails hm =>
    exact h.serve (readRequest_deleteNode hcurl (hids _ List.mem_cons_self) _) trivial hm
  | request hr hno hm => exact h.serve hr trivial hm

/-- **The directory during a pass** is what the additions and deletions sent make of it. -/
theorem reaches_of_passRun (hcurl : curl.Deletes) {s s' : Pass} {ops trace : List (Op Bytes Bytes)}
    (hids : ∀ node ∈ s.todo, githubIdRegex.fullMatch node.githubId)
    (h : Reaches serialize (fun _ _ => True) s.m ops)
    (hrun : PassRun serialize curl fails s trace s') :
    Reaches serialize (fun _ _ => True) s'.m (ops ++ trace) := by
  induction hrun with
  | refl => rwa [List.append_nil]
  | tail hrun hs ih =>
    rw [← List.append_assoc]
    refine reaches_of_passStep hcurl (fun node hnode => hids node ?_) ih hs
    exact hrun.exterminates.todo node hnode

section Exact

variable {parseFromString : Bytes → Bool × List Node} {ok : NodeManage → Request → Prop}
  {m₀ : NodeManage} {ops trace : List (Op Bytes Bytes)} {s : Pass}

theorem snapshot_eq (hparse : ∀ nodes, parseFromString (serialize nodes) = (true, nodes))
    (m : NodeManage) : m.snapshot serialize parseFromString = m.nodeList := by
  rw [snapshot, getBinary, hparse]

/-- An entry is in the directory during a pass when the trace so far says so. -/
theorem mem_nodeList_of_passRun (hcurl : curl.Deletes) (h : Reaches serialize ok m₀ ops)
    (hrun : PassRun serialize curl fails ⟨m₀.nodeList, m₀⟩ trace s) (githubId ipAddr : Bytes) :
    ⟨githubId, ipAddr⟩ ∈ s.m.nodeList ↔ current (ops ++ trace) githubId = some ipAddr := by
  have hids : ∀ node ∈ m₀.nodeList, githubIdRegex.fullMatch node.githubId :=
    fun node hnode => (checked_of_reaches h hnode).1
  exact mem_nodeList_iff (reaches_of_passRun hcurl hids (h.mono fun _ _ _ => trivial) hrun)

/-- A node whose check succeeds shares its id with none whose check fails. -/
theorem del_notMem_of_live (h : Reaches serialize ok m₀ ops)
    (hrun : PassRun serialize curl fails ⟨m₀.nodeList, m₀⟩ trace s) {node : Node}
    (hnode : node ∈ m₀.nodeList) (hlive : fails node = false) : .del node.githubId ∉ trace := by
  intro hdel
  obtain ⟨node', hnode', hfails, hid⟩ := hrun.exterminates.failed _ hdel
  obtain rfl := List.inj_on_of_nodup_map (nodup_ids_of_reaches h) hnode' hnode hid
  rw [hlive] at hfails
  cases hfails

/-- **A pass removes exactly the dead.** At every moment of the pass the nodes whose check succeeds
are in the directory with their addresses; an id deleted is gone, and present later only through an
addition after that; at the end of the pass every id whose check failed has been deleted; and an id
newly added that is none of these stays, with the address it came with. -/
theorem pass_exact (hparse : ∀ nodes, parseFromString (serialize nodes) = (true, nodes))
    (hcurl : curl.Deletes) (h : Reaches serialize ok m₀ ops)
    (hrun : PassRun serialize curl fails ⟨m₀.snapshot serialize parseFromString, m₀⟩ trace s) :
    (∀ node ∈ m₀.snapshot serialize parseFromString, fails node = false →
      ∀ ipAddr, ⟨node.githubId, ipAddr⟩ ∈ s.m.nodeList ↔ ipAddr = node.ipAddr) ∧
    (∀ before githubId after, trace = before ++ .del githubId :: after →
      (after = [] → githubId ∉ s.m.ids) ∧
      ∀ ipAddr, ⟨githubId, ipAddr⟩ ∈ s.m.nodeList → .add githubId ipAddr ∈ after) ∧
    (s.todo = [] → ∀ node ∈ m₀.snapshot serialize parseFromString, fails node = true →
      .del node.githubId ∈ trace) ∧
    ∀ before s₁ githubId ipAddr after,
      PassRun serialize curl fails ⟨m₀.snapshot serialize parseFromString, m₀⟩ before s₁ →
      githubId ∉ s₁.m.ids → trace = before ++ .add githubId ipAddr :: after →
      (∀ node ∈ m₀.snapshot serialize parseFromString, fails node = true →
        node.githubId ≠ githubId) →
      ⟨githubId, ipAddr⟩ ∈ s.m.nodeList := by
  rw [snapshot_eq hparse] at hrun ⊢
  have hmem := mem_nodeList_of_passRun hcurl h hrun
  refine ⟨fun node hnode hlive ipAddr => ?_, fun before githubId after htrace => ?_,
    fun hdone node hnode hfails => ?_,
    fun before s₁ githubId ipAddr after hrun₁ hnew htrace hother => ?_⟩
  · have hcurrent := (mem_nodeList_iff h).1 hnode
    have hkept := OrderedMap.current_append hcurrent (del_notMem_of_live h hrun hnode hlive)
    rw [hmem, hkept, Option.some_inj, eq_comm]
  · have hadd : ∀ ipAddr, ⟨githubId, ipAddr⟩ ∈ s.m.nodeList → .add githubId ipAddr ∈ after := by
      intro ipAddr hin
      rw [hmem, htrace, ← List.append_assoc] at hin
      exact OrderedMap.add_mem_of_current hin
    refine ⟨?_, hadd⟩
    rintro rfl hid
    obtain ⟨node, hnode, rfl⟩ := List.mem_map.1 hid
    exact absurd (hadd node.ipAddr hnode) List.not_mem_nil
  · have hleft := hrun.exterminates.done node hnode hfails
    rw [hdone] at hleft
    exact hleft.resolve_left List.not_mem_nil
  · have hnone : current (ops ++ before) githubId = none := by
      rw [Option.eq_none_iff_forall_ne_some]
      intro ip hip
      have hin := (mem_nodeList_of_passRun hcurl h hrun₁ githubId ip).2 hip
      exact hnew (List.mem_map.2 ⟨_, hin, rfl⟩)
    have hdel : .del githubId ∉ after := by
      intro hdel
      obtain ⟨node, hnode, hfails, hid⟩ := hrun.exterminates.failed githubId
        (htrace ▸ List.mem_append_right _ (List.mem_cons_of_mem _ hdel))
      exact hother node hnode hfails hid
    rw [hmem, htrace, ← List.append_assoc]
    exact OrderedMap.current_append_add hnone hdel

end Exact

/-! ## A pass over two nodes -/

/-- The directory of `a` and `b`. -/
def examplePair : NodeManage :=
  ⟨[⟨ascii "a", ascii "10.0.0.1"⟩, ⟨ascii "b", ascii "10.0.0.2"⟩]⟩

theorem reaches_examplePair : ∃ ops,
    Reaches NodeList.serialize (fun _ _ => True) examplePair ops := by
  have hadd : readRequest (.opened (addNode exampleCurl (ascii "b") (ascii "10.0.0.2"))) [] =
      .ok (.addUser (ascii "b") (ascii "10.0.0.2")) :=
    readRequest_exampleAdd (by decide) (by decide)
  have hone : Reaches NodeList.serialize (fun _ _ => True) ⟨[⟨ascii "a", ascii "10.0.0.1"⟩]⟩
      [.add (ascii "a") (ascii "10.0.0.1")] :=
    Reaches.example_add _ _ (by decide) (by decide) trivial
  exact ⟨_, hone.concat hadd trivial⟩

/-- The check of `b` fails. -/
def exampleFails (node : Node) : Bool := node.githubId = ascii "b"

/-- The pass over `a` and `b`, in which `c` registers before `b` is deleted. -/
theorem exists_examplePass : ∃ s,
    PassRun NodeList.serialize exampleCurlDelete exampleFails
      ⟨examplePair.snapshot NodeList.serialize NodeList.parse, examplePair⟩
      [.add (ascii "c") (ascii "10.0.0.3"), .del (ascii "b")] s ∧ s.todo = [] := by
  have hadd : readRequest (.opened (addNode exampleCurl (ascii "c") (ascii "10.0.0.3"))) [] =
      .ok (.addUser (ascii "c") (ascii "10.0.0.3")) :=
    readRequest_exampleAdd (by decide) (by decide)
  have hdel := readRequest_deleteNode deletes_exampleCurlDelete
    (show githubIdRegex.fullMatch (ascii "b") by decide) []
  have hlive : PassRun NodeList.serialize exampleCurlDelete exampleFails
      ⟨examplePair.nodeList, examplePair⟩ ([] ++ [])
      ⟨[⟨ascii "b", ascii "10.0.0.2"⟩], examplePair⟩ := (PassRun.refl _).tail (.live (by decide))
  obtain ⟨reply, hm⟩ := exists_requestHandler hadd examplePair
  have hadded := hlive.tail (.request hadd (by simp) hm)
  obtain ⟨reply', hm'⟩ := exists_requestHandler hdel _
  rw [snapshot_eq NodeList.parse_serialize]
  exact ⟨_, hadded.tail (.exterminate (by decide) hm'), rfl⟩

/-- At the end of this pass the directory has `a` and `c`, and not `b`. -/
theorem pass_exact_example : ∃ s,
    PassRun NodeList.serialize exampleCurlDelete exampleFails
      ⟨examplePair.snapshot NodeList.serialize NodeList.parse, examplePair⟩
      [.add (ascii "c") (ascii "10.0.0.3"), .del (ascii "b")] s ∧
    ⟨ascii "a", ascii "10.0.0.1"⟩ ∈ s.m.nodeList ∧ ascii "b" ∉ s.m.ids ∧
      ⟨ascii "c", ascii "10.0.0.3"⟩ ∈ s.m.nodeList := by
  obtain ⟨ops, hreach⟩ := reaches_examplePair
  obtain ⟨s, hrun, -⟩ := exists_examplePass
  obtain ⟨hlive, hdead, -, hnew⟩ :=
    pass_exact NodeList.parse_serialize deletes_exampleCurlDelete hreach hrun
  rw [snapshot_eq NodeList.parse_serialize] at hlive hnew
  refine ⟨s, hrun, ?_, ?_, ?_⟩
  · exact (hlive ⟨ascii "a", ascii "10.0.0.1"⟩ (by decide) (by decide) _).2 rfl
  · exact (hdead [_] _ [] rfl).1 rfl
  · exact hnew [] _ _ _ _ (.refl _) (by decide) rfl (by decide)

end NodeManage

end Onion5
