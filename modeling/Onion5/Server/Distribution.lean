import Onion5.Server.BroadcastServer
import Onion5.Client.Directory

/-!
# From the directory to the clients

The list that the REST server keeps reaches a client through four encodings: protobuf, the markers
of a LIST message, the frame of `TCP_Client::send` and the segments of the network.

* `distributes_iff`: every directory reached arrives exactly, whatever the client had before and
  however the network cuts the frame, as long as the message is shorter than `2 ^ 31` bytes.
* `reaches_range`: directories of every size can be reached, so `exists_not_distributes`.
-/

namespace Onion5

/-! ## The map of a list -/

/-- No entry of a list with distinct ids is lost. -/
theorem size_insertNodes {nodes : List Node} (hnd : (nodes.map Node.githubId).Nodup) :
    (insertNodes nodes).size = nodes.length := by
  induction nodes using List.reverseRec with
  | nil => rfl
  | append_singleton nodes node ih =>
    rw [List.map_append, List.nodup_append] at hnd
    have hnew : node.githubId ∉ insertNodes nodes := by
      rw [mem_insertNodes]
      rintro ⟨n, hn, hid⟩
      exact hnd.2.2 _ (List.mem_map.2 ⟨n, hn, rfl⟩) _ (List.mem_singleton_self _) hid
    have hfold : insertNodes (nodes ++ [node]) =
        (insertNodes nodes).insertIfNew node.githubId node.ipAddr := by
      simp [insertNodes]
    rw [hfold, Std.ExtTreeMap.size_insertIfNew, if_neg hnew, ih hnd.1, List.length_append]
    rfl

/-! ## The way of a list -/

/-- The frame that `send_list` makes of what the server answers leaves every client with exactly the
entries of the directory. -/
def Distributes (serialize : List Node → Bytes) (env : Env) (m : NodeManage) : Prop :=
  ∃ frame, sendList (m.getBinary serialize) = .ok (some frame) ∧
    ∀ (msgr : Messanger) (fs : Files) (d : ListenDraws) (segs : List Bytes),
      segs.flatten = frame.drop 9 →
      ∃ s, listeLoop env d msgr fs (scriptOf frame segs) = .ok s ∧
        s.msgr.nodeList.size = m.nodeList.length ∧
        ∀ id ip, s.msgr.nodeList[id]? = some ip ↔ ⟨id, ip⟩ ∈ m.nodeList

theorem sendList_eq {content : Bytes} (hne : content ≠ []) (hlen : content.length + 4 < 2 ^ 31) :
    sendList content = .ok (some ([0] ++ be 8 (LIST_PREFIX ++ content ++ LIST_POSTFIX).length ++
      (LIST_PREFIX ++ content ++ LIST_POSTFIX))) := by
  rw [sendList, if_neg hne, send_eq (by rwa [length_list])]
  rfl

theorem sendList_overflow {content : Bytes} (hne : content ≠ [])
    (hlen : 2 ^ 31 ≤ content.length + 4) : sendList content = .error .undefined := by
  rw [sendList, if_neg hne, send_overflow (by rwa [length_list])]
  rfl

/-- **A directory reached arrives exactly**, as long as its message is shorter than `2 ^ 31`
bytes. -/
theorem distributes_iff {serialize : List Node → Bytes} {env : Env}
    (hparse : ∀ nodes, env.parseFromString (serialize nodes) = (true, nodes))
    {ok : NodeManage → Request → Prop} {m : NodeManage} {ops : List (OrderedMap.Op Bytes Bytes)}
    (h : NodeManage.Reaches serialize ok m ops) (hne : m.getBinary serialize ≠ []) :
    Distributes serialize env m ↔ (m.getBinary serialize).length + 4 < 2 ^ 31 := by
  constructor
  · rintro ⟨frame, hframe, -⟩
    by_contra hlen
    rw [sendList_overflow hne (not_lt.1 hlen)] at hframe
    cases hframe
  · intro hlen
    refine ⟨_, sendList_eq hne hlen, fun msgr fs d segs hsegs => ?_⟩
    rw [drop_frame] at hsegs
    have hnd := NodeManage.nodup_ids_of_reaches h
    have hnodes : (env.parseFromString (m.getBinary serialize)).2 = m.nodeList := by
      rw [NodeManage.getBinary, hparse]
    refine ⟨_, by rw [scriptOf_eq, length_list, listeLoop_list hlen hsegs], ?_, fun id ip => ?_⟩
    · change (insertNodes _).size = _
      rw [hnodes, size_insertNodes hnd]
    · change (insertNodes _)[id]? = _ ↔ _
      rw [hnodes, getElem?_insertNodes, NodeManage.find?_eq_some_iff hnd]

/-! ## Directories of every size -/

/-- `n` nodes with the address `1.1.1.1` and ids of 29 digits. -/
def rangeNodes (n : ℕ) : List Node :=
  (List.range n).map fun i => ⟨decimal (10 ^ 28 + i), ascii "1.1.1.1"⟩

theorem length_rangeId {i : ℕ} (h : i < 10 ^ 28) : (decimal (10 ^ 28 + i)).length = 29 :=
  length_decimal_eq (by omega) (by omega)

/-- **Directories of every size can be reached**, one registration after the other. -/
theorem reaches_range (serialize : List Node → Bytes) {n : ℕ} (hn : n ≤ 10 ^ 28) :
    ∃ ops, NodeManage.Reaches serialize (fun _ _ => True) ⟨rangeNodes n⟩ ops := by
  induction n with
  | zero => exact ⟨_, .start⟩
  | succ n ih =>
    obtain ⟨ops, hreach⟩ := ih (by omega)
    have hlen := length_rangeId (i := n) (by omega)
    have hid : githubIdRegex.fullMatch (decimal (10 ^ 28 + n)) := githubId_decimal (by omega)
    have hsize : (decimal (10 ^ 28 + n)).length + (ascii "1.1.1.1").length < 2 ^ 30 := by
      rw [hlen]
      decide
    have hread := readRequest_addNode posts_exampleCurl hsize []
    rw [cstr_addNodeForm (notMem_of_githubId hid rfl (by decide)) (by decide),
      readForm_addNodeForm_of_valid hid (by decide) (by decide)] at hread
    have hnew : decimal (10 ^ 28 + n) ∉ NodeManage.ids ⟨rangeNodes n⟩ := by
      simp only [NodeManage.ids, rangeNodes, List.map_map, List.mem_map, List.mem_range,
        Function.comp_apply, not_exists, not_and]
      intro i hi heq
      have := decimal_injective heq
      omega
    have hserve : ((⟨rangeNodes n⟩ : NodeManage).serve serialize
        (.addUser (decimal (10 ^ 28 + n)) (ascii "1.1.1.1"))).1 = ⟨rangeNodes (n + 1)⟩ := by
      rw [NodeManage.serve, NodeManage.addUser, if_pos (NodeManage.findIdx_eq_neg_one_iff.2 hnew),
        rangeNodes, rangeNodes, List.range_succ, List.map_append]
      rfl
    exact ⟨_, hserve ▸ hreach.concat hread trivial⟩

theorem length_serialize_rangeNodes {n : ℕ} (hn : n ≤ 10 ^ 28) :
    (NodeList.serialize (rangeNodes n)).length = 42 * n := by
  have hlen : (rangeNodes n).length = n := by rw [rangeNodes, List.length_map, List.length_range]
  rw [NodeList.length_serialize_of_forall (k := 42) (by decide), hlen]
  intro node hnode
  obtain ⟨i, hi, rfl⟩ := List.mem_map.1 hnode
  rw [length_rangeId ((List.mem_range.1 hi).trans_le hn)]
  rfl

theorem getBinary_rangeNodes_ne_nil {n : ℕ} (hn : n ≤ 10 ^ 28) (hpos : 0 < n) :
    NodeManage.getBinary NodeList.serialize ⟨rangeNodes n⟩ ≠ [] := by
  refine List.ne_nil_of_length_pos ?_
  rw [NodeManage.getBinary, length_serialize_rangeNodes hn]
  omega

/-- Two nodes are distributed. -/
theorem distributes_iff_example :
    Distributes NodeList.serialize exampleEnv ⟨rangeNodes 2⟩ := by
  obtain ⟨ops, hreach⟩ := reaches_range NodeList.serialize (n := 2) (by decide)
  refine (distributes_iff NodeList.parse_serialize hreach
    (getBinary_rangeNodes_ne_nil (by decide) (by decide))).2 ?_
  rw [NodeManage.getBinary, length_serialize_rangeNodes (by decide)]
  decide

theorem not_distributes_rangeNodes {n : ℕ} (hn : n ≤ 10 ^ 28) (hlen : 2 ^ 31 ≤ 42 * n + 4) :
    ¬ Distributes NodeList.serialize exampleEnv ⟨rangeNodes n⟩ := by
  obtain ⟨ops, hreach⟩ := reaches_range NodeList.serialize hn
  rw [distributes_iff NodeList.parse_serialize hreach
    (getBinary_rangeNodes_ne_nil hn (by omega)), NodeManage.getBinary,
    length_serialize_rangeNodes hn]
  omega

/-- A directory of 51130563 nodes, which protobuf can still serialize, is not distributed. -/
theorem exists_not_distributes : ∃ m ops,
    NodeManage.Reaches NodeList.serialize (fun _ _ => True) m ops ∧
      m.getBinary NodeList.serialize ≠ [] ∧ ¬ Distributes NodeList.serialize exampleEnv m := by
  have hn : 51130563 ≤ 10 ^ 28 := by decide
  obtain ⟨ops, hreach⟩ := reaches_range NodeList.serialize hn
  exact ⟨_, ops, hreach, getBinary_rangeNodes_ne_nil hn (by decide),
    not_distributes_rangeNodes hn (by decide)⟩

end Onion5
