import Onion5.Common.Node
import Onion5.Foundations.OrderedMap

/-!
# The directory

The model of `class NodeManage`: a protobuf list of nodes that is searched from its start.

* `findIdx_eq_iff`, `findIdx_eq_neg_one_iff`: what `find_idx` finds.
* `entries_addUser`, `entries_deleteUser`: adding and deleting are those of an insertion-ordered
  map, as long as the ids of the list are distinct.
-/

namespace Onion5

/-- The member of `class NodeManage`. -/
structure NodeManage where
  nodeList : List Node
  deriving DecidableEq

namespace NodeManage

/-- The loop of `find_idx`, from the index `i` on. -/
def findIdxLoop (githubId : Bytes) : ℕ → List Node → ℤ
  | _, [] => -1
  | i, node :: nodes => if node.githubId = githubId then i else findIdxLoop githubId (i + 1) nodes

/-- `NodeManage::find_idx`. -/
def findIdx (m : NodeManage) (githubId : Bytes) : ℤ := findIdxLoop githubId 0 m.nodeList

/-- `NodeManage::add_user`. -/
def addUser (m : NodeManage) (githubId host : Bytes) : NodeManage :=
  if m.findIdx githubId = -1 then ⟨m.nodeList ++ [⟨githubId, host⟩]⟩ else m

/-- `NodeManage::delete_user(int)`. -/
def deleteIdx (m : NodeManage) (idx : ℤ) : NodeManage := ⟨m.nodeList.eraseIdx idx.toNat⟩

/-- `NodeManage::delete_user(std::string)`. -/
def deleteUser (m : NodeManage) (githubId : Bytes) : NodeManage :=
  let idx := m.findIdx githubId
  if idx ≠ -1 then m.deleteIdx idx else m

/-- `NodeManage::get_binary`, for a serialization of lists. -/
def getBinary (serialize : List Node → Bytes) (m : NodeManage) : Bytes := serialize m.nodeList

/-! ## The search -/

def ids (m : NodeManage) : List Bytes := m.nodeList.map Node.githubId

theorem findIdxLoop_of_notMem {githubId : Bytes} {nodes : List Node}
    (h : githubId ∉ nodes.map Node.githubId) (i : ℕ) : findIdxLoop githubId i nodes = -1 := by
  induction nodes generalizing i with
  | nil => rfl
  | cons node nodes ih =>
    rw [List.map_cons, List.mem_cons, not_or] at h
    rw [findIdxLoop, if_neg (Ne.symm h.1), ih h.2]

/-- The loop stops at the first node with the id. -/
theorem findIdxLoop_append {githubId : Bytes} {pre post : List Node} {node : Node}
    (hpre : githubId ∉ pre.map Node.githubId) (hnode : node.githubId = githubId) (i : ℕ) :
    findIdxLoop githubId i (pre ++ node :: post) = i + pre.length := by
  induction pre generalizing i with
  | nil => simp [findIdxLoop, hnode]
  | cons n pre ih =>
    rw [List.map_cons, List.mem_cons, not_or] at hpre
    rw [List.cons_append, findIdxLoop, if_neg (Ne.symm hpre.1), ih hpre.2, List.length_cons]
    push_cast
    ring

theorem exists_first {githubId : Bytes} {nodes : List Node}
    (h : githubId ∈ nodes.map Node.githubId) :
    ∃ pre node post, nodes = pre ++ node :: post ∧ githubId ∉ pre.map Node.githubId ∧
      node.githubId = githubId := by
  obtain ⟨n, hn, hid⟩ := List.mem_map.1 h
  obtain ⟨node, hfind⟩ := Option.isSome_iff_exists.1
    (List.find?_isSome (p := fun n : Node => n.githubId = githubId).2 ⟨n, hn, by simp [hid]⟩)
  obtain ⟨hnode, pre, post, hnodes, hpre⟩ := List.find?_eq_some_iff_append.1 hfind
  refine ⟨pre, node, post, hnodes, fun hmem => ?_, of_decide_eq_true hnode⟩
  obtain ⟨a, ha, hae⟩ := List.mem_map.1 hmem
  simpa [hae] using hpre a ha

variable {m : NodeManage} {githubId : Bytes}

theorem findIdx_eq_neg_one_iff : m.findIdx githubId = -1 ↔ githubId ∉ m.ids := by
  refine ⟨fun h hmem => ?_, fun h => findIdxLoop_of_notMem h 0⟩
  obtain ⟨pre, node, post, hm, hpre, hnode⟩ := exists_first hmem
  rw [findIdx, hm, findIdxLoop_append hpre hnode] at h
  omega

/-- **`find_idx` returns the index of the id**, the only one when the ids are distinct. -/
theorem findIdx_eq_iff (hnd : m.ids.Nodup) {i : ℕ} :
    m.findIdx githubId = i ↔ m.ids[i]? = some githubId := by
  by_cases hmem : githubId ∈ m.ids
  · obtain ⟨pre, node, post, hm, hpre, hnode⟩ := exists_first hmem
    have hidx : m.findIdx githubId = pre.length := by
      rw [findIdx, hm, findIdxLoop_append hpre hnode, Nat.cast_zero, zero_add]
    have hget : m.ids[pre.length]? = some githubId := by
      simp [ids, hm, hnode]
    rw [hidx, Nat.cast_inj]
    constructor
    · rintro rfl
      exact hget
    · intro hi
      exact (List.getElem?_inj (List.getElem?_eq_some_iff.1 hget).1 hnd).1 (hget.trans hi.symm)
  · rw [findIdx_eq_neg_one_iff.2 hmem]
    constructor
    · intro h
      omega
    · intro h
      exact absurd (List.mem_of_getElem? h) hmem

/-! ## The directory as a map -/

/-- The entries of the directory. -/
def entries (m : NodeManage) : List (Bytes × Bytes) :=
  m.nodeList.map fun node => (node.githubId, node.ipAddr)

theorem map_fst_entries (m : NodeManage) : m.entries.map Prod.fst = m.ids := by
  rw [entries, List.map_map]
  rfl

theorem mem_entries {m : NodeManage} {githubId ipAddr : Bytes} :
    (githubId, ipAddr) ∈ m.entries ↔ ⟨githubId, ipAddr⟩ ∈ m.nodeList := by
  rw [entries, List.mem_map]
  constructor
  · rintro ⟨⟨githubId', ipAddr'⟩, hnode, heq⟩
    cases heq
    exact hnode
  · intro hnode
    exact ⟨_, hnode, rfl⟩

/-- With distinct ids, looking an id up finds its node. -/
theorem find?_eq_some_iff (hnd : m.ids.Nodup) {ipAddr : Bytes} :
    (m.nodeList.find? (·.githubId = githubId)).map Node.ipAddr = some ipAddr ↔
      ⟨githubId, ipAddr⟩ ∈ m.nodeList := by
  have hlookup : (m.nodeList.find? (·.githubId = githubId)).map Node.ipAddr =
      OrderedMap.lookup ⟨m.entries, by rwa [map_fst_entries]⟩ githubId := by
    simp [OrderedMap.lookup, entries, List.find?_map, Function.comp_def]
  rw [hlookup, OrderedMap.lookup_eq_some, mem_entries]

/-- Taking out an id that is not there changes nothing. -/
theorem filter_entries {nodes : List Node} (h : githubId ∉ nodes.map Node.githubId) :
    (entries ⟨nodes⟩).filter (·.1 ≠ githubId) = entries ⟨nodes⟩ := by
  refine List.filter_eq_self.2 fun e he => ?_
  obtain ⟨n, hn, rfl⟩ := List.mem_map.1 he
  simpa using fun hid => h (List.mem_map.2 ⟨n, hn, hid⟩)

variable {om : OrderedMap Bytes Bytes}

/-- **`add_user` refines the insertion of an ordered map.** -/
theorem entries_addUser (h : m.entries = om.entries) (githubId host : Bytes) :
    (m.addUser githubId host).entries = (om.insertNew githubId host).entries := by
  have hkeys : om.keys = m.ids := by rw [OrderedMap.keys, ← h, map_fst_entries]
  unfold addUser OrderedMap.insertNew
  by_cases hmem : githubId ∈ m.ids
  · rw [if_neg (mt findIdx_eq_neg_one_iff.1 (not_not.2 hmem)), dif_pos (hkeys ▸ hmem), h]
  · rw [if_pos (findIdx_eq_neg_one_iff.2 hmem), dif_neg (hkeys ▸ hmem)]
    change entries ⟨m.nodeList ++ [⟨githubId, host⟩]⟩ = om.entries ++ [(githubId, host)]
    rw [← h, entries, List.map_append]
    rfl

/-- **`delete_user` refines the deletion of an ordered map**, because the ids are distinct. -/
theorem entries_deleteUser (h : m.entries = om.entries) (githubId : Bytes) :
    (m.deleteUser githubId).entries = (om.erase githubId).entries := by
  have hnd : m.ids.Nodup := by
    rw [← map_fst_entries, h]
    exact om.nodup
  have herase : (om.erase githubId).entries = m.entries.filter (·.1 ≠ githubId) := by
    rw [h, OrderedMap.erase]
  rw [herase]
  unfold deleteUser
  by_cases hmem : githubId ∈ m.ids
  · obtain ⟨pre, node, post, hm, hpre, hnode⟩ := exists_first hmem
    have hidx : m.findIdx githubId = pre.length := by
      rw [findIdx, hm, findIdxLoop_append hpre hnode, Nat.cast_zero, zero_add]
    have hpost : githubId ∉ post.map Node.githubId := by
      rw [ids, hm, List.map_append, List.map_cons, hnode] at hnd
      exact (List.nodup_cons.1 hnd.of_append_right).1
    have hsplit : m.entries = entries ⟨pre⟩ ++ (githubId, node.ipAddr) :: entries ⟨post⟩ := by
      simp [entries, hm, hnode]
    rw [if_pos (by rw [hidx]; omega), hidx, hsplit, List.filter_append, List.filter_cons_of_neg
      (by simp), filter_entries hpre, filter_entries hpost]
    simp [deleteIdx, entries, hm, List.eraseIdx_append_of_length_le]
  · rw [if_neg (not_not.2 (findIdx_eq_neg_one_iff.2 hmem))]
    exact (filter_entries hmem).symm

end NodeManage

end Onion5
