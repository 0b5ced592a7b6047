import Onion5.Foundations.Wire

/-!
# Nodes and lists of nodes

The messages of `node.proto`, and their protobuf encoding.

Protobuf itself is not part of the repository: the model takes its serialization and its parser as
parameters, and results say what they need of them. `NodeList.serialize` and `NodeList.parse` are
a pair to put in their place in examples. They follow the wire format, except that the parser
knows length-delimited fields only.
-/

namespace Onion5

open Wire

/-- `Onion5::Node`. -/
structure Node where
  githubId : Bytes
  ipAddr : Bytes
  deriving DecidableEq

/-- The fields of a node as records. -/
def Node.serialize (node : Node) : Bytes :=
  writeRecords [(0x0A, node.githubId), (0x12, node.ipAddr)]

/-- The last value of a field. -/
def lastValue (tag : UInt8) (records : List (UInt8 × Bytes)) : Option Bytes :=
  (records.filter (·.1 = tag)).getLast?.map Prod.snd

/-- Whether a node is well formed and has its required fields, and what is left of it. -/
def Node.parse (b : Bytes) : Bool × Node :=
  let r := readRecords b
  let githubId := lastValue 0x0A r.1
  let ipAddr := lastValue 0x12 r.1
  (r.2 && githubId.isSome && ipAddr.isSome, ⟨githubId.getD [], ipAddr.getD []⟩)

theorem Node.parse_serialize (node : Node) : Node.parse node.serialize = (true, node) := by
  obtain ⟨id, ip⟩ := node
  simp [Node.parse, Node.serialize, readRecords_writeRecords, lastValue]

/-- `SerializeToOstream` of a `NodeList`. -/
def NodeList.serialize (nodes : List Node) : Bytes :=
  writeRecords (nodes.map fun node => (0x0A, node.serialize))

/-- `ParseFromString` of a `NodeList`: the result, and the nodes of the message afterwards. -/
def NodeList.parse (b : Bytes) : Bool × List Node :=
  let r := readRecords b
  let nodes := (r.1.filter (·.1 = 0x0A)).map fun r => Node.parse r.2
  (r.2 && nodes.all Prod.fst, nodes.map Prod.snd)

theorem NodeList.parse_eq {b : Bytes} {nodes : List Node} {ok : Bool}
    (h : readRecords b = (nodes.map fun node => (0x0A, node.serialize), ok)) :
    NodeList.parse b = (ok, nodes) := by
  have hfilter : (nodes.map fun node => ((0x0A : UInt8), node.serialize)).filter (·.1 = 0x0A) =
      nodes.map fun node => (0x0A, node.serialize) :=
    List.filter_eq_self.2 (by simp)
  simp only [NodeList.parse, h, hfilter, List.map_map]
  simp [Function.comp_def, Node.parse_serialize]

/-- **Parsing inverts serialization.** -/
theorem NodeList.parse_serialize (nodes : List Node) :
    NodeList.parse (NodeList.serialize nodes) = (true, nodes) :=
  NodeList.parse_eq (readRecords_writeRecords _)

theorem NodeList.serialize_append (nodes nodes' : List Node) :
    NodeList.serialize (nodes ++ nodes') =
      NodeList.serialize nodes ++ NodeList.serialize nodes' := by
  simp only [NodeList.serialize, writeRecords, List.map_append, List.flatMap_append]

theorem Node.length_serialize {node : Node} (hid : node.githubId.length < 128)
    (hip : node.ipAddr.length < 128) :
    node.serialize.length = node.githubId.length + node.ipAddr.length + 4 := by
  simp only [Node.serialize, writeRecords, List.flatMap_cons, List.flatMap_nil, List.append_nil,
    List.length_append, length_writeRecord_of_lt _ hid, length_writeRecord_of_lt _ hip]
  omega

/-- The size of a list of short nodes. -/
theorem NodeList.length_serialize_cons {node : Node}
    (h : node.githubId.length + node.ipAddr.length + 4 < 128) (nodes : List Node) :
    (NodeList.serialize (node :: nodes)).length =
      node.githubId.length + node.ipAddr.length + 6 + (NodeList.serialize nodes).length := by
  have hnode := Node.length_serialize (show node.githubId.length < 128 by omega) (by omega)
  have hrec := length_writeRecord_of_lt 0x0A (show node.serialize.length < 128 by omega)
  simp only [NodeList.serialize, writeRecords, List.map_cons, List.flatMap_cons,
    List.length_append, hrec, hnode]

/-- Nodes of one size. -/
theorem NodeList.length_serialize_of_forall {nodes : List Node} {k : ℕ} (hk : k < 130)
    (h : ∀ node ∈ nodes, node.githubId.length + node.ipAddr.length + 6 = k) :
    (NodeList.serialize nodes).length = k * nodes.length := by
  induction nodes with
  | nil => rfl
  | cons node nodes ih =>
    have hnode := h node List.mem_cons_self
    rw [NodeList.length_serialize_cons (by omega),
      ih fun n hn => h n (List.mem_cons_of_mem _ hn), hnode, List.length_cons]
    ring

/-- A byte with which no record starts: the parser fails, and leaves the nodes before it. -/
theorem NodeList.parse_invalid (nodes : List Node) :
    NodeList.parse (NodeList.serialize nodes ++ [0xFF]) = (false, nodes) := by
  refine NodeList.parse_eq ?_
  rw [NodeList.serialize, readRecords_writeRecords_append]
  simp [readRecords, readRecord, readVarint]

end Onion5
