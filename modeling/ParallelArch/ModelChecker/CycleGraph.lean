import ParallelArch.Concurrency.Machine
import ParallelArch.Graphs.Search
import ParallelArch.ModelChecker.HashTable

/-!
# The cycle graph of the model checker

`CycleGraph` collects the constraints on the modification order: an edge for each pair of
stores known to be ordered, and for a store read by an RMW the RMW, which must come immediately
after it.  Nodes are pointers; `NULL` is `0`, and the nodes allocated so far have the addresses
`1` to `size`.  `hasCycles` is set when the constraints are found to be contradictory.  The
changes since the last commit can be rolled back.
-/

/-- What a node stands for, by its address. -/
inductive Object where
  | action (act : ℕ)
  | promise (promise : ℕ)
deriving DecidableEq

/-- A node: an action or a promise, with its edges and the RMW that reads from it. -/
structure CycleNode where
  object : Object
  edges : List ℕ
  backEdges : List ℕ
  hasRMW : Option ℕ

/-- The heap of nodes. -/
abbrev Nodes := ℕ → CycleNode

namespace Nodes

/-- The node at an address, changed by `f`. -/
def modify (nodes : Nodes) (this : ℕ) (f : CycleNode → CycleNode) : Nodes :=
  Function.update nodes this (f (nodes this))

/-- An edge and its back edge are pushed. -/
def link (nodes : Nodes) (this node : ℕ) : Nodes :=
  let nodes := nodes.modify this fun n => { n with edges := n.edges ++ [node] }
  nodes.modify node fun n => { n with backEdges := n.backEdges ++ [this] }

/-- `CycleNode::addEdge`; whether the edge is new. -/
def addEdge (nodes : Nodes) (this node : ℕ) : Bool × Nodes :=
  if node ∈ (nodes this).edges then (false, nodes) else (true, nodes.link this node)

/-- `CycleNode::removeEdge`: the edge added last goes, with its back edge. -/
def removeEdge (nodes : Nodes) (this : ℕ) : Nodes :=
  match (nodes this).edges.getLast? with
  | none => nodes
  | some ret =>
      let nodes := nodes.modify this fun n => { n with edges := n.edges.dropLast }
      nodes.modify ret fun n => { n with backEdges := n.backEdges.erase this }

/-- `CycleNode::setRMW`; whether there was an RMW already. -/
def setRMW (nodes : Nodes) (this node : ℕ) : Bool × Nodes :=
  match (nodes this).hasRMW with
  | some _ => (true, nodes)
  | none => (false, nodes.modify this fun n => { n with hasRMW := some node })

/-- `clearRMW`. -/
def clearRMW (nodes : Nodes) (this : ℕ) : Nodes :=
  nodes.modify this fun n => { n with hasRMW := none }

/-- The loop along the RMWs from `rmwnode` on, until it meets `tonode` or the last. -/
def rmwEnd (nodes : Nodes) (tonode : ℕ) : ℕ → ℕ → Option ℕ
  | 0, _ => none
  | fuel + 1, rmwnode =>
      if rmwnode = tonode then some rmwnode
      else
        match (nodes rmwnode).hasRMW with
        | none => some rmwnode
        | some next => rmwEnd nodes tonode fuel next

end Nodes

/-- The graph, with the changes since the last commit. -/
structure CycleGraph where
  nodes : Nodes
  size : ℕ
  discovered : HashTable ℕ
  actionToNode : HashTable ℕ
  promiseToNode : HashTable ℕ
  hasCycles : Bool
  oldCycles : Bool
  rollbackvector : List ℕ
  rmwrollbackvector : List ℕ

namespace CycleGraph

/-- `_Shift` of the tables. -/
def shift : ℕ := 4

/-- `CycleGraph()`. -/
def new : CycleGraph where
  nodes _ := ⟨.action 0, [], [], none⟩
  size := 0
  discovered := HashTable.new 16
  actionToNode := HashTable.new 1024
  promiseToNode := HashTable.new 1024
  hasCycles := false
  oldCycles := false
  rollbackvector := []
  rmwrollbackvector := []

/-! ### Nodes of objects -/

/-- `getNode_noCreate`. -/
def getNodeNoCreate (g : CycleGraph) : Object → Option ℕ
  | .action act => g.actionToNode.get shift act
  | .promise promise => g.promiseToNode.get shift promise

/-- `putNode`. -/
def putNode (g : CycleGraph) (node : ℕ) : Object → Option CycleGraph
  | .action act =>
      (g.actionToNode.put shift act node).map fun actionToNode => { g with actionToNode }
  | .promise promise =>
      (g.promiseToNode.put shift promise node).map fun promiseToNode => { g with promiseToNode }

/-- `new CycleNode(object)`. -/
def newNode (g : CycleGraph) (object : Object) : CycleGraph :=
  { g with nodes := Function.update g.nodes (g.size + 1) ⟨object, [], [], none⟩,
           size := g.size + 1 }

/-- `getNode`: the node of an object, made if there is none. -/
def getNode (g : CycleGraph) (object : Object) : Option (ℕ × CycleGraph) :=
  (g.getNodeNoCreate object).bind fun node =>
    if node = 0 then
      ((g.newNode object).putNode (g.size + 1) object).map fun g => (g.size, g)
    else some (node, g)

/-! ### Reachability -/

/-- One turn of the inner loop of `checkReachable`. -/
def discover (r : HashTable ℕ × List ℕ) (next : ℕ) : Option (HashTable ℕ × List ℕ) :=
  (r.1.contains shift next).bind fun seen =>
    if seen then some r
    else (r.1.put shift next next).map fun discovered => (discovered, next :: r.2)

/-- The outer loop of `checkReachable`; `queue` is a stack, its top first. -/
def explore (nodes : Nodes) (tonode : ℕ) : ℕ → HashTable ℕ → List ℕ → Option (Bool × HashTable ℕ)
  | 0, _, _ => none
  | _ + 1, discovered, [] => some (false, discovered)
  | fuel + 1, discovered, node :: queue =>
      if node = tonode then some (true, discovered)
      else
        ((nodes node).edges.foldlM discover (discovered, queue)).bind fun r =>
          explore nodes tonode fuel r.1 r.2

/-- `checkReachable` between nodes. -/
def reaches (g : CycleGraph) (fromnode tonode : ℕ) : Option (Bool × CycleGraph) :=
  (g.discovered.reset.put shift fromnode fromnode).bind fun discovered =>
    (explore g.nodes tonode (g.size + 1) discovered [fromnode]).map fun r =>
      (r.1, { g with discovered := r.2 })

/-- `checkReachable` between objects. -/
def checkReachable (g : CycleGraph) (source target : Object) : Option (Bool × CycleGraph) :=
  (g.getNodeNoCreate source).bind fun fromnode =>
    (g.getNodeNoCreate target).bind fun tonode =>
      if fromnode = 0 ∨ tonode = 0 then some (false, g) else g.reaches fromnode tonode

/-! ### Changes -/

/-- `if (!hasCycles) hasCycles = checkReachable(fromnode, tonode)`. -/
def recheck (g : CycleGraph) (fromnode tonode : ℕ) : Option CycleGraph :=
  if g.hasCycles then some g
  else (g.reaches fromnode tonode).map fun r => { r.2 with hasCycles := r.1 }

/-- The edge from the last RMW behind `fromnode`, if there is one. -/
def addNodeEdgeRMW (g : CycleGraph) (fromnode tonode : ℕ) : Option CycleGraph :=
  match (g.nodes fromnode).hasRMW with
  | none => some g
  | some rmwnode =>
      (g.nodes.rmwEnd tonode (g.size + 1) rmwnode).bind fun rmwnode =>
        if rmwnode = tonode then some g
        else
          match g.nodes.addEdge rmwnode tonode with
          | (false, _) => some g
          | (true, nodes) =>
              (recheck { g with nodes } tonode rmwnode).map fun g =>
                { g with rollbackvector := g.rollbackvector ++ [rmwnode] }

/-- Whether the edge is new, and the graph with it. -/
def addNodeEdge (g : CycleGraph) (fromnode tonode : ℕ) : Option (Bool × CycleGraph) :=
  match g.nodes.addEdge fromnode tonode with
  | (false, _) => some (false, g)
  | (true, nodes) =>
      (recheck { g with nodes, rollbackvector := g.rollbackvector ++ [fromnode] }
          tonode fromnode).bind fun g =>
        (g.addNodeEdgeRMW fromnode tonode).map fun g => (true, g)

/-- `addEdge`; whether an edge was added. -/
def addEdge (g : CycleGraph) (source target : Object) : Option (Bool × CycleGraph) :=
  (g.getNode source).bind fun ⟨fromnode, g⟩ =>
    (g.getNode target).bind fun ⟨tonode, g⟩ => g.addNodeEdge fromnode tonode

/-- One turn of the loop that gives the edges of the store to its RMW. -/
def transfer (rmwnode : ℕ) (g : CycleGraph) (tonode : ℕ) : CycleGraph :=
  if tonode = rmwnode then g
  else
    match g.nodes.addEdge rmwnode tonode with
    | (false, _) => g
    | (true, nodes) => { g with nodes, rollbackvector := g.rollbackvector ++ [rmwnode] }

/-- `addRMWEdge` between nodes, after `ASSERT(!rmwnode->getRMW())`. -/
def addNodeRMW (g : CycleGraph) (fromnode rmwnode : ℕ) : Option CycleGraph :=
  let g :=
    match g.nodes.setRMW fromnode rmwnode with
    | (true, _) => { g with hasCycles := true }
    | (false, nodes) => { g with nodes, rmwrollbackvector := g.rmwrollbackvector ++ [fromnode] }
  (((g.nodes fromnode).edges.foldl (transfer rmwnode) g).addNodeEdge fromnode rmwnode).map
    Prod.snd

/-- `addRMWEdge`; `none` if an assertion fails. -/
def addRMWEdge (g : CycleGraph) (source : Object) (rmw : ℕ) : Option CycleGraph :=
  (g.getNode source).bind fun ⟨fromnode, g⟩ =>
    (g.getNode (.action rmw)).bind fun ⟨rmwnode, g⟩ =>
      if (g.nodes rmwnode).hasRMW = none then g.addNodeRMW fromnode rmwnode else none

/-- The assertions of `startChanges`. -/
def startChanges (g : CycleGraph) : Option CycleGraph :=
  if g.rollbackvector = [] ∧ g.rmwrollbackvector = [] ∧ g.oldCycles = g.hasCycles then some g
  else none

/-- `commitChanges`. -/
def commitChanges (g : CycleGraph) : CycleGraph :=
  { g with rollbackvector := [], rmwrollbackvector := [], oldCycles := g.hasCycles }

/-- `rollbackChanges`. -/
def rollbackChanges (g : CycleGraph) : CycleGraph :=
  { g with nodes := g.rmwrollbackvector.foldl Nodes.clearRMW
             (g.rollbackvector.foldl Nodes.removeEdge g.nodes),
           hasCycles := g.oldCycles, rollbackvector := [], rmwrollbackvector := [] }

/-- `checkForCycles`. -/
def checkForCycles (g : CycleGraph) : Bool := g.hasCycles

/-- The calls that change the graph. -/
inductive Op where
  | addEdge (source target : Object)
  | addRMWEdge (source : Object) (rmw : ℕ)
  | startChanges
  | commitChanges
  | rollbackChanges
deriving DecidableEq

/-- A call; `none` if it fails an assertion or does not return. -/
def apply (g : CycleGraph) : Op → Option CycleGraph
  | .addEdge source target => (g.addEdge source target).map Prod.snd
  | .addRMWEdge source rmw => g.addRMWEdge source rmw
  | .startChanges => g.startChanges
  | .commitChanges => some g.commitChanges
  | .rollbackChanges => some g.rollbackChanges

/-- The graph as a machine that records the calls. -/
def machine : Machine CycleGraph Op Op where
  Initial g := g = new
  next g op := (g.apply op).map fun g => (g, [op])

end CycleGraph
