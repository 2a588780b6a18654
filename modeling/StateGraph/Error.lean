-- What can go wrong, told by its cause. The words for each cause are said
-- once, in `Error.message`.
import StateGraph.NodeId

namespace StateGraph

/-- A record that a graph can lack. -/
inductive Item where
  | node (id : NodeId)
  | edge (source target : NodeId)
  | split (source : NodeId)
  | cover (source target : NodeId)
  deriving DecidableEq

/-- A change that would break the shape of a graph. -/
inductive Conflict where
  /-- A node that splits takes no edge. -/
  | edgeOutOfSplit (source target : NodeId)
  /-- A node that splits takes no cover. -/
  | coverOutOfSplit (source target : NodeId)
  | edgeExists (source target : NodeId)
  | coverExists (source target : NodeId)
  | splitExists (source : NodeId)
  /-- A node with an edge or a cover out of it takes no split. -/
  | splitBesideEdge (source : NodeId)
  | splitOntoItself (source : NodeId)
  /-- The target belongs to the split of the owner. -/
  | targetTaken (target owner : NodeId)
  /-- A target leads back to the source through splits. -/
  | splitClosesCycle (source : NodeId)
  | splitsCyclic
  /-- The next name of a snapshot is zero or above `maxNodeId`. -/
  | nextOutOfRange (next : NodeId)
  /-- A node of a snapshot bears a name that was never given out. -/
  | nodeOutOfRange (id next : NodeId)
  | nodeTwice (id : NodeId)
  /-- A conflict in the words of whoever found it. -/
  | other (message : String)
  deriving DecidableEq

inductive EdgeFault where
  | noSteps (source target : NodeId)
  | other (message : String)
  deriving DecidableEq

inductive SplitFault where
  | noBranches (source : NodeId)
  | targetTwice (source : NodeId)
  | other (message : String)
  deriving DecidableEq

/-- Why an operation failed. -/
inductive Error where
  /-- The operation is about a record that is not there. -/
  | notFound (item : Item)
  /-- A new record names a node that is not there. -/
  | invalidReference (context : String) (id : NodeId)
  | structuralConflict (conflict : Conflict)
  | invalidEdge (fault : EdgeFault)
  | invalidSplit (fault : SplitFault)
  /-- The oracle gave up, and said why. -/
  | oracle (message : String)
  /-- A text is no snapshot. -/
  | serialization (message : String)
  deriving DecidableEq

/-! ## Wording -/

def Item.describe : Item → String
  | .node id => s!"node {id}"
  | .edge source target => s!"edge {source} -> {target}"
  | .split source => s!"split from {source}"
  | .cover source target => s!"cover {source} -> {target}"

def Conflict.describe : Conflict → String
  | .edgeOutOfSplit s t => s!"node {s} already has an outgoing split, cannot add edge to {t}"
  | .coverOutOfSplit s t => s!"node {s} already has an outgoing split, cannot add cover to {t}"
  | .edgeExists s t => s!"{(Item.edge s t).describe} already exists"
  | .coverExists s t => s!"{(Item.cover s t).describe} already exists"
  | .splitExists s => s!"node {s} already has an outgoing split"
  | .splitBesideEdge s => s!"node {s} already has an outgoing edge or cover, cannot split"
  | .splitOntoItself s => s!"{(Item.split s).describe} targets its own source"
  | .targetTaken t owner => s!"node {t} is already the target of the {(Item.split owner).describe}"
  | .splitClosesCycle s => s!"{(Item.split s).describe} would close a cycle of splits"
  | .splitsCyclic => "splits form a cycle"
  | .nextOutOfRange next => s!"next id {next} outside 1..={maxNodeId}"
  | .nodeOutOfRange id next => s!"node id {id} outside the allocated range 1..{next}"
  | .nodeTwice id => s!"duplicate node id {id}"
  | .other message => message

def EdgeFault.describe : EdgeFault → String
  | .noSteps s t => s!"{(Item.edge s t).describe} has no steps"
  | .other message => message

def SplitFault.describe : SplitFault → String
  | .noBranches s => s!"{(Item.split s).describe} has no branches"
  | .targetTwice s => s!"{(Item.split s).describe} lists a target twice"
  | .other message => message

namespace Error

def message : Error → String
  | .notFound item => "Not found: " ++ item.describe
  | .invalidReference context id => s!"Invalid reference in {context}: node {id} does not exist"
  | .structuralConflict conflict => "Structural conflict: " ++ conflict.describe
  | .invalidEdge fault => "Invalid edge: " ++ fault.describe
  | .invalidSplit fault => "Invalid split: " ++ fault.describe
  | .oracle message => "Oracle error: " ++ message
  | .serialization message => "Serialization error: " ++ message

/-- The error turns down a change before it begins. -/
def isRejection : Error → Bool
  | .invalidReference .. | .structuralConflict _ | .invalidEdge _ | .invalidSplit _ => true
  | .notFound _ | .oracle _ | .serialization _ => false

end Error

end StateGraph
