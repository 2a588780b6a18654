-- What is made of one split. The branches of a clique become one path: an
-- edge that runs them one after another to a fresh node, which then splits to
-- where they led. A clique of all branches starts at the split's own source;
-- any other gets an anchor, a fresh branch of the split.
import StateGraph.Graph.Propagate
import StateGraph.Merge.Session

namespace StateGraph

/-- A split and the cliques to merge in it. -/
structure Plan where
  set : BranchSet
  cliques : List (List NodeId)
  deriving DecidableEq, Inhabited

/-- A clique that has been merged. -/
structure Group where
  splitSource : NodeId
  /-- The branches merged, ascending. -/
  members : List NodeId
  /-- Where the merged path starts. -/
  anchor : NodeId
  /-- The fresh node where it ends. -/
  merged : NodeId
  /-- Where it goes on to, ascending. -/
  targets : List NodeId
  deriving DecidableEq, Inhabited

/-- A clique with the guard of its anchor. -/
structure Part where
  members : List NodeId
  branches : List Branch
  guard : Effect
  deriving DecidableEq, Inhabited

namespace Plan

/-- One clique takes all branches. -/
def coversSplit (p : Plan) : Bool :=
  match p.cliques with
  | [clique] => clique.length == p.set.branches.length
  | _ => false

end Plan

namespace BranchSet

/-- Leads the merged path of some branches from a node to a fresh one, and
splits that to where they led. -/
def addPath (set : BranchSet) (start : NodeId) (config : Config) (bs : List Branch) :
    Update NodeId := do
  let merged ← Update.addNode config
  Update.createEdge start merged (set.chain bs)
  Update.attachSplit merged { shared := set.shared, guards := targets bs } true
  return merged

/-- Merges all branches of a split. Its source loses the split and starts the
merged path. -/
def mergeWhole (set : BranchSet) (members : List NodeId) (bs : List Branch) (config : Config) :
    Update Group := do
  members.forM fun m => discard (Update.detachNode m)
  let merged ← set.addPath set.source config bs
  return {
    splitSource := set.source, members, anchor := set.source, merged
    targets := (targets bs).keys }

/-- Starts the merged path of one clique at a fresh anchor. -/
def mergePart (set : BranchSet) (config : Config) (part : Part) : Update Group := do
  let config := config.addConstraints (set.shared.constraints ++ part.guard.constraints)
  let anchor ← Update.addNode config
  let merged ← set.addPath anchor config part.branches
  return {
    splitSource := set.source, members := part.members, anchor, merged
    targets := (targets part.branches).keys }

/-- Merges some cliques of a split, which may overlap. The split keeps the
branches of none of them, and gets the anchors. -/
def mergeParts (set : BranchSet) (config : Config) (parts : List Part) : Update (List Group) := do
  let groups ← parts.mapM (set.mergePart config)
  (SortedSet.ofList (groups.flatMap (·.members))).keys.forM fun m => discard (Update.detachNode m)
  let left := ((← Update.detachSplit set.source).map Cases.guards).getD ∅
  let anchors := groups.zipWith (fun g p => (g.anchor, p.guard)) parts
  Update.attachSplit set.source { shared := set.shared, guards := left.insertAll anchors } true
  return groups

end BranchSet

namespace Merging

variable {σ : Type}

/-- Prepares a clique, and asks for the guard of its anchor. -/
def prepare (oracle : Oracle σ) (set : BranchSet) (members : List NodeId) : Merging σ Part := do
  let branches ← update (Update.ofExcept (members.mapM set.branch))
  let guard ← consult (oracle.mergeGuards (branches.map set.fullGuard))
  return { members, branches, guard }

/-- Carries a plan out. The oracle is consulted on everything before the graph
is touched. -/
def carryOut (oracle : Oracle σ) (p : Plan) : Merging σ (List Group) := do
  let config ← update (Update.ofExcept ((← get).graph.config p.set.source))
  match p.cliques, p.coversSplit with
  | [members], true => do
    let branches ← update (Update.ofExcept (members.mapM p.set.branch))
    return [← update (p.set.mergeWhole members branches config)]
  | cliques, _ => do
    let parts ← cliques.mapM (prepare oracle p.set)
    update (p.set.mergeParts config parts)

end Merging

end StateGraph
