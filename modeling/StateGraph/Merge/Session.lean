-- A merging session: the graph being changed, the memory of the oracle, and
-- every question put to it. A pair of branches is asked about once: its answer
-- stands for the rest of the session.
import StateGraph.Graph.Update
import StateGraph.Merge.Oracle
import StateGraph.Merge.Branches
import StateGraph.Compatibility

namespace StateGraph

/-- A question put to an oracle: two nodes, the configurations they held, and
the answer. -/
structure Question where
  first : NodeId
  second : NodeId
  firstConfig : Config
  secondConfig : Config
  reply : Except Error Bool

structure Session (σ : Type) where
  graph : Graph
  memory : σ
  /-- The questions asked, oldest first. -/
  questions : List Question := []

abbrev Merging (σ : Type) := EStateM Error (Session σ)

namespace Merging

variable {σ α : Type}

/-- A change to the graph. -/
def update (change : Update α) : Merging σ α := fun s =>
  match change.run s.graph with
  | .ok a g => .ok a { s with graph := g }
  | .error e g => .error e { s with graph := g }

/-- A consultation of the oracle. -/
def consult (ask : EStateM Error σ α) : Merging σ α := fun s =>
  match ask.run s.memory with
  | .ok a m => .ok a { s with memory := m }
  | .error e m => .error e { s with memory := m }

/-- The answer on two nodes, if they have been asked about. -/
def known? (questions : List Question) (first second : NodeId) : Option Bool :=
  questions.findSome? fun q =>
    if q.first = first ∧ q.second = second then q.reply.toOption else none

/-- Puts a question to the oracle and notes it. -/
def ask (oracle : Oracle σ) (a b : Branch) : Merging σ Bool := fun s =>
  let note (reply : Except Error Bool) (m : σ) : Session σ :=
    let q : Question := ⟨a.node, b.node, a.config, b.config, reply⟩
    { s with memory := m, questions := s.questions ++ [q] }
  match (oracle.mergeable a.config b.config).run s.memory with
  | .ok yes m => .ok yes (note (.ok yes) m)
  | .error e m => .error e (note (.error e) m)

/-- All pairs of a list, each in its order in the list. -/
def pairs {β : Type} : List β → List (β × β)
  | [] => []
  | x :: xs => xs.map (x, ·) ++ pairs xs

/-- Decides one pair of branches. Counts the questions that took. -/
def weigh (oracle : Oracle σ) (found : Compatibility × Nat) (pair : Branch × Branch) :
    Merging σ (Compatibility × Nat) := do
  let (a, b) := pair
  let (together, asked) ← match known? (← get).questions a.node b.node with
    | some yes => pure (yes, 0)
    | none => do pure (← ask oracle a b, 1)
  return (if together then found.1.connect a.node b.node else found.1, found.2 + asked)

/-- Decides every pair of branches of a split. -/
def compatibility (oracle : Oracle σ) (set : BranchSet) : Merging σ (Compatibility × Nat) :=
  (pairs set.branches).foldlM (weigh oracle) (.ofVertices (set.branches.map (·.node)), 0)

end Merging

end StateGraph
