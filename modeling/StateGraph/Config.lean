-- Configurations: one symbolic state, as a term and the path condition under
-- which a run reaches it. The condition is a list: the same formulas in
-- another order are another configuration.
import StateGraph.Term.Display

namespace StateGraph

/-- A term and the formulas assumed of it, oldest first. -/
structure Config where
  term : Term
  constraints : List Formula := []
  deriving DecidableEq, Inhabited

namespace Config

/-- One more formula, assumed last. -/
def addConstraint (c : Config) (f : Formula) : Config :=
  { c with constraints := c.constraints ++ [f] }

/-- More formulas, assumed last and in their order. -/
def addConstraints (c : Config) (fs : List Formula) : Config :=
  { c with constraints := c.constraints ++ fs }

/-- The same term under another path condition. -/
def withConstraints (c : Config) (fs : List Formula) : Config :=
  { c with constraints := fs }

def constraint (c : Config) : Formula := Term.and c.constraints

def freeVars (c : Config) : SortedSet String :=
  .ofList (c.term.varNames ++ c.constraints.flatMap Term.varNames)

/-- The term, then its path condition unless that is empty. -/
def display (c : Config) : String :=
  if c.constraints.isEmpty then c.term.display
  else c.term.display ++ " " ++ Term.andLabel ++ " " ++ c.constraint.display

end Config

end StateGraph
