-- Effects: what one transition does to a configuration. An effect binds
-- variables to terms, and assumes formulas once they are bound.
import StateGraph.Config

namespace StateGraph

/-- A substitution and the formulas assumed after it. -/
structure Effect where
  /-- The terms put in for variables. -/
  bindings : Term.Bindings := ∅
  /-- The formulas assumed, oldest first. -/
  constraints : List Formula := []
  deriving DecidableEq, Inhabited

namespace Effect

def top : Effect := {}

/-- Nothing is bound and nothing is assumed. -/
def isTop (e : Effect) : Bool := e.bindings.isEmpty && e.constraints.isEmpty

/-- An effect that only assumes. -/
def assume (fs : List Formula) : Effect := { constraints := fs }

def addConstraint (e : Effect) (f : Formula) : Effect :=
  { e with constraints := e.constraints ++ [f] }

def constraint (e : Effect) : Formula := Term.and e.constraints

/-- The configuration after a transition. The bindings are put into its term
and its path condition, and the effect's own formulas are assumed last. -/
def apply (e : Effect) (c : Config) : Config where
  term := c.term.substitute e.bindings
  constraints := c.constraints.map (Term.substitute e.bindings) ++ e.constraints

/-- The effect of `first`, then `e`. The bindings of `e` are put into what
`first` binds and assumes; a variable that only `e` binds keeps its binding. -/
def compose (e first : Effect) : Effect where
  bindings := e.bindings.insertAll
    (first.bindings.mapValues fun _ t => t.substitute e.bindings).toList
  constraints := first.constraints.map (Term.substitute e.bindings) ++ e.constraints

/-- The bindings and formulas of both, none put into the other. On a variable
bound twice `more` wins, and its formulas come last. -/
def extend (e more : Effect) : Effect where
  bindings := e.bindings.insertAll more.bindings.toList
  constraints := e.constraints ++ more.constraints

/-- The bindings in braces, then the formulas, each left out when it is
empty. -/
def display (e : Effect) : String :=
  let bound := "\x7b" ++ ", ".intercalate
    (e.bindings.toList.map fun (x, t) => x ++ " <- " ++ t.display) ++ "\x7d"
  if e.isTop then Term.topLabel
  else if e.constraints.isEmpty then bound
  else if e.bindings.isEmpty then e.constraint.display
  else bound ++ " " ++ Term.andLabel ++ " " ++ e.constraint.display

end Effect

end StateGraph
