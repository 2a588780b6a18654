-- The names of nodes, and of the links between two of them.
import StateGraph.Table

namespace StateGraph

/-- The name of a node: a number. Names are given out in counting order, and
none is given out twice. -/
abbrev NodeId := Nat

/-- The largest next name that a snapshot may carry, `2 ^ 63 - 1`. -/
def maxNodeId : NodeId := 0x7fffffffffffffff

/-- An ordered pair of nodes, the key of an edge or a cover. -/
structure Link where
  source : NodeId
  target : NodeId
  deriving DecidableEq, Inhabited

namespace Link

/-- Links stand by source, then by target. -/
instance : Ord Link := ⟨fun a b => (compare a.source b.source).then (compare a.target b.target)⟩

theorem compare_eq (a b : Link) :
    compare a b = (compare a.source b.source).then (compare a.target b.target) := rfl

instance : Std.LawfulEqOrd Link where
  compare_self := by simp [compare_eq]
  eq_of_compare {a b} h := by
    cases a; cases b
    simpa [compare_eq, Ordering.then_eq_eq] using h

instance : Std.TransOrd Link where
  eq_swap := by simp [compare_eq, Ordering.swap_then, ← Std.OrientedOrd.eq_swap]
  isLE_trans {a b c} hab hbc := by
    simp only [compare_eq, Ordering.isLE_then_iff_and, Nat.isLE_compare, Nat.compare_eq_lt] at *
    omega

end Link

end StateGraph
