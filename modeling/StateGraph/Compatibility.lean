-- Which nodes go together, as an undirected graph over their names, and its
-- maximal cliques: the largest groups in which every two go together. Cliques
-- may overlap. They come out in one order whatever order the pairs came in.
import StateGraph.NodeId

namespace StateGraph

/-- Beside each node the nodes that go together with it. -/
abbrev Adjacency := Table NodeId (SortedSet NodeId)

namespace Adjacency

/-- The nodes beside a node, none if it is missing. -/
def beside (adj : Adjacency) (a : NodeId) : SortedSet NodeId := (adj.get? a).getD ∅

/-- Some nodes with none beside them. -/
def alone (ids : List NodeId) : Adjacency := (SortedSet.ofList ids).mapValues fun _ _ => ∅

theorem not_mem_beside_alone {ids : List NodeId} {a b : NodeId} : b ∉ (alone ids).beside a := by
  unfold beside alone
  rw [Table.get?_mapValues]
  cases (SortedSet.ofList ids).get? a <;> simp [Table.mem_iff]

/-- Puts the second node beside the first, which is added where it is missing. -/
def link (adj : Adjacency) (a b : NodeId) : Adjacency := adj.insert a ((adj.beside a).insert b ())

/-- How many nodes stand beside others, counted at each they stand beside. -/
def degrees (adj : Adjacency) : Nat := adj.toList.foldr (fun e n => e.2.size + n) 0

theorem mem_beside_link {adj : Adjacency} {a b x y : NodeId} :
    y ∈ (adj.link a b).beside x ↔ y ∈ adj.beside x ∨ (x = a ∧ y = b) := by
  unfold link
  by_cases hx : x = a
  · subst hx
    have hself : beside (adj.insert x ((adj.beside x).insert b ())) x =
        (adj.beside x).insert b () := by
      rw [beside, Table.get?_insert_self, Option.getD_some]
    rw [hself, SortedSet.mem_insert]
    simp [or_comm]
  · have hother : beside (adj.insert a ((adj.beside a).insert b ())) x = adj.beside x := by
      rw [beside, Table.get?_insert_of_ne _ hx, beside]
    simp [hother, hx]

end Adjacency

/-- An undirected graph over nodes. -/
structure Compatibility where
  adjacency : Adjacency
  /-- Of two nodes that go together each stands beside the other. -/
  symm : ∀ a b, b ∈ adjacency.beside a → a ∈ adjacency.beside b
  /-- No node stands beside itself. -/
  irrefl : ∀ a, a ∉ adjacency.beside a
  deriving DecidableEq

namespace Compatibility

/-- The graph of some nodes, none of which go together. -/
def ofVertices (ids : List NodeId) : Compatibility where
  adjacency := .alone ids
  symm := fun _ _ h => absurd h Adjacency.not_mem_beside_alone
  irrefl := fun _ => Adjacency.not_mem_beside_alone

instance : Inhabited Compatibility := ⟨ofVertices []⟩

/-- Lets two nodes go together, and adds them where they are missing. A node
does not go together with itself. -/
def connect (g : Compatibility) (a b : NodeId) : Compatibility :=
  if hab : a = b then g
  else
    { adjacency := (g.adjacency.link a b).link b a
      symm := by
        intro x y h
        simp only [Adjacency.mem_beside_link] at h ⊢
        rcases h with (h | h) | h
        · exact Or.inl (Or.inl (g.symm x y h))
        · exact Or.inr h.symm
        · exact Or.inl (Or.inr h.symm)
      irrefl := by
        intro x h
        simp only [Adjacency.mem_beside_link] at h
        rcases h with (h | ⟨rfl, rfl⟩) | ⟨rfl, rfl⟩
        · exact g.irrefl x h
        · exact hab rfl
        · exact hab rfl }

def connected (g : Compatibility) (a b : NodeId) : Bool := (g.adjacency.beside a).contains b

def vertices (g : Compatibility) : SortedSet NodeId := g.adjacency.mapValues fun _ _ => ()

def vertexCount (g : Compatibility) : Nat := g.adjacency.size

/-- How many pairs go together. Both nodes of a pair have the other beside them. -/
def pairCount (g : Compatibility) : Nat := g.adjacency.degrees / 2

theorem connected_iff {g : Compatibility} {a b : NodeId} :
    g.connected a b = true ↔ b ∈ g.adjacency.beside a := Iff.rfl

/-- Going together does not depend on who is named first. -/
theorem connected_comm (g : Compatibility) (a b : NodeId) :
    g.connected a b = g.connected b a :=
  Bool.eq_iff_iff.mpr ⟨g.symm a b, g.symm b a⟩

@[simp]
theorem connected_self (g : Compatibility) (a : NodeId) : g.connected a a = false :=
  Bool.eq_false_iff.mpr (g.irrefl a)

/-! ## Growing cliques

A clique grows one node at a time. Beside the nodes it has, two lists are
kept of the nodes that go together with all of them: the candidates, which it
may still take, and the excluded, with which every clique has been found. A
clique that neither list can enlarge is maximal. -/

/-- The nodes of a list that go together with a node. -/
def among (g : Compatibility) (v : NodeId) (ids : List NodeId) : List NodeId :=
  ids.filter (g.connected v)

/-- The better of two pivots: the one with more candidates beside it, and of
two alike the lower. -/
def betterPivot (g : Compatibility) (candidates : List NodeId) (a b : NodeId) : NodeId :=
  let da := (g.among a candidates).length
  let db := (g.among b candidates).length
  if da < db then b else if db < da then a else min a b

/-- The candidates a clique is grown by, given a first candidate. Every
maximal clique has the pivot or a node that does not go together with it, so
the candidates beside the pivot can wait. -/
def choices (g : Compatibility) (first : NodeId) (candidates excluded : List NodeId) :
    List NodeId :=
  let pivot := (candidates ++ excluded).foldl (g.betterPivot candidates) first
  candidates.filter fun v => !g.connected pivot v

/-- Visits nodes in turn. A node that has been visited is no candidate for
those after it, but excluded. -/
def sweep (visit : NodeId → List NodeId → List NodeId → List (List NodeId)) :
    List NodeId → List NodeId → List NodeId → List (List NodeId)
  | [], _, _ => []
  | v :: rest, candidates, excluded =>
    visit v candidates excluded ++ sweep visit rest (candidates.filter (· != v)) (v :: excluded)

/-- The maximal cliques that hold all of `current` and otherwise only
candidates, none of the excluded. At most `room` candidates can be taken. -/
def grow (g : Compatibility) : Nat → List NodeId → List NodeId → List NodeId → List (List NodeId)
  | _, current, [], excluded => if excluded.isEmpty then [current] else []
  | 0, _, _ :: _, _ => []
  | room + 1, current, first :: others, excluded =>
    let candidates := first :: others
    sweep (fun v candidates excluded =>
        grow g room (v :: current) (g.among v candidates) (g.among v excluded))
      (g.choices first candidates excluded) candidates excluded

/-! ## The cliques in order -/

def insertAscending {α : Type} [Ord α] (x : α) : List α → List α
  | [] => [x]
  | y :: ys => if (compare x y).isLE then x :: y :: ys else y :: insertAscending x ys

def ascending {α : Type} [Ord α] : List α → List α
  | [] => []
  | x :: xs => insertAscending x (ascending xs)

/-- The maximal cliques with at least `least` members. Members ascend, and so
do the cliques, by their members from left to right. -/
def maximalCliques (g : Compatibility) (least : Nat) : List (List NodeId) :=
  let found := g.grow g.vertices.size [] g.vertices.keys []
  ascending ((found.filter fun c => least ≤ c.length).map ascending)

end Compatibility

end StateGraph
