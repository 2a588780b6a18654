-- Merging. A round decides all qualifying splits, then carries out their plans
-- in the order of the sources, then brings path conditions up to date. Rounds
-- follow until nothing merges or the limit is reached.
import StateGraph.Merge.Plan

namespace StateGraph

/-- What a merging session did. -/
structure Report where
  /-- How many rounds merged something. -/
  rounds : Nat := 0
  /-- The groups merged, oldest first. -/
  groups : List Group := []
  /-- How many questions the oracle answered. -/
  oracleCalls : Nat := 0
  deriving DecidableEq, Inhabited

def Report.isEmpty (r : Report) : Bool := r.groups.isEmpty

/-- How many rounds a session has unless another limit is set. -/
def defaultRoundLimit : Nat := 64

/-- What can be chosen about a session. -/
structure Options where
  roundLimit : Nat := defaultRoundLimit
  /-- Several splits are handed to a pool of workers. -/
  parallel : Bool := true
  deriving DecidableEq, Inhabited

/-- A pool of workers, as far as a session can tell: what it makes of the outcomes of
tasks that were handed to it together. Of several errors it may report any. -/
structure Pool where
  collect : {α : Type} → List (Except Error α) → Except Error (List α)
  /-- The results stand in the order of the tasks. -/
  collect_ok : ∀ {α : Type} (results : List α), collect (results.map .ok) = .ok results
  /-- If a task fails, an error of one of the tasks is reported. -/
  collect_error : ∀ {α : Type} {outcomes : List (Except Error α)} {e : Error},
    .error e ∈ outcomes → ∃ e', .error e' ∈ outcomes ∧ collect outcomes = .error e'

/-- The pool that reports the first of several errors. -/
def Pool.inOrder : Pool where
  collect outcomes := outcomes.mapM id
  collect_ok := by
    intro α results
    induction results with
    | nil => rfl
    | cons a results ih => rw [List.map_cons, List.mapM_cons, ih]; rfl
  collect_error := by
    intro α outcomes e he
    induction outcomes with
    | nil => simp at he
    | cons o outcomes ih =>
      rw [List.mapM_cons]
      cases o with
      | error e' => exact ⟨e', List.mem_cons_self, rfl⟩
      | ok a =>
        obtain ⟨e', he', hcollect⟩ := ih (by simpa using he)
        refine ⟨e', List.mem_cons_of_mem _ he', ?_⟩
        rw [hcollect]
        rfl

instance : Inhabited Pool := ⟨.inOrder⟩

namespace Merging

variable {σ : Type}

/-- Finds the cliques of a split, and counts the questions that took. -/
def discover (oracle : Oracle σ) (set : BranchSet) : Merging σ (Plan × Nat) := do
  let (graph, asked) ← compatibility oracle set
  return ({ set, cliques := graph.maximalCliques 2 }, asked)

/-- Carries a plan out if its split still is what the plan was made for: one
carried out before it in the round may have changed it. -/
def carryOutIfCurrent (oracle : Oracle σ) (p : Plan) : Merging σ (List Group) := do
  if (← get).graph.branchSet? p.set.source = some p.set then carryOut oracle p else return []

/-- Finds the cliques of several splits at once. Whether a question that fails keeps
other workers from asking cannot be told from the graph: here it keeps none. An oracle
that remembers is asked as if the workers took turns. -/
def discoverAtOnce (pool : Pool) (oracle : Oracle σ) (sets : List BranchSet) :
    Merging σ (List (Plan × Nat)) := do
  let outcomes ← sets.mapM fun set => observing (discover oracle set)
  match pool.collect outcomes with
  | .ok found => return found
  | .error e => throw e

/-- Finds the cliques of the splits of a round, at once or one split after the other. -/
def discoverAll (options : Options) (pool : Pool) (oracle : Oracle σ) (sets : List BranchSet) :
    Merging σ (List (Plan × Nat)) :=
  if options.parallel && 1 < sets.length then discoverAtOnce pool oracle sets
  else sets.mapM (discover oracle)

/-- At most so many more rounds, the cliques of each found by `find`. -/
def roundsBy (find : List BranchSet → Merging σ (List (Plan × Nat))) (oracle : Oracle σ) :
    Nat → Report → Merging σ Report
  | 0, report => return report
  | limit + 1, report => do
    let found ← find (← get).graph.branchSets
    let report := { report with oracleCalls := found.foldl (fun n r => n + r.2) report.oracleCalls }
    let plans := (found.map (·.1)).filter fun p => !p.cliques.isEmpty
    if plans.isEmpty then return report
    let groups := (← plans.mapM (carryOutIfCurrent oracle)).flatten
    let _ ← update Update.propagate
    let report := { report with groups := report.groups ++ groups }
    if groups.isEmpty then return report
    roundsBy find oracle limit { report with rounds := report.rounds + 1 }

/-- At most so many more rounds, each of which decides one split after the other. -/
def rounds (oracle : Oracle σ) : Nat → Report → Merging σ Report :=
  roundsBy (·.mapM (discover oracle)) oracle

/-- A merging session of at most `limit` rounds, without a pool. -/
def run (oracle : Oracle σ) (limit : Nat) : Merging σ Report := rounds oracle limit {}

/-- A merging session. -/
def runWith (options : Options) (pool : Pool) (oracle : Oracle σ) : Merging σ Report :=
  roundsBy (discoverAll options pool oracle) oracle options.roundLimit {}

end Merging

/-- Merges the branches of a graph with an oracle that may remember. -/
def Update.mergeWith {σ : Type} (oracle : Oracle σ) (memory : σ) (limit : Nat) : Update Report :=
  fun g =>
    match EStateM.run (Merging.run oracle limit) { graph := g, memory := memory } with
    | .ok report s => .ok report s.graph
    | .error e s => .error e s.graph

end StateGraph
