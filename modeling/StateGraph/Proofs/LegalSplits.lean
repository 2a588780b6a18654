-- Which splits may be made. The checks and the search before a split is added let in exactly
-- the splits that leave the relation of all splits without a cycle, and whose ends are there
-- and free. Besides the new split nothing changes but path conditions.
import StateGraph.Proofs.CaseCoverage

namespace StateGraph

open Relation (ReflTransGen TransGen)

/-- A split leads from `a` to `b`, once a split of `source` has been added. -/
def BranchesWith (splits : Table NodeId Cases) (source : NodeId) (cases : Cases)
    (a b : NodeId) : Prop :=
  BranchesTo splits a b ∨ a = source ∧ b ∈ cases.guards

/-- One more split closes no cycle exactly if none of its targets leads back to its source. -/
theorem no_cycle_with_iff {splits : Table NodeId Cases} {source : NodeId} {cases : Cases}
    (h : Acyclic splits) : (∀ a, ¬ TransGen (BranchesWith splits source cases) a a) ↔
      ∀ t ∈ cases.guards, ¬ ReflTransGen (BranchesTo splits) t source := by
  constructor
  · intro hno t ht hpath
    have hback : ReflTransGen (BranchesWith splits source cases) t source :=
      ReflTransGen.mono (fun _ _ => Or.inl) _ _ hpath
    exact hno source (TransGen.head' (Or.inr ⟨rfl, ht⟩) hback)
  · intro hno
    exact no_cycle_of_added (fun _ _ => id) hno h

namespace Graph

variable {g : Graph} {source : NodeId} {cases : Cases}

/-- All ends of a split are there, nothing leads out of its source yet, no split has one of
its targets, and with it the splits have no cycle. -/
structure LegalSplit (g : Graph) (source : NodeId) (cases : Cases) : Prop where
  source_mem : source ∈ g.nodes
  targets_mem : ∀ t ∈ cases.guards, t ∈ g.nodes
  branches : ∃ t, t ∈ cases.guards
  no_split : source ∉ g.splits
  no_edge : ∀ l ∈ g.edges, l.source ≠ source
  no_cover : ∀ l ∈ g.covers, l.source ≠ source
  free : ∀ t ∈ cases.guards, ∀ a, ¬ BranchesTo g.splits a t
  no_cycle : ∀ a, ¬ TransGen (BranchesWith g.splits source cases) a a

/-- No chain of splits leads from a target of a legal split back to its source, however
long it is. -/
theorem LegalSplit.no_way_back (h : Sound g) (hlegal : g.LegalSplit source cases) :
    ∀ t ∈ cases.guards, ¬ ReflTransGen (BranchesTo g.splits) t source :=
  (no_cycle_with_iff h.acyclic).mp hlegal.no_cycle

/-- The search before a split is made ends at the source of the split, or because nothing
waits any more, not because it has used up its steps. -/
theorem searchesFor_way_back (h : Sound g) (htargets : ∀ t ∈ cases.guards, t ∈ g.nodes) :
    SearchesFor (stack g.splitTargets) source cases.targets.reverse ∅
      (g.splitsLeadTo cases.targets source) :=
  searchesFor_splitsLeadTo h.split_target fun t ht => htargets t (Table.mem_keys.mp ht)

theorem splittable_iff (h : Sound g) :
    g.Splittable source cases false ↔ g.LegalSplit source cases := by
  constructor
  · intro hs
    exact ⟨hs.source_mem, hs.targets_mem, hs.branches, hs.no_split, hs.no_edge, hs.no_cover,
      hs.free rfl, (no_cycle_with_iff h.acyclic).mpr (h.no_path_back hs)⟩
  · intro hlegal
    have hback := hlegal.no_way_back h
    -- a source among its own targets would lead back to itself by no step at all
    exact ⟨hlegal.source_mem, hlegal.targets_mem, hlegal.branches, hlegal.no_split,
      hlegal.no_edge, hlegal.no_cover, fun hself => hback source hself .refl,
      fun _ => hlegal.free, (h.splitsLeadTo_eq_false hlegal.targets_mem).mpr hback⟩

end Graph

namespace Update

open StateGraph.Graph (Sound Settles)

variable {g : Graph} {source : NodeId} {cases : Cases}

theorem createSplit_legal (h : Sound g) (hlegal : g.LegalSplit source cases) :
    ∃ g', (createSplit source cases).run g = .ok cases g' ∧
      Settles { g with splits := g.splits.insert source cases } g' := by
  have hs := (Graph.splittable_iff h).mpr hlegal
  obtain ⟨n, g', hrun, hsettles, -⟩ := propagate_settles (h.insert_split hs)
  have hcases : g'.splits.get? source = some cases := by
    rw [hsettles.splits_eq]
    exact Table.get?_insert_self _ _ _
  refine ⟨g', ?_, hsettles⟩
  rw [createSplit_run, Graph.splitFault_eq_none.mpr hs]
  simp only [hrun, demand_run, hcases]

theorem createSplit_illegal (h : Sound g) (hillegal : ¬ g.LegalSplit source cases) :
    ∃ e, (createSplit source cases).run g = .error e g := by
  rw [createSplit_run]
  cases hfault : g.splitFault source cases false with
  | some e => exact ⟨e, rfl⟩
  | none => exact absurd ((Graph.splittable_iff h).mp (Graph.splitFault_eq_none.mp hfault)) hillegal

end Update

/-- A split is let in exactly if it is legal. Then it stands among the splits with those
from before, path conditions have been brought up to date, and nothing else has changed. A
split that is turned down leaves everything as it was. That the search for a way back was
not cut short is `searchesFor_way_back`. -/
theorem Reachable.createSplit_accepts_legal {g : Graph} (h : Reachable g) (source : NodeId)
    (cases : Cases) :
    ((∃ c g', (Update.createSplit source cases).run g = .ok c g') ↔ g.LegalSplit source cases) ∧
      (∀ c g', (Update.createSplit source cases).run g = .ok c g' →
        c = cases ∧ g'.splits = g.splits.insert source cases ∧ g'.edges = g.edges ∧
          g'.covers = g.covers ∧ g'.next = g.next ∧ (∀ id, id ∈ g'.nodes ↔ id ∈ g.nodes) ∧
          g.SameTerms g' ∧ g'.InStep) ∧
      (∀ e g', (Update.createSplit source cases).run g = .error e g' → g' = g) ∧
      (g.LegalSplit source cases → source ∉ cases.guards ∧
        ∀ t ∈ cases.guards, ¬ ReflTransGen (BranchesTo g.splits) t source) := by
  have hsound := h.sound
  by_cases hlegal : g.LegalSplit source cases
  · have hback := hlegal.no_way_back hsound
    obtain ⟨g', hrun, hsettles⟩ := Update.createSplit_legal hsound hlegal
    rw [hrun]
    refine ⟨iff_of_true ⟨cases, g', rfl⟩ hlegal, ?_, fun e g'' he => (by cases he),
      fun _ => ⟨fun hself => hback source hself .refl, hback⟩⟩
    intro c g'' hok
    cases hok
    exact ⟨rfl, hsettles.splits_eq, hsettles.edges_eq, hsettles.covers_eq, hsettles.next_eq,
      hsettles.mem_iff, hsettles.terms, hsettles.inStep⟩
  · obtain ⟨e, hrun⟩ := Update.createSplit_illegal hsound hlegal
    rw [hrun]
    refine ⟨iff_of_false (fun ⟨c, g', hok⟩ => (by cases hok)) hlegal,
      fun c g' hok => (by cases hok), fun e' g' he => ?_, fun hlegal' => absurd hlegal' hlegal⟩
    cases he
    rfl

/-- Two merged paths end in splits that share a target, and a split goes on from there. A
split from elsewhere is legal; one that leads back to the first of the two is not, though
its target has no split onto it. -/
theorem createSplit_accepts_legal_overlap :
    let g := Graph.empty.afterAll (overlap ++ [.merge { mergeable := apartXZ } () 1,
      .addNode { term := .var "B" }, .addNode { term := .var "C" },
      .createSplit 6 { guards := .ofList [(11, .assume [.var "S"])] }])
    let back : Cases := { guards := .ofList [(8, .top)] }
    Reachable g ∧ g.splitSourcesOf 6 = [8, 10] ∧ g.splitSourcesOf 8 = [] ∧
      ¬ g.LegalSplit 11 back ∧ (∃ e, (Update.createSplit 11 back).run g = .error e g) ∧
      g.LegalSplit 5 { guards := .ofList [(12, .top)] } := by
  intro g back
  have hreachable : Reachable g := ⟨.empty, _, .empty, rfl⟩
  obtain ⟨hiff, -, hkept, -⟩ := hreachable.createSplit_accepts_legal 11 back
  obtain ⟨e, g', herror⟩ := exists_error_of_failed (r := (Update.createSplit 11 back).run g)
    (by decide +kernel)
  obtain ⟨c, g'', hok, -⟩ := exists_ok_of_endsWith (p := fun _ => true)
    (r := (Update.createSplit 5 { guards := .ofList [(12, .top)] }).run g) (by decide +kernel)
  refine ⟨hreachable, by decide +kernel, by decide +kernel, fun hlegal => ?_, ⟨e, ?_⟩,
    (hreachable.createSplit_accepts_legal 5 _).1.mp ⟨c, g'', hok⟩⟩
  · obtain ⟨c, g'', hok⟩ := hiff.mpr hlegal
    rw [herror] at hok
    cases hok
  · rw [herror, hkept e g' herror]

end StateGraph
