import StateGraph.Compatibility
import StateGraph.Config
import StateGraph.Effect
import StateGraph.Error
import StateGraph.Graph.Basic
import StateGraph.Graph.Propagate
import StateGraph.Graph.SplitOrder
import StateGraph.Graph.Traversal
import StateGraph.Graph.Update
import StateGraph.Json.Basic
import StateGraph.Json.Numeral
import StateGraph.Json.Parse
import StateGraph.Json.Record
import StateGraph.Json.Render
import StateGraph.Json.Token
import StateGraph.Merge.Branches
import StateGraph.Merge.Oracle
import StateGraph.Merge.Plan
import StateGraph.Merge.Run
import StateGraph.Merge.Session
import StateGraph.NodeId
import StateGraph.Proofs.CliqueSearch
import StateGraph.Snapshot.Basic
import StateGraph.Snapshot.Decode
import StateGraph.Snapshot.Encode
import StateGraph.Table
import StateGraph.Term.Basic
import StateGraph.Term.Display
import StateGraph.Term.Formula
import StateGraph.Term.Order
import StateGraph.Proofs.MaximalCliques
import StateGraph.Proofs.Lookups
import StateGraph.Proofs.Search
import StateGraph.Proofs.SplitRelation
import StateGraph.Proofs.SplitTurns
import StateGraph.Proofs.Faults
import StateGraph.Proofs.PathConditions
import StateGraph.Proofs.Soundness
import StateGraph.Proofs.Runs
import StateGraph.Proofs.Propagation
import StateGraph.Proofs.Branches
import StateGraph.Proofs.Detaching
import StateGraph.Proofs.MergedPaths
import StateGraph.Proofs.MergedSplits
import StateGraph.Proofs.Reworking
import StateGraph.Proofs.Asking
import StateGraph.Proofs.CarriedOut
import StateGraph.Proofs.Rounds
import StateGraph.Proofs.Histories
import StateGraph.Proofs.Failures
import StateGraph.Proofs.InStep
import StateGraph.Proofs.HaltedRounds
import StateGraph.Proofs.Rerouting
import StateGraph.Proofs.Sessions
import StateGraph.Proofs.KeptWalks
import StateGraph.Proofs.Answers
import StateGraph.Proofs.StuckSplits
import StateGraph.Proofs.AcceptedMerges
import StateGraph.Proofs.DeclinedPairs
import StateGraph.Proofs.Loading
import StateGraph.Proofs.RecordLists
import StateGraph.Proofs.LegalSnapshots
import StateGraph.Proofs.SnapshotOrder
import StateGraph.Proofs.SpelledTokens
import StateGraph.Proofs.RenderedValues
import StateGraph.Proofs.RecordsRead
import StateGraph.Proofs.TextRoundTrip
import StateGraph.Proofs.NamesGiven
import StateGraph.Proofs.Inventory
import StateGraph.Proofs.Collapse
import StateGraph.Proofs.Recording
import StateGraph.Proofs.AskedOnce
import StateGraph.Proofs.BuiltPaths
import StateGraph.Proofs.Valuations
import StateGraph.Proofs.CaseCoverage
import StateGraph.Proofs.IngestionOrder
import StateGraph.Proofs.ResumedSessions
import StateGraph.Proofs.RebuiltSplits
import StateGraph.Proofs.CopiedConfigs
import StateGraph.Proofs.Composition
import StateGraph.Proofs.Traversals
import StateGraph.Proofs.LegalSplits
import StateGraph.Proofs.Removals
import StateGraph.Proofs.FreeVariables
import StateGraph.Proofs.FlatConjunctions
import StateGraph.Proofs.OrderedSplits
import StateGraph.Proofs.RearrangedValues
import StateGraph.Proofs.RearrangedRecords
