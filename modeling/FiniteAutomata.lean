import FiniteAutomata.CommandLine.Host
import FiniteAutomata.Definition.Write
import FiniteAutomata.Main
import FiniteAutomata.Proofs.ArenaConsistency
import FiniteAutomata.Proofs.BuiltAutomata
import FiniteAutomata.Proofs.CanonicalSets
import FiniteAutomata.Proofs.CheckedRows
import FiniteAutomata.Proofs.ConstructionStages
import FiniteAutomata.Proofs.DeclaredParts
import FiniteAutomata.Proofs.Determinized
import FiniteAutomata.Proofs.DeterminizedTwice
import FiniteAutomata.Proofs.DisplayedIds
import FiniteAutomata.Proofs.EpsilonReachability
import FiniteAutomata.Proofs.EpsilonVisits
import FiniteAutomata.Proofs.ExactContents
import FiniteAutomata.Proofs.Expansions
import FiniteAutomata.Proofs.Exploration
import FiniteAutomata.Proofs.ExponentialBlowup
import FiniteAutomata.Proofs.FaithfulDrawings
import FiniteAutomata.Proofs.FaithfulTables
import FiniteAutomata.Proofs.FirstViolation
import FiniteAutomata.Proofs.GraphText
import FiniteAutomata.Proofs.GrowthBound
import FiniteAutomata.Proofs.ImpliedTransitions
import FiniteAutomata.Proofs.IndependentDensities
import FiniteAutomata.Proofs.InternedNames
import FiniteAutomata.Proofs.InternedStates
import FiniteAutomata.Proofs.IsomorphicAutomata
import FiniteAutomata.Proofs.JoinedLines
import FiniteAutomata.Proofs.ListedNames
import FiniteAutomata.Proofs.Numbering
import FiniteAutomata.Proofs.OwnDescription
import FiniteAutomata.Proofs.ParallelEdges
import FiniteAutomata.Proofs.QuotedText
import FiniteAutomata.Proofs.RandomAutomata
import FiniteAutomata.Proofs.ReachableSets
import FiniteAutomata.Proofs.ReachableStates
import FiniteAutomata.Proofs.RenamedStates
import FiniteAutomata.Proofs.RunsOfUnions
import FiniteAutomata.Proofs.SameKernel
import FiniteAutomata.Proofs.SettledReading
import FiniteAutomata.Proofs.SubsetSemantics
import FiniteAutomata.Proofs.Totality
import FiniteAutomata.Proofs.TrimmedText
import FiniteAutomata.Proofs.TwoWayMaps
import FiniteAutomata.Proofs.WrittenForm
import FiniteAutomata.Proofs.WrittenGrammar
import FiniteAutomata.Random.Automaton
