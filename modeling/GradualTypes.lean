import GradualTypes.StringTable
import GradualTypes.TypeTable
import GradualTypes.LogFormat
import GradualTypes.Main
import GradualTypes.Proofs.TypeTrees
import GradualTypes.Proofs.Associations
import GradualTypes.Proofs.Unfolding
import GradualTypes.Proofs.Unrolling
import GradualTypes.Proofs.MatchRules
import GradualTypes.Proofs.MatchOrder
import GradualTypes.Proofs.Precision
import GradualTypes.Proofs.Parallel
import GradualTypes.Proofs.Cutoff
import GradualTypes.Proofs.Lowering
import GradualTypes.Proofs.AliasTransparency
import GradualTypes.Proofs.Ancestry
import GradualTypes.Proofs.ResolutionOrder
import GradualTypes.Proofs.Installation
import GradualTypes.Proofs.Representation
import GradualTypes.Proofs.Satisfaction
import GradualTypes.Proofs.NominalQueries
import GradualTypes.Proofs.Subclasses
import GradualTypes.Proofs.Linking
import GradualTypes.Proofs.Mentions
import GradualTypes.Proofs.Phases
import GradualTypes.Proofs.Acceptance
import GradualTypes.Proofs.Agreement
import GradualTypes.Proofs.Conservation
import GradualTypes.Proofs.OrderRuns
import GradualTypes.Proofs.Enrichment
import GradualTypes.Proofs.MatchCalls
import GradualTypes.Proofs.JsonText
import GradualTypes.Proofs.RoundTrip
import GradualTypes.Proofs.UnionMembers
import GradualTypes.Proofs.SharedNodes
import GradualTypes.Proofs.NodeRequests
import GradualTypes.Proofs.HandleTrees
import GradualTypes.Proofs.Renaming
import GradualTypes.Proofs.RenamedMatch
import GradualTypes.Proofs.DeclarationOrder
import GradualTypes.Proofs.ConsistentOrder
import GradualTypes.Proofs.UnionLeaves
import GradualTypes.Proofs.SharedStrings
import GradualTypes.Proofs.QueryRuns
import GradualTypes.Proofs.Chains
import GradualTypes.Proofs.NamelessClasses
import GradualTypes.Proofs.OpenTypes
import GradualTypes.Proofs.Denotation
import GradualTypes.Proofs.CommonAncestors
import GradualTypes.Proofs.ArgumentScan
import GradualTypes.Proofs.InputChoice
import GradualTypes.Proofs.Preorder
import GradualTypes.Proofs.CycleGuard
import GradualTypes.Proofs.Spelling
import GradualTypes.Proofs.NameWords
import GradualTypes.Proofs.ReportLines
