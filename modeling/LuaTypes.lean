import LuaTypes.CommandLine.Invocation
import LuaTypes.Inference.Plain
import LuaTypes.Inference.Request
import LuaTypes.Json.Reader
import LuaTypes.Json.Writer
import LuaTypes.Main
import LuaTypes.Member.Walk
import LuaTypes.Proofs.Agreement
import LuaTypes.Proofs.BestClass
import LuaTypes.Proofs.CallSyntax
import LuaTypes.Proofs.ChunkExtension
import LuaTypes.Proofs.ClosedChunks
import LuaTypes.Proofs.DepthLimit
import LuaTypes.Proofs.DocumentRoundTrip
import LuaTypes.Proofs.ExpressionLists
import LuaTypes.Proofs.GenericBases
import LuaTypes.Proofs.GenericMatching
import LuaTypes.Proofs.HistoryIndependence
import LuaTypes.Proofs.IdleSubstitution
import LuaTypes.Proofs.IndexLog
import LuaTypes.Proofs.Likeness
import LuaTypes.Proofs.LinkHistory
import LuaTypes.Proofs.LinkPlaces
import LuaTypes.Proofs.MethodSearch
import LuaTypes.Proofs.PartialResults
import LuaTypes.Proofs.Provenance
import LuaTypes.Proofs.RankOrder
import LuaTypes.Proofs.RebuiltTypes
import LuaTypes.Proofs.ReplacedOperations
import LuaTypes.Proofs.SameTypes
import LuaTypes.Proofs.ScopedSearch
import LuaTypes.Proofs.SettingsLayers
import LuaTypes.Proofs.SortedUnions
import LuaTypes.Proofs.SubstitutionLaws
import LuaTypes.Proofs.SubtypeOrder
import LuaTypes.Proofs.SubtypeUnions
import LuaTypes.Proofs.Superclasses
import LuaTypes.Proofs.Termination
import LuaTypes.Proofs.UnavailableIndex
import LuaTypes.Proofs.UnionConstruction
import LuaTypes.Settings.Resolution
import LuaTypes.Subtype.Check
import LuaTypes.Ty.Leaves
import LuaTypes.Ty.Matching
import LuaTypes.Ty.TopClass
import LuaTypes.Ty.WellFormed
import LuaTypes.TypeNode.Document
import LuaTypes.Workspace
