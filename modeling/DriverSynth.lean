import DriverSynth.Decimal.Shortest
import DriverSynth.Doc.Basic
import DriverSynth.Doc.Write
import DriverSynth.Doc.Read
import DriverSynth.Doc.Query
import DriverSynth.Fault
import DriverSynth.Ty.Basic
import DriverSynth.Ty.Subst
import DriverSynth.Ty.Doc
import DriverSynth.Link
import DriverSynth.Fuzz
import DriverSynth.Signature
import DriverSynth.Catalog
import DriverSynth.Graph
import DriverSynth.Session
import DriverSynth.Sequence.Basic
import DriverSynth.Sequence.Budget
import DriverSynth.Sequence.Admit
import DriverSynth.Random.Twister
import DriverSynth.Search.Config
import DriverSynth.Search.Basic
import DriverSynth.Search.Reverse
import DriverSynth.Search.Replay
import DriverSynth.Search.Generate
import DriverSynth.Select
import DriverSynth.Format.Catalog
import DriverSynth.Format.Settings
import DriverSynth.Format.Sequences
import DriverSynth.Store
import DriverSynth.Explore
import DriverSynth.Proofs.Admission
import DriverSynth.Proofs.Pool
import DriverSynth.Proofs.Replay
import DriverSynth.Proofs.DocText
import DriverSynth.Proofs.TypeDoc
import DriverSynth.Proofs.CatalogBuild
import DriverSynth.Proofs.CatalogText
import DriverSynth.Proofs.CatalogRun
import DriverSynth.Proofs.FuzzBounds
import DriverSynth.Proofs.Ending
import DriverSynth.Proofs.Constructible
import DriverSynth.Proofs.ReverseLinear
import DriverSynth.Proofs.ReverseComplete
import DriverSynth.Proofs.ReverseCache
import DriverSynth.Proofs.Selection
import DriverSynth.Proofs.Breadth
import DriverSynth.Proofs.FastBreadth
import DriverSynth.Proofs.MergeAlgebra
import DriverSynth.Proofs.Budget
import DriverSynth.Proofs.FuzzSizes
import DriverSynth.Proofs.SelectionCoverage
import DriverSynth.Proofs.Substitution
import DriverSynth.Proofs.SeedReplay
import DriverSynth.Proofs.Visibility
import DriverSynth.Proofs.CorpusFrequency
import DriverSynth.Proofs.ReverseBatch
import DriverSynth.Proofs.PerFunctionSelection
import DriverSynth.Proofs.CoverageRepair
import DriverSynth.Proofs.ConstructibleFixpoint
import DriverSynth.Proofs.ReverseDepth
