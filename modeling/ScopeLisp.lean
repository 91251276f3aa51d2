import ScopeLisp.CommandLine.Simulation
import ScopeLisp.Main
import ScopeLisp.Proofs.DepthLimit
import ScopeLisp.Proofs.LexicalDependence
import ScopeLisp.Proofs.Parsing
import ScopeLisp.Proofs.WriteIsolation
import ScopeLisp.Proofs.Positions
import ScopeLisp.Proofs.StoreGrowth
import ScopeLisp.Proofs.Coupling
import ScopeLisp.Proofs.LexemeEnds
import ScopeLisp.Proofs.ProgramReading
import ScopeLisp.Proofs.Concatenation
import ScopeLisp.Proofs.Decimals
import ScopeLisp.Proofs.Atoms
import ScopeLisp.Proofs.Rendering
import ScopeLisp.Proofs.RoundTrip
import ScopeLisp.Proofs.ScopeLaws
import ScopeLisp.Proofs.Truncation
import ScopeLisp.Proofs.ViablePrefixes
import ScopeLisp.Proofs.CyclicRendering
import ScopeLisp.Proofs.Watching
import ScopeLisp.Proofs.ProperLists
import ScopeLisp.Proofs.NestingCounter
import ScopeLisp.Proofs.HostLoops
import ScopeLisp.Proofs.RunOnAtoms
import ScopeLisp.Proofs.JsonNumbers
import ScopeLisp.Proofs.JsonTexts
import ScopeLisp.Proofs.TokenDumps
import ScopeLisp.Proofs.TokenPatterns
import ScopeLisp.Proofs.LongestMatch
import ScopeLisp.Proofs.ParserCalls
import ScopeLisp.Proofs.LookingAhead
import ScopeLisp.Proofs.Expansion
import ScopeLisp.Proofs.CallFrames
import ScopeLisp.Proofs.ArityChecks
import ScopeLisp.Proofs.ExpressionListing
import ScopeLisp.Proofs.Tracing
import ScopeLisp.Proofs.Installation
import ScopeLisp.Proofs.Sameness
import ScopeLisp.Proofs.ScannerCalls
import ScopeLisp.Proofs.UnsignedNumbers
