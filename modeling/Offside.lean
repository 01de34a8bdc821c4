import Offside.Main
import Offside.Proofs.Build.Inputs
import Offside.Proofs.Build.Watching
import Offside.Proofs.Compile.Brackets
import Offside.Proofs.Compile.DiagnosticOrder
import Offside.Proofs.Compile.Effects
import Offside.Proofs.Compile.FreshNames
import Offside.Proofs.Compile.HelperNames
import Offside.Proofs.Compile.HelperUse
import Offside.Proofs.Compile.LineBreaks
import Offside.Proofs.Compile.Locality
import Offside.Proofs.Compile.StringValue
import Offside.Proofs.Compile.Targets
import Offside.Proofs.Compile.TrailingSpaces
import Offside.Proofs.Files.Listing
import Offside.Proofs.Grammar.Blocks
import Offside.Proofs.Grammar.Confinement
import Offside.Proofs.Grammar.Precedence
import Offside.Proofs.Grammar.Recovery
import Offside.Proofs.Grammar.Shapes
import Offside.Proofs.Grammar.StatementRoundTrip
import Offside.Proofs.Grammar.Totality
import Offside.Proofs.JavaScript.Structure
import Offside.Proofs.Script.RegexText
import Offside.Proofs.Settings.Extensions
import Offside.Proofs.Token.Balance
import Offside.Proofs.Token.Numbers
