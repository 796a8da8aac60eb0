import MacroBasic.Host.Recorder
import MacroBasic.Main
import MacroBasic.Source.Stream
import MacroBasic.Proofs.Grammar.Precedence
import MacroBasic.Proofs.Program.Calls
import MacroBasic.Proofs.Program.Scoping
import MacroBasic.Proofs.Program.Cancellation
import MacroBasic.Proofs.Program.Replay
import MacroBasic.Proofs.Grammar.Pushes
import MacroBasic.Proofs.Program.Plain
import MacroBasic.Proofs.Symbol.Scanning
import MacroBasic.Proofs.Program.Normalization
import MacroBasic.Proofs.Program.Results
import MacroBasic.Proofs.Program.Explicit
import MacroBasic.Proofs.Program.Branches
import MacroBasic.Proofs.Program.Lifecycle
import MacroBasic.Proofs.Program.Frames
import MacroBasic.Proofs.Source.Reader
import MacroBasic.Proofs.Terminal.Updates
import MacroBasic.Proofs.Program.Refusals
import MacroBasic.Proofs.Grammar.Synonyms
import MacroBasic.Proofs.Program.OneLine
import MacroBasic.Proofs.Program.Blame
import MacroBasic.Proofs.Program.Respelling
import MacroBasic.Proofs.Symbol.Quoting
import MacroBasic.Proofs.Value.Numerals
import MacroBasic.Proofs.Scopes.Enclosure
