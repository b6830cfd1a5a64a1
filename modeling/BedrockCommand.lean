import BedrockCommand.Main
import BedrockCommand.Proofs.Argument.Integer
import BedrockCommand.Proofs.Diagnostic.RoundTrip
import BedrockCommand.Proofs.Json.Embedded
import BedrockCommand.Proofs.Json.Shape
import BedrockCommand.Proofs.Reader.Bounds
import BedrockCommand.Proofs.Reader.Quoted
import BedrockCommand.Proofs.Rule.List
import BedrockCommand.Proofs.Rule.Separator
import BedrockCommand.Proofs.Selector.Exact
import BedrockCommand.Proofs.Tokenize.Abbreviation
import BedrockCommand.Proofs.Tokenize.Coverage
import BedrockCommand.Proofs.Tokenize.Diagnostics
import BedrockCommand.Proofs.Tokenize.Execute
import BedrockCommand.Proofs.Tokenize.Final
import BedrockCommand.Proofs.Tokenize.Frame
import BedrockCommand.Proofs.Tokenize.Nesting
import BedrockCommand.Proofs.Tokenize.Nonempty
import BedrockCommand.Proofs.Tokenize.Offsets
import BedrockCommand.Proofs.Tokenize.Padding
import BedrockCommand.Proofs.Tokenize.Placeholder
import BedrockCommand.Proofs.Tokenize.Positions
import BedrockCommand.Proofs.Tokenize.Upgrade
import BedrockCommand.Proofs.Tokenize.Versions
import BedrockCommand.Proofs.Version.Dispatch
import BedrockCommand.Proofs.Version.Profile
import BedrockCommand.Proofs.Version.Text
