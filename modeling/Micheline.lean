import Micheline.Buffer.Program
import Micheline.Expr.Assembly
import Micheline.Main
import Micheline.Proofs.Buffer
import Micheline.Proofs.Buffer.Program
import Micheline.Proofs.Decimal
import Micheline.Proofs.Expr.Traversal
import Micheline.Proofs.Expr.Assembly
import Micheline.Proofs.Pack.Write
import Micheline.Proofs.Pack.Fault
import Micheline.Proofs.Pack.Layout
import Micheline.Proofs.Expr.Similar
import Micheline.Proofs.Pack.Number
import Micheline.Proofs.Pack.Number.Reading
import Micheline.Proofs.Pack.Readable
import Micheline.Proofs.Base58
import Micheline.Proofs.Identifier
import Micheline.Proofs.Base58.Acceptance
import Micheline.Proofs.Base58.Numeral
import Micheline.Proofs.Identifier.Appearance
import Micheline.Proofs.Account
import Micheline.Proofs.Address
import Micheline.Proofs.Address.Order
import Micheline.Proofs.Address.Acceptance
import Micheline.Proofs.Json.Text
import Micheline.Proofs.Json.Printer
import Micheline.Proofs.Json.Distinct
import Micheline.Proofs.Json.Ending
import Micheline.Proofs.Expr.Json
import Micheline.Proofs.Address.Appearance
import Micheline.Proofs.Decimal.Denotation
import Micheline.Proofs.Hex
import Micheline.Proofs.Pack.Literal
import Micheline.Proofs.Pack.Error
import Micheline.Proofs.Text.Utf8
import Micheline.Proofs.Text.Quoted
import Micheline.Proofs.Expr.Normal
import Micheline.Proofs.Expr.Rearranged
import Micheline.Proofs.Pack.Limit
import Micheline.Proofs.CommandLine.Words
import Micheline.Proofs.CommandLine.Invocation
import Micheline.Proofs.CommandLine.Report
import Micheline.Proofs.CommandLine
