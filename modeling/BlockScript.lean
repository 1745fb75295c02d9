import BlockScript.Proofs.Analysis.Analyzer
import BlockScript.Proofs.Declarations.Order
import BlockScript.Proofs.Isolation.Calls
import BlockScript.Proofs.Isolation.Session
import BlockScript.Proofs.Lexing.Fault
import BlockScript.Proofs.Lexing.Tokenization
import BlockScript.Proofs.Lists.Size
import BlockScript.Proofs.Output.Limit
import BlockScript.Proofs.Rendered
import BlockScript.Proofs.Syntax.Derivation.Accepts
import BlockScript.Proofs.Syntax.Failure.Program
import BlockScript.Proofs.Syntax.Failure.Literals
import BlockScript.Proofs.Syntax.Positions
import BlockScript.Script
import BlockScript.Tree.Equal
import BlockScript.Proofs.Scopes.Order
import BlockScript.Proofs.Scopes.Sight
import BlockScript.Proofs.Isolation.Assignment
import BlockScript.Proofs.Syntax.Normal
import BlockScript.Proofs.Syntax.Tokens
import BlockScript.Proofs.Blocks.SelfAssignment
import BlockScript.Proofs.Blocks.Return
import BlockScript.Proofs.Blocks.Switch
import BlockScript.Proofs.Syntax.Operators
import BlockScript.Proofs.Values.Congruence
import BlockScript.Proofs.Typing.Located.Program
import BlockScript.Proofs.Number.Power
