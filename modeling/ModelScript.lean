import ModelScript.Build.Report
import ModelScript.Config.Load
import ModelScript.Context.Json
import ModelScript.Main
import ModelScript.Proofs.Build.Discovery
import ModelScript.Proofs.Build.Outputs
import ModelScript.Proofs.Build.Reporting
import ModelScript.Proofs.Config.Loading
import ModelScript.Proofs.Config.Output
import ModelScript.Proofs.Context.Recovery
import ModelScript.Proofs.Context.Separation
import ModelScript.Proofs.Expression.Leftover
import ModelScript.Proofs.Expression.Losses
import ModelScript.Proofs.Expression.Ranges
import ModelScript.Proofs.Expression.Separated
import ModelScript.Proofs.Expression.Templated
import ModelScript.Proofs.Expression.Unbroken
import ModelScript.Proofs.Lookup.Compile
import ModelScript.Proofs.Reading.Wording
import ModelScript.Proofs.Scope.Joining
import ModelScript.Proofs.Scope.Matching
import ModelScript.Proofs.Statement.Concatenation
import ModelScript.Proofs.Statement.Counting
import ModelScript.Proofs.Statement.ElseIf
import ModelScript.Proofs.Statement.Embedding
import ModelScript.Proofs.Statement.Extent
import ModelScript.Proofs.Statement.Nesting
import ModelScript.Proofs.Statement.Order
import ModelScript.Proofs.Statement.Parameters
import ModelScript.Proofs.Statement.RoundTrip
import ModelScript.Proofs.Template.Dispatch
import ModelScript.Proofs.Text.Splitting
import ModelScript.Proofs.Token.Advancing
import ModelScript.Proofs.Token.Lines
import ModelScript.Proofs.Token.Position
import ModelScript.Proofs.Token.Reserved
import ModelScript.Proofs.Token.Returns
import ModelScript.Proofs.Token.Spelling
