import FormulaDrawing.Disk.Tree
import FormulaDrawing.Main
import FormulaDrawing.Number.Significant
import FormulaDrawing.Text.Base64
import FormulaDrawing.Proofs.Expression.Acceptance
import FormulaDrawing.Proofs.Expression.Ending
import FormulaDrawing.Proofs.Expression.Refusal
import FormulaDrawing.Proofs.Expression.Sandbox
import FormulaDrawing.Proofs.Drawing.Branch
import FormulaDrawing.Proofs.Drawing.Growth
import FormulaDrawing.Proofs.Markup.Entity
import FormulaDrawing.Proofs.Drawing.RoundTrip
import FormulaDrawing.Proofs.Drawing.Change
import FormulaDrawing.Proofs.Drawing.Rebuilding
import FormulaDrawing.Proofs.Substitution.Recursion
import FormulaDrawing.Proofs.Substitution.Planning
import FormulaDrawing.Proofs.Substitution.Refinement
import FormulaDrawing.Proofs.Attempt
import FormulaDrawing.Proofs.Text.Part
import FormulaDrawing.Proofs.Artifact.Ambiguity
import FormulaDrawing.Proofs.Artifact.Custody
import FormulaDrawing.Proofs.Engine.Readiness
import FormulaDrawing.Proofs.Engine.Supersession
import FormulaDrawing.Proofs.Drawing.Class
import FormulaDrawing.Proofs.Substitution.Faithfulness
import FormulaDrawing.Proofs.Binding.Resolution
import FormulaDrawing.Proofs.Engine.Starvation
import FormulaDrawing.Proofs.Template.History
import FormulaDrawing.Proofs.Template.Company
import FormulaDrawing.Proofs.Template.Sharing
import FormulaDrawing.Proofs.Engine.Isolation
import FormulaDrawing.Proofs.Engine.Interruption
import FormulaDrawing.Proofs.Substitution.Namesakes
import FormulaDrawing.Proofs.Engine.Numerals
import FormulaDrawing.Proofs.Substitution.Rereading
import FormulaDrawing.Proofs.Expression.Printing
import FormulaDrawing.Proofs.Binding.Precedence
import FormulaDrawing.Proofs.Drawing.Edits
import FormulaDrawing.Proofs.Drawing.Verdict
import FormulaDrawing.Proofs.Drawing.Order
import FormulaDrawing.Proofs.Price
import FormulaDrawing.Proofs.Template.Accounting
import FormulaDrawing.Proofs.Substitution.Styling
import FormulaDrawing.Proofs.Expression.Nesting
import FormulaDrawing.Proofs.Style.Resolution
import FormulaDrawing.Proofs.Position
import FormulaDrawing.Proofs.Template.Name
import FormulaDrawing.Proofs.Drawing.Loop
