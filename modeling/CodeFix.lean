import CodeFix.Diagnostic
import CodeFix.Main
import CodeFix.Proofs.Fix.Fidelity
import CodeFix.Proofs.Fix.Runs
import CodeFix.Proofs.Identity
import CodeFix.Proofs.Syntax.Lowering
import CodeFix.Proofs.Syntax.Covering
import CodeFix.Proofs.Fix.Position
import CodeFix.Proofs.Attribute.Identity
import CodeFix.Proofs.Solution.Ownership
import CodeFix.Proofs.Fix.History
import CodeFix.Proofs.Attribute.Exchange
import CodeFix.Proofs.Semantic.Reading
import CodeFix.Proofs.Semantic.Reindexing
import CodeFix.Proofs.Fix.Convergence
import CodeFix.Proofs.Fix.Independence
import CodeFix.Proofs.Solution.View
import CodeFix.Proofs.Fix.Additions
import CodeFix.Proofs.Fix.PayloadForms
import CodeFix.Proofs.Text.Basic
import CodeFix.Proofs.Text.Spaced
import CodeFix.Proofs.Semantic.TypeName
import CodeFix.Proofs.Disk
import CodeFix.Proofs.Workspace
import CodeFix.Proofs.Cli.Files
import CodeFix.Proofs.Cli.Preview
import CodeFix.Proofs.Attribute.Scope
import CodeFix.Proofs.Attribute.Lists
import CodeFix.Proofs.Syntax.Alike
import CodeFix.Proofs.Attribute.Renumbering
import CodeFix.Proofs.Solution.Twins
import CodeFix.Proofs.Fix.Repetition
import CodeFix.Proofs.Syntax.Place
import CodeFix.Proofs.Syntax.Splice
import CodeFix.Proofs.Text.Position
import CodeFix.Proofs.Layout.Separation
import CodeFix.Proofs.Syntax.Occurrence
import CodeFix.Proofs.Syntax.Fork
import CodeFix.Proofs.Fix.LineBreaks
import CodeFix.Proofs.Solution.PathOrder
import CodeFix.Proofs.Semantic.References
import CodeFix.Proofs.Semantic.Agreement
import CodeFix.Proofs.Fix.Fetched
import CodeFix.Proofs.Solution.Tracking
import CodeFix.Proofs.Cli.Location
import CodeFix.Proofs.Fix.Versions
import CodeFix.Proofs.Semantic.AttributeSpelling
import CodeFix.Proofs.Attribute.SharedLine
import CodeFix.Proofs.Settings.Layers
import CodeFix.Proofs.Syntax.LeadingTrivia
import CodeFix.Proofs.Fix.Routing
import CodeFix.Proofs.CSharp.Grammar
import CodeFix.Proofs.Workspace.Loading
