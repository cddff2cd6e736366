import JavaFold.Config
import JavaFold.Pass.FixedPoint
import JavaFold.Pass.Blocks
import JavaFold.Program.Evaluation
import JavaFold.Program.Words
import JavaFold.Program.Unit.Parser
import JavaFold.Program.Unit.Printer
import JavaFold.Tree.Links
import JavaFold.Tree.Following
import JavaFold.Tree.Program
import JavaFold.Tree.Text
import JavaFold.Program.Indexed
import JavaFold.Files.Access
import JavaFold.Files.Folding
import JavaFold.Files.Search
import JavaFold.Files.Store
import JavaFold.CommandLine.Arguments
import JavaFold.CommandLine.Run
import JavaFold.Main
import JavaFold.Proofs.Tree.Reachable
import JavaFold.Proofs.Pass.Hygiene
import JavaFold.Proofs.Pass.FixedPoint
import JavaFold.Proofs.Source.Utf8
import JavaFold.Proofs.Folding.Again
import JavaFold.Proofs.Folding.Format
import JavaFold.Proofs.Token.Tiling
import JavaFold.Proofs.Token.Lines
import JavaFold.Proofs.Program.Skeleton
import JavaFold.Proofs.Program.Grammar.Accepted
import JavaFold.Proofs.Program.Grammar.Canonical
import JavaFold.Proofs.Tree.Generations
import JavaFold.Proofs.Tree.History
import JavaFold.Proofs.Files.Orders
import JavaFold.Proofs.Tree.Layouts
import JavaFold.Proofs.Visits
import JavaFold.Proofs.Pass.Changed
import JavaFold.Proofs.Program.Grammar.Depth
import JavaFold.Proofs.Files.Mirror
import JavaFold.Proofs.Program.Indexed.Unit
import JavaFold.Proofs.Pass.Flattening
import JavaFold.Proofs.Pass.Constants.Swaps
import JavaFold.Proofs.Pass.Constants.Concatenation
import JavaFold.Proofs.Pass.Constants.Converted
import JavaFold.Proofs.Folding.Attached
import JavaFold.Proofs.Pass.Constants.References
import JavaFold.Proofs.Token.Spaced
import JavaFold.Proofs.Program.Problems
import JavaFold.Proofs.Program.Nesting
import JavaFold.Proofs.Tree.Freeing
import JavaFold.Proofs.Tree.Copying
import JavaFold.Proofs.Tree.Links
import JavaFold.Proofs.Program.Arithmetic
import JavaFold.Proofs.Tree.Descendants
import JavaFold.Proofs.Tree.SameShape
import JavaFold.Proofs.CommandLine.Discovery
import JavaFold.Proofs.Pass.Constants.Moments
