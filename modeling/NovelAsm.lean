import NovelAsm.Main
import NovelAsm.Proofs.Resolve.Visible
import NovelAsm.Proofs.Session.Incremental
import NovelAsm.Proofs.Code.Codec
import NovelAsm.Proofs.Code.Linking
import NovelAsm.Proofs.Expr.Evaluation
import NovelAsm.Proofs.Expr.Balanced
import NovelAsm.Proofs.Expr.Folding
import NovelAsm.Proofs.CodeUnit.Conditions
import NovelAsm.Proofs.CodeUnit.Forms
import NovelAsm.Proofs.Code.DecodesBack
import NovelAsm.Proofs.Code.SelfDelimiting
import NovelAsm.Proofs.Code.Sweep
import NovelAsm.Proofs.Erasure.Code
import NovelAsm.Proofs.Erasure.Declarations
import NovelAsm.Proofs.Layout.Comments
import NovelAsm.Proofs.Layout.Listing
import NovelAsm.Proofs.Literals
import NovelAsm.Proofs.Numerals
import NovelAsm.Proofs.Resolve.Duplicates
import NovelAsm.Proofs.Segment.Places
import NovelAsm.Proofs.Session.WholeFile
import NovelAsm.Proofs.SyntaxTree.Lossless
import NovelAsm.Proofs.Token.Places
import NovelAsm.Proofs.Code.Placement
import NovelAsm.Proofs.Code.References
import NovelAsm.Proofs.CodeUnit.Complete
import NovelAsm.Proofs.CodeUnit.Written
import NovelAsm.Proofs.CodeUnit.Preservation
import NovelAsm.Proofs.CodeUnit.Targets
import NovelAsm.Proofs.Resolve.Declared
import NovelAsm.Proofs.Session.References
import NovelAsm.Proofs.SyntaxTree.Productions
import NovelAsm.Proofs.CodeUnit.Canonical
import NovelAsm.Proofs.Disassembly.Formulas
import NovelAsm.Proofs.Disassembly.Instructions
import NovelAsm.Proofs.Disassembly.Labels
import NovelAsm.Proofs.Disassembly.Lowering
import NovelAsm.Proofs.Disassembly.Expressions
import NovelAsm.Proofs.Disassembly.Constants
import NovelAsm.Proofs.Disassembly.RoundTrip
import NovelAsm.Proofs.Resolve.LeastSolution
import NovelAsm.Proofs.Session.Positions
import NovelAsm.Proofs.Session.Tallies
import NovelAsm.Proofs.Resolve.Signature
import NovelAsm.Proofs.Code.JumpTables
import NovelAsm.Proofs.Resolve.Mentioned
import NovelAsm.Proofs.SyntaxTree.Grammar
import NovelAsm.Proofs.SyntaxTree.Rebased
import NovelAsm.Proofs.Code.NormalForm
import NovelAsm.Proofs.Renaming.Invariance
import NovelAsm.Proofs.Code.NumberForms
import NovelAsm.Proofs.Token.Quoted
import NovelAsm.Proofs.Disassembly.Accounts
import NovelAsm.Proofs.CommandLine.Files
import NovelAsm.Proofs.CommandLine.Runs
