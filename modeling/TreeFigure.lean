import TreeFigure.Directory
import TreeFigure.Main
import TreeFigure.Store
import TreeFigure.Tree.Bracketed
import TreeFigure.Proofs.Text.Runs
import TreeFigure.Proofs.Tree.Lexing
import TreeFigure.Proofs.Tree.Seams
import TreeFigure.Proofs.Tree.Syntax
import TreeFigure.Proofs.Tree.Depth
import TreeFigure.Proofs.Tree.Grammar
import TreeFigure.Proofs.Tree.Completion
import TreeFigure.Proofs.Text.Substitution
import TreeFigure.Proofs.Literal.Reversible
import TreeFigure.Proofs.Literal.Hiding
import TreeFigure.Proofs.Literal.Bijection
import TreeFigure.Proofs.Tree.Renaming
import TreeFigure.Proofs.Tree.Texts
import TreeFigure.Proofs.Literal.OnePass
import TreeFigure.Proofs.Source.Lines
import TreeFigure.Proofs.Source.Reading
import TreeFigure.Proofs.Tree.Canonical
import TreeFigure.Proofs.Literal.Bracketed
import TreeFigure.Proofs.Literal.Writing
import TreeFigure.Proofs.Record
import TreeFigure.Proofs.Text.Splitting
import TreeFigure.Proofs.Record.Fields
import TreeFigure.Proofs.Drawing.Loading
import TreeFigure.Proofs.Drawing.Selection
import TreeFigure.Proofs.Tex.Fragment
import TreeFigure.Proofs.Tex.Escaping
import TreeFigure.Proofs.Figure.Diagram
import TreeFigure.Proofs.Figure.Document
import TreeFigure.Proofs.Tex.Unescaping
import TreeFigure.Proofs.Tree.Legible
import TreeFigure.Proofs.Figure.Notation
import TreeFigure.Proofs.Figure.Recovery
import TreeFigure.Proofs.Text.Occurrences
import TreeFigure.Proofs.Figure.Decoration
import TreeFigure.Proofs.Figure.Anchors
import TreeFigure.Proofs.Files.Lawful
import TreeFigure.Proofs.Drawing.Effect
import TreeFigure.Proofs.Files.Puts
import TreeFigure.Proofs.Drawing.Sequence
import TreeFigure.Proofs.Files.Directory
import TreeFigure.Proofs.Figure.Spacing
import TreeFigure.Proofs.Settings.Field
import TreeFigure.Proofs.Settings.Variables
import TreeFigure.Proofs.Settings.Layers
import TreeFigure.Proofs.Drawing.Trouble
import TreeFigure.Proofs.Command.Reading
import TreeFigure.Proofs.Command.Effect
import TreeFigure.Proofs.Command.Dispatch
import TreeFigure.Proofs.Toml.Escaping
import TreeFigure.Proofs.Toml.Numbers
import TreeFigure.Proofs.Toml.Quoting
import TreeFigure.Proofs.Toml.Statements
import TreeFigure.Proofs.Settings.Expansion
import TreeFigure.Proofs.Settings.Written
import TreeFigure.Proofs.Tex.Stretches
import TreeFigure.Proofs.Decimal.Nearest
import TreeFigure.Proofs.Figure.Rows
import TreeFigure.Proofs.Tree.Places
import TreeFigure.Proofs.Tree.Preorder
import TreeFigure.Proofs.Tree.LeafPositions
import TreeFigure.Proofs.Tree.Height
import TreeFigure.Proofs.Tree.Shape
import TreeFigure.Proofs.Tree.Coverage
import TreeFigure.Proofs.Outline.Lines
import TreeFigure.Proofs.Outline.Recovery
import TreeFigure.Proofs.Figure.Lines
import TreeFigure.Proofs.Figure.Breaking
import TreeFigure.Proofs.Figure.Overrun
import TreeFigure.Proofs.Figure.Widening
import TreeFigure.Proofs.Source.Encoded
import TreeFigure.Proofs.Figure.Bars
import TreeFigure.Proofs.Drawing.Overwriting
