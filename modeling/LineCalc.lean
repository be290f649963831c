import LineCalc.Bindings
import LineCalc.Command.Folder
import LineCalc.Command.Options
import LineCalc.Command.Report
import LineCalc.Command.Run
import LineCalc.Cursor
import LineCalc.Decimal.Literal
import LineCalc.Decimal.Shortest
import LineCalc.Double.Rank
import LineCalc.Double.Remainder
import LineCalc.EditDistance
import LineCalc.Eval
import LineCalc.Expr.Basic
import LineCalc.Expr.Render
import LineCalc.Fault
import LineCalc.Main
import LineCalc.NearestName
import LineCalc.Operator
import LineCalc.Program
import LineCalc.Proofs.Acceptance
import LineCalc.Proofs.Accounting
import LineCalc.Proofs.CallDepth
import LineCalc.Proofs.Causality
import LineCalc.Proofs.Commuting
import LineCalc.Proofs.Cutting
import LineCalc.Proofs.Decomposition
import LineCalc.Proofs.Dialogue
import LineCalc.Proofs.Disambiguation
import LineCalc.Proofs.DistanceTable
import LineCalc.Proofs.DoubleValue
import LineCalc.Proofs.EditSequences
import LineCalc.Proofs.Effects
import LineCalc.Proofs.Evaluation
import LineCalc.Proofs.FaultOrigins
import LineCalc.Proofs.Footprint
import LineCalc.Proofs.Foresight
import LineCalc.Proofs.Frame
import LineCalc.Proofs.Grammar
import LineCalc.Proofs.History
import LineCalc.Proofs.InOrder
import LineCalc.Proofs.InputModes
import LineCalc.Proofs.Joining
import LineCalc.Proofs.KeepGoing
import LineCalc.Proofs.Layout
import LineCalc.Proofs.LineEnds
import LineCalc.Proofs.Literals
import LineCalc.Proofs.Meaning
import LineCalc.Proofs.Metric
import LineCalc.Proofs.NearestNames
import LineCalc.Proofs.NestingLimit
import LineCalc.Proofs.NothingToEvaluate
import LineCalc.Proofs.OutputLines
import LineCalc.Proofs.Parentheses
import LineCalc.Proofs.Positions
import LineCalc.Proofs.Printing
import LineCalc.Proofs.Progress
import LineCalc.Proofs.ReadBack
import LineCalc.Proofs.Reading
import LineCalc.Proofs.Recursion
import LineCalc.Proofs.Rendering
import LineCalc.Proofs.RoundTrip
import LineCalc.Proofs.Rounding
import LineCalc.Proofs.SameBindings
import LineCalc.Proofs.Scanning
import LineCalc.Proofs.Surface
import LineCalc.Proofs.ViablePrefix
import LineCalc.Session
import LineCalc.Text.Blank
import LineCalc.Text.Bytes
import LineCalc.Text.Lines
import LineCalc.Text.Sorted
import LineCalc.Token.Basic
import LineCalc.Token.Scan
