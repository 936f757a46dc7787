import Calculator.LineEditor
import Calculator.Main
import Calculator.Screen.Frame
import Calculator.Proofs.Syntax
import Calculator.Proofs.Reuse
import Calculator.Proofs.Limit
import Calculator.Proofs.Replay
import Calculator.Proofs.Lookahead
import Calculator.Proofs.Observation
import Calculator.Proofs.Session
import Calculator.Proofs.Arithmetic
import Calculator.Proofs.History
import Calculator.Proofs.Listing
import Calculator.Proofs.Newest
import Calculator.Proofs.Recall
import Calculator.Proofs.Keystrokes
import Calculator.Proofs.Joining
import Calculator.Proofs.Unreadable
import Calculator.Proofs.Number.Faithful
import Calculator.Proofs.EchoTokens
import Calculator.Proofs.Highlight
import Calculator.Proofs.Invocation
import Calculator.Proofs.LineHistory
import Calculator.Proofs.LineRecall
import Calculator.Proofs.InputWindow
import Calculator.Proofs.Selection
import Calculator.Proofs.Redraw
import Calculator.Proofs.Keyword
import Calculator.Proofs.WordMotion
import Calculator.Proofs.HelpScroll
