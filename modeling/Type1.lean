import Type1.Cipher
import Type1.Glyph
import Type1.Proofs.Direct
import Type1.StandardEncoding
import Type1.Proofs.Chunking
import Type1.Proofs.Inlining
import Type1.Proofs.Progress
import Type1.Proofs.Receivers
import Type1.Proofs.Standalone
import Type1.Proofs.Separation
import Type1.Proofs.Renewal
import Type1.Proofs.Checked.Buffer
import Type1.Proofs.Checked.Program
import Type1.Proofs.Checked.Refinement
import Type1.Proofs.Checked.Calculate
import Type1.Proofs.Checked.Operators
import Type1.Proofs.Checked.Input
import Type1.Proofs.Checked.Run
import Type1.Proofs.Checked.Cipher
import Type1.Proofs.Safety
import Type1.Proofs.NewHints
import Type1.Proofs.Rounding
import Type1.Proofs.WidthOnly
import Type1.Proofs.Strokes
import Type1.Proofs.Contours
import Type1.Proofs.PendingMove
import Type1.Proofs.Mapping
import Type1.Proofs.Extension
import Type1.Proofs.Failures
import Type1.Proofs.Width
import Type1.Proofs.Boundaries
import Type1.Proofs.Depth
import Type1.Proofs.Deciphering
import Type1.Proofs.CounterGrammar
import Type1.Proofs.FlexProtocol
import Type1.Proofs.PushedNumbers
import Type1.Proofs.Numerals
import Type1.Proofs.OperandNeeds
import Type1.Proofs.StackBounds
import Type1.Proofs.Blending
import Type1.Proofs.DirectCalls
import Type1.Proofs.Rolling
import Type1.Proofs.StoredValues
import Type1.Proofs.RoundedControls
import Type1.Proofs.AbsolutePoints
import Type1.Proofs.NegativeIndices
import Type1.Proofs.Checked.Positions
