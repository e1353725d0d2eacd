import NormalTower.Level
import NormalTower.Packed.Basic
import NormalTower.Packed.Arith
import NormalTower.Text.Numeral
import NormalTower.Text.Layout
import NormalTower.Text.Directive
import NormalTower.Json.Basic
import NormalTower.Json.Decimal
import NormalTower.Json.Byte
import NormalTower.Element.OutOfRange
import NormalTower.Element.Basic
import NormalTower.Element.Codec
import NormalTower.Element.Text
import NormalTower.Sharing.Draw
import NormalTower.Sharing.Basic
import NormalTower.Sharing.And
import NormalTower.Sharing.Arith
import NormalTower.Sharing.Text
import NormalTower.Program.Arithmetic
import NormalTower.Program.Registers
import NormalTower.Program.Gate
import NormalTower.Program.Elements
import NormalTower.Program.Sharings
import NormalTower.Proofs.Bits
import NormalTower.Proofs.Packed.Linear
import NormalTower.Proofs.Packed.Width
import NormalTower.Proofs.Sharing.Window
import NormalTower.Proofs.Sharing.Recombine
import NormalTower.Proofs.Sharing.And
import NormalTower.Proofs.Sharing.Masked
import NormalTower.Proofs.Sharing.Uniform
import NormalTower.Proofs.Program.Secrets
import NormalTower.Proofs.Element.Coordinates
import NormalTower.Proofs.Element.Field
import NormalTower.Proofs.Element.Products
import NormalTower.Proofs.Element.Expression
import NormalTower.Proofs.PolynomialBasis
import NormalTower.Proofs.Sharing.Probing
import NormalTower.Proofs.Sharing.Fresh
import NormalTower.Proofs.Program.Draws
import NormalTower.Proofs.Program.Readings
import NormalTower.Proofs.Program.Typing
import NormalTower.Proofs.Program.Failures
import NormalTower.Proofs.Program.Range
import NormalTower.Proofs.Packed.Stray
import NormalTower.Proofs.Program.StraightLine
import NormalTower.Proofs.Sharing.Positions
import NormalTower.Proofs.Sharing.StrayBits
import NormalTower.Proofs.Element.Powers
import NormalTower.Proofs.Element.Subfield
import NormalTower.Proofs.Element.Logarithm
import NormalTower.Proofs.Json.Byte
import NormalTower.Proofs.Element.Codec
import NormalTower.Proofs.Program.Shortcuts
import NormalTower.Proofs.Element.Frobenius
import NormalTower.Proofs.Program.InPlace
import NormalTower.Proofs.Text.Padding
import NormalTower.Proofs.Element.Text
import NormalTower.Proofs.Sharing.ShareWise
