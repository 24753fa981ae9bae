import Camouflage.Binary.Bits
import Camouflage.Json.Expr
import Camouflage.Json.Reader
import Camouflage.Json.Weights
import Camouflage.Json.Writer
import Camouflage.Random.ChaCha
import Camouflage.Synthesis
import Camouflage.Proofs.Outcome
import Camouflage.Proofs.Whole
import Camouflage.Proofs.Rounding
import Camouflage.Proofs.WrappedQuotient
import Camouflage.Proofs.WrittenLiterals
import Camouflage.Proofs.Anchors
import Camouflage.Proofs.Forms
import Camouflage.Proofs.Written
import Camouflage.Proofs.Computed
import Camouflage.Proofs.Readings
import Camouflage.Proofs.WholeNumbers
import Camouflage.Proofs.Disguises
import Camouflage.Proofs.Uniforms
import Camouflage.Proofs.Requests
import Camouflage.Proofs.Refusals
import Camouflage.Proofs.Defects
import Camouflage.Proofs.Integers
import Camouflage.Proofs.Floats
import Camouflage.Proofs.Contexts
import Camouflage.Proofs.LiteralValues
import Camouflage.Proofs.Magnitudes
import Camouflage.Proofs.SingleStrategy
import Camouflage.Proofs.Sizes
import Camouflage.Proofs.Traces
import Camouflage.Proofs.Irrelevance
import Camouflage.Proofs.Lockstep
import Camouflage.Proofs.LeastQuotient
import Camouflage.Proofs.ModularInverse
import Camouflage.Proofs.ClampedIntegers
import Camouflage.Proofs.UnboundedIntegers
import Camouflage.Proofs.WrappedEvaluation
import Camouflage.Proofs.ExactEvaluation
import Camouflage.Proofs.SingleAnchors
import Camouflage.Proofs.KeptNumbers
import Camouflage.Proofs.IntegerReadings
import Camouflage.Proofs.LiteralRange
import Camouflage.Proofs.LiteralCodec
import Camouflage.Proofs.SerializedLayout
import Camouflage.Proofs.SerializedReaders
import Camouflage.Proofs.Serialized
import Camouflage.Proofs.WeightedChoice
import Camouflage.Proofs.UniformDraws
import Camouflage.Proofs.PrintedText
import Camouflage.Proofs.AdjacentSigns
