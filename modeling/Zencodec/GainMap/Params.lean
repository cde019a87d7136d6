/-
Gain-map parameters, and the fractions that carry them on the wire.

Gains and headrooms are in the log2 domain, gamma and offsets are linear.  The
floating-point type and its conversions from and to fractions are a parameter
(`Float64`): nothing here depends on how they round.
-/
import Zencodec.Lib.Slices

namespace Zencodec

namespace GainMap

/-- A signed rational. -/
structure Fraction where
  numerator : Int32
  denominator : UInt32
  deriving DecidableEq

/-- An unsigned rational. -/
structure UFraction where
  numerator : UInt32
  denominator : UInt32
  deriving DecidableEq

/-- What the code uses of `f64`. -/
class Float64 (ν : Type) extends BEq ν where
  zero : ν
  one : ν
  sixtyFourth : ν
  /-- `Fraction::to_f64` -/
  ofFraction : Fraction → ν
  /-- `UFraction::to_f64` -/
  ofUFraction : UFraction → ν
  /-- `Fraction::from_f64_cf` -/
  toFraction : ν → Fraction
  /-- `UFraction::from_f64_cf` -/
  toUFraction : ν → UFraction

/-- The parameters of one channel. -/
structure GainMapChannel (ν : Type) where
  min : ν
  max : ν
  gamma : ν
  baseOffset : ν
  alternateOffset : ν
  deriving DecidableEq, BEq

structure GainMapParams (ν : Type) where
  channels : Vector (GainMapChannel ν) 3
  baseHdrHeadroom : ν
  alternateHdrHeadroom : ν
  useBaseColorSpace : Bool
  backwardDirection : Bool
  deriving DecidableEq

inductive GainMapParseError (ν : Type) where
  | truncatedData (expected actual : ℕ)
  | unsupportedVersion (version : UInt8)
  | zeroDenominator (field : String)
  | invalidGamma (channel : ℕ) (value : ν)
  | minExceedsMax (channel : ℕ) (min max : ν)
  | nonFiniteValue (field : String)
  | urnMismatch
  deriving DecidableEq

/-- The variants of an error, without what they carry. -/
inductive ErrorClass
  | truncatedData
  | unsupportedVersion
  | zeroDenominator
  | invalidGamma
  | minExceedsMax
  | nonFiniteValue
  | urnMismatch
  deriving DecidableEq

def GainMapParseError.errorClass {ν : Type} : GainMapParseError ν → ErrorClass
  | .truncatedData _ _ => .truncatedData
  | .unsupportedVersion _ => .unsupportedVersion
  | .zeroDenominator _ => .zeroDenominator
  | .invalidGamma _ _ => .invalidGamma
  | .minExceedsMax _ _ _ => .minExceedsMax
  | .nonFiniteValue _ => .nonFiniteValue
  | .urnMismatch => .urnMismatch

variable {ν : Type}

/-! ### Three channels -/

/-- `channels[0]`. -/
def firstChannel {α : Type} (channels : Vector α 3) : α := channels.get 0

/-- `channels[ch] = channel`. -/
def setChannel {α : Type} (channels : Vector α 3) (ch : Fin 3) (channel : α) : Vector α 3 :=
  channels.set ch.val channel ch.isLt

/-- `channels[1] = channels[0]; channels[2] = channels[0]`. -/
def spreadChannel {α : Type} (channels : Vector α 3) : Vector α 3 :=
  setChannel (setChannel channels 1 (firstChannel channels)) 2 (firstChannel channels)

/-- Whether the three channels compare equal. -/
def GainMapParams.isSingleChannel [BEq ν] (p : GainMapParams ν) : Bool :=
  p.channels.get 0 == p.channels.get 1 && p.channels.get 1 == p.channels.get 2

variable [Float64 ν]

/-- `GainMapChannel::default`. -/
instance instInhabitedChannel : Inhabited (GainMapChannel ν) where
  default := ⟨Float64.zero, Float64.zero, Float64.one, Float64.sixtyFourth, Float64.sixtyFourth⟩

end GainMap

end Zencodec
