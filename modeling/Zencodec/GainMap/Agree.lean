/-
What a gain-map payload says, in either layout and in every wire format.

`Fractions.params` is the meaning of a payload: the fractions it writes out, checked and
converted in the order of the fields.  The full layout is read as exactly that, the
compact layout as the fractions over the shared denominator, and the serializer writes
the full layout of a parameter set's own fractions.

* `compact_agrees` — compact and full payloads of the same numerators have the same
  outcome, in every wire format and under all flags;
* `formats_agree` — the wire formats carry one payload behind their prefix, at the size
  that is predicted, and each parser reads its own encoding back as the others do;
* `iso21496_agrees` — the two together.
-/
import Zencodec.GainMap.Iso

open Slices Cursor

namespace Zencodec

namespace GainMap

variable {ν : Type}

/-! ### The meaning of a payload -/

def Fraction.bytes (f : Fraction) : Bytes := i32ToBe f.numerator ++ u32ToBe f.denominator

def UFraction.bytes (f : UFraction) : Bytes := u32ToBe f.numerator ++ u32ToBe f.denominator

def Fraction.checked (f : Fraction) (field : String) : Except (GainMapParseError ν) Fraction :=
  if f.denominator = 0 then .error (.zeroDenominator field) else .ok f

def UFraction.checked (f : UFraction) (field : String) : Except (GainMapParseError ν) UFraction :=
  if f.denominator = 0 then .error (.zeroDenominator field) else .ok f

/-- The fractions of one channel. -/
structure ChannelFractions where
  min : Fraction
  max : Fraction
  gamma : UFraction
  baseOffset : Fraction
  alternateOffset : Fraction
  deriving DecidableEq

def ChannelFractions.bytes (c : ChannelFractions) : Bytes :=
  c.min.bytes ++ (c.max.bytes ++ (c.gamma.bytes ++ (c.baseOffset.bytes ++ c.alternateOffset.bytes)))

/-- The fractions of a payload, of which the first channels are written. -/
structure Fractions where
  baseHeadroom : UFraction
  altHeadroom : UFraction
  channels : Vector ChannelFractions 3

def Fractions.bytes (f : Fractions) (numChannels : ℕ) : Bytes :=
  f.baseHeadroom.bytes ++ (f.altHeadroom.bytes ++
    ((List.finRange 3).take numChannels).flatMap fun ch => (f.channels.get ch).bytes)

/-- The numerators of one channel. -/
structure ChannelNumerators where
  min : Int32
  max : Int32
  gamma : UInt32
  baseOffset : Int32
  alternateOffset : Int32
  deriving DecidableEq

def ChannelNumerators.bytes (c : ChannelNumerators) : Bytes :=
  i32ToBe c.min ++ (i32ToBe c.max ++ (u32ToBe c.gamma ++
    (i32ToBe c.baseOffset ++ i32ToBe c.alternateOffset)))

/-- Every numerator over the denominator `d`. -/
def ChannelNumerators.over (c : ChannelNumerators) (d : UInt32) : ChannelFractions :=
  ⟨⟨c.min, d⟩, ⟨c.max, d⟩, ⟨c.gamma, d⟩, ⟨c.baseOffset, d⟩, ⟨c.alternateOffset, d⟩⟩

structure Numerators where
  baseHeadroom : UInt32
  altHeadroom : UInt32
  channels : Vector ChannelNumerators 3

def Numerators.over (n : Numerators) (d : UInt32) : Fractions :=
  ⟨⟨n.baseHeadroom, d⟩, ⟨n.altHeadroom, d⟩, n.channels.map fun c => c.over d⟩

/-- The compact payload. -/
def Numerators.compactBytes (n : Numerators) (numChannels : ℕ) (d : UInt32) : Bytes :=
  u32ToBe d ++ (u32ToBe n.baseHeadroom ++ (u32ToBe n.altHeadroom ++
    ((List.finRange 3).take numChannels).flatMap fun ch => (n.channels.get ch).bytes))

/-! ### Reading what was written -/

@[simp] theorem length_u16ToBe (v : UInt16) : (u16ToBe v).length = 2 := wordBytes_length ..

@[simp] theorem length_u32ToBe (v : UInt32) : (u32ToBe v).length = 4 := wordBytes_length ..

@[simp] theorem length_i32ToBe (v : Int32) : (i32ToBe v).length = 4 := length_u32ToBe _

theorem reads_be {bs : Bytes} {n : ℕ} (hn : bs.length = n) :
    Reads (readBe n : Parser ν ℕ) bs (.ok (wordValue .big bs)) := by
  intro data o hat
  have hle := hat.le
  have htake := (hasAt_iff.mp hat).2
  rw [hn] at hle htake
  show (if data.length < o + n then _ else _) = _
  rw [if_neg (by omega), htake, hn]
  rfl

theorem reads_u8 (v : UInt8) : Reads (readU8 : Parser ν UInt8) [v] (.ok v) := by
  have hvalue : UInt8.ofNat (wordValue .big [v]) = v := by
    show UInt8.ofNat (v.toNat + 256 * 0) = v
    rw [Nat.mul_zero, Nat.add_zero, UInt8.ofNat_toNat]
  have hlen : [v].length = 1 := rfl
  have h := Reads.map (f := UInt8.ofNat) (reads_be (ν := ν) hlen)
  rwa [Except.map, hvalue] at h

theorem reads_u16 (v : UInt16) : Reads (readU16be : Parser ν UInt16) (u16ToBe v) (.ok v) := by
  have hvalue : UInt16.ofNat (wordValue .big (u16ToBe v)) = v := by
    have hlt := v.toNat_lt
    rw [u16ToBe, wordValue_wordBytes, Nat.mod_eq_of_lt (by omega), UInt16.ofNat_toNat]
  have h := Reads.map (f := UInt16.ofNat) (reads_be (ν := ν) (length_u16ToBe v))
  rwa [Except.map, hvalue] at h

theorem ofNat_u32ToBe (v : UInt32) : UInt32.ofNat (wordValue .big (u32ToBe v)) = v := by
  have hlt := v.toNat_lt
  rw [u32ToBe, wordValue_wordBytes, Nat.mod_eq_of_lt (by omega), UInt32.ofNat_toNat]

theorem reads_u32 (v : UInt32) : Reads (readU32be : Parser ν UInt32) (u32ToBe v) (.ok v) := by
  have h := Reads.map (f := UInt32.ofNat) (reads_be (ν := ν) (length_u32ToBe v))
  rwa [Except.map, ofNat_u32ToBe] at h

theorem reads_i32 (v : Int32) : Reads (readI32be : Parser ν Int32) (i32ToBe v) (.ok v) := by
  have h := Reads.map (f := fun n => (UInt32.ofNat n).toInt32)
    (reads_be (ν := ν) (length_i32ToBe v))
  rwa [Except.map, i32ToBe, ofNat_u32ToBe, Int32.toInt32_toUInt32] at h

theorem reads_fraction (f : Fraction) (field : String) :
    Reads (readFraction field : Parser ν Fraction) f.bytes (f.checked field) := by
  refine (reads_i32 f.numerator).bind_ok ?_
  rw [← List.append_nil (u32ToBe f.denominator)]
  refine (reads_u32 f.denominator).bind_ok ?_
  unfold Fraction.checked
  split
  · exact reads_fail _
  · exact reads_pure _

theorem reads_ufraction (f : UFraction) (field : String) :
    Reads (readUFraction field : Parser ν UFraction) f.bytes (f.checked field) := by
  refine (reads_u32 f.numerator).bind_ok ?_
  rw [← List.append_nil (u32ToBe f.denominator)]
  refine (reads_u32 f.denominator).bind_ok ?_
  unfold UFraction.checked
  split
  · exact reads_fail _
  · exact reads_pure _

/-! ### The two layouts -/

variable [Float64 ν]

open Float64 (ofFraction ofUFraction toFraction toUFraction)

/-- The channel the fractions stand for, whatever their denominators. -/
def ChannelFractions.channel (c : ChannelFractions) : GainMapChannel ν :=
  ⟨ofFraction c.min, ofFraction c.max, ofUFraction c.gamma, ofFraction c.baseOffset,
    ofFraction c.alternateOffset⟩

def ChannelFractions.checked (c : ChannelFractions) :
    Except (GainMapParseError ν) (GainMapChannel ν) := do
  let minFrac ← c.min.checked "gain_map_min"
  let maxFrac ← c.max.checked "gain_map_max"
  let gammaFrac ← c.gamma.checked "gamma"
  let baseOffsetFrac ← c.baseOffset.checked "base_offset"
  let altOffsetFrac ← c.alternateOffset.checked "alternate_offset"
  pure (ChannelFractions.channel ⟨minFrac, maxFrac, gammaFrac, baseOffsetFrac, altOffsetFrac⟩)

/-- The first channels, over defaults. -/
def Fractions.checkedChannels (f : Fractions) (numChannels : ℕ) :
    Except (GainMapParseError ν) (Vector (GainMapChannel ν) 3) :=
  ((List.finRange 3).take numChannels).foldlM (fun channels (ch : Fin 3) => do
    let channel ← (f.channels.get ch).checked
    pure (setChannel channels ch channel)) (Vector.replicate 3 default)

/-- What a full payload says. -/
def Fractions.params (f : Fractions) (numChannels : ℕ)
    (useBaseColorSpace backwardDirection : Bool) :
    Except (GainMapParseError ν) (GainMapParams ν) := do
  let baseHeadroom ← f.baseHeadroom.checked "base_hdr_headroom"
  let altHeadroom ← f.altHeadroom.checked "alternate_hdr_headroom"
  let channels ← f.checkedChannels numChannels
  pure ⟨replicateSingle numChannels channels, ofUFraction baseHeadroom, ofUFraction altHeadroom,
    useBaseColorSpace, backwardDirection⟩

theorem reads_channelFull (c : ChannelFractions) :
    Reads (readChannelFull : Parser ν (GainMapChannel ν)) c.bytes c.checked := by
  refine (reads_fraction c.min _).bind fun _ _ => ?_
  refine (reads_fraction c.max _).bind fun _ _ => ?_
  refine (reads_ufraction c.gamma _).bind fun _ _ => ?_
  refine (reads_fraction c.baseOffset _).bind fun _ _ => ?_
  rw [← List.append_nil c.alternateOffset.bytes]
  exact (reads_fraction c.alternateOffset _).bind fun _ _ => reads_pure _

/-- The full layout is read as what it says. -/
theorem reads_full (f : Fractions) (numChannels : ℕ) (useBase backward : Bool) :
    Reads (parsePayloadFull numChannels useBase backward : Parser ν (GainMapParams ν))
      (f.bytes numChannels) (f.params numChannels useBase backward) := by
  have hchannels : Reads (readChannels readChannelFull numChannels : Parser ν _)
      (((List.finRange 3).take numChannels).flatMap fun ch => (f.channels.get ch).bytes)
      (f.checkedChannels numChannels) := by
    refine Reads.foldlM _ (fun ch _ channels => ?_) _
    rw [← List.append_nil (f.channels.get ch).bytes]
    exact (reads_channelFull (f.channels.get ch)).bind fun _ _ => reads_pure _
  refine (reads_ufraction f.baseHeadroom _).bind fun _ _ => ?_
  refine (reads_ufraction f.altHeadroom _).bind fun _ _ => ?_
  rw [← List.append_nil (((List.finRange 3).take numChannels).flatMap _)]
  exact hchannels.bind fun _ _ => reads_pure _

theorem reads_channelCommonDenom (c : ChannelNumerators) (d : UInt32) :
    Reads (readChannelCommonDenom d : Parser ν (GainMapChannel ν)) c.bytes
      (.ok (c.over d).channel) := by
  refine (reads_i32 c.min).bind_ok ?_
  refine (reads_i32 c.max).bind_ok ?_
  refine (reads_u32 c.gamma).bind_ok ?_
  refine (reads_i32 c.baseOffset).bind_ok ?_
  rw [← List.append_nil (i32ToBe c.alternateOffset)]
  refine (reads_i32 c.alternateOffset).bind_ok ?_
  exact reads_pure _

theorem ChannelNumerators.checked_over (c : ChannelNumerators) {d : UInt32} (hd : d ≠ 0) :
    (c.over d).checked = (.ok (c.over d).channel : Except (GainMapParseError ν) _) := by
  have hfraction : ∀ (n : Int32) (field : String),
      (Fraction.mk n d).checked field = (.ok ⟨n, d⟩ : Except (GainMapParseError ν) _) :=
    fun _ _ => if_neg hd
  have hufraction : ∀ (n : UInt32) (field : String),
      (UFraction.mk n d).checked field = (.ok ⟨n, d⟩ : Except (GainMapParseError ν) _) :=
    fun _ _ => if_neg hd
  unfold ChannelFractions.checked ChannelNumerators.over
  simp only [hfraction, hufraction]
  rfl

/-- The compact layout is read as the fractions over the shared denominator. -/
theorem reads_commonDenom (n : Numerators) (d : UInt32) (numChannels : ℕ)
    (useBase backward : Bool) :
    Reads (parsePayloadCommonDenom numChannels useBase backward : Parser ν (GainMapParams ν))
      (n.compactBytes numChannels d)
      (if d = 0 then .error (.zeroDenominator "common_denominator")
        else (n.over d).params numChannels useBase backward) := by
  refine (reads_u32 d).bind_ok ?_
  by_cases hd : d = 0
  · rw [if_pos hd, if_pos hd]
    exact (reads_fail _).error_append _
  rw [if_neg hd, if_neg hd]
  have hchannels : Reads (readChannels (readChannelCommonDenom d) numChannels : Parser ν _)
      (((List.finRange 3).take numChannels).flatMap fun ch => (n.channels.get ch).bytes)
      ((n.over d).checkedChannels numChannels) := by
    refine Reads.foldlM _ (fun ch _ channels => ?_) _
    have hover : ((n.over d).channels.get ch) = (n.channels.get ch).over d := Vector.getElem_map ..
    rw [hover, ChannelNumerators.checked_over _ hd, ← List.append_nil ((n.channels.get ch).bytes)]
    exact (reads_channelCommonDenom (n.channels.get ch) d).bind_ok (reads_pure _)
  -- the two headrooms pass their checks as soon as the denominator does
  have hbase : (n.over d).baseHeadroom.checked "base_hdr_headroom" =
      (.ok ⟨n.baseHeadroom, d⟩ : Except (GainMapParseError ν) _) := if_neg hd
  have halt : (n.over d).altHeadroom.checked "alternate_hdr_headroom" =
      (.ok ⟨n.altHeadroom, d⟩ : Except (GainMapParseError ν) _) := if_neg hd
  unfold Fractions.params
  rw [hbase, halt]
  refine (reads_u32 n.baseHeadroom).bind_ok ?_
  refine (reads_u32 n.altHeadroom).bind_ok ?_
  rw [← List.append_nil (((List.finRange 3).take numChannels).flatMap _)]
  exact hchannels.bind fun _ _ => reads_pure _

/-! ### The header and the prefixes -/

/-- A header and what follows it. -/
def isoBody (minimumVersion writerVersion : UInt16) (flags : UInt8) (payload : Bytes) : Bytes :=
  u16ToBe minimumVersion ++ (u16ToBe writerVersion ++ ([flags] ++ payload))

/-- What a wire format puts in front. -/
def isoPrefix : Iso21496Format → Bytes
  | .avifTmap => [0]
  | .jxlJhgm | .jpegApp2 => []
  | .jpegApp2BodyWithUrn => iso21496_1_urn

/-- A version that is not supported is refused before the flags are read. -/
theorem reads_body {flags : UInt8} {payload : Bytes}
    {r : Except (GainMapParseError ν) (GainMapParams ν)}
    (hpayload : Reads (parsePayload flags) payload r) (minimumVersion writerVersion : UInt16) :
    Reads parseCommonHeaderAndPayload (isoBody minimumVersion writerVersion flags payload)
      (if 0 < minimumVersion then .error (.unsupportedVersion minimumVersion.toUInt8) else r) := by
  refine (reads_u16 minimumVersion).bind_ok ?_
  by_cases hversion : 0 < minimumVersion
  · rw [if_pos hversion, if_pos hversion]
    exact (reads_fail _).error_append _
  · rw [if_neg hversion, if_neg hversion]
    refine (reads_u16 writerVersion).bind_ok ?_
    refine (reads_u8 flags).bind_ok ?_
    exact hpayload

/-- Behind its prefix every format reads alike. -/
theorem parse_prefixed {body : Bytes} {r : Except (GainMapParseError ν) (GainMapParams ν)}
    (hbody : Reads parseCommonHeaderAndPayload body r) (hlen : jpegHeaderSize ≤ body.length)
    (rest : Bytes) (format : Iso21496Format) :
    parseIso21496Fmt (isoPrefix format ++ (body ++ rest)) format = r := by
  have hat : HasAt (body ++ rest) 0 body := (hasAt_self body).mono (List.prefix_append _ _)
  have hbare : parseIso21496NoVersion (body ++ rest) = r := by
    unfold parseIso21496NoVersion
    rw [if_neg (by rw [List.length_append]; omega)]
    exact hbody.run hat
  cases format with
  | jpegApp2 => exact hbare
  | jxlJhgm => exact hbare
  | jpegApp2BodyWithUrn =>
    unfold parseIso21496Fmt
    have hurn : isoPrefix .jpegApp2BodyWithUrn = iso21496_1_urn := rfl
    rw [hurn, if_neg ?_, List.drop_left]
    · exact hbare
    · rw [List.take_left, List.length_append]
      intro h
      rcases h with h | h
      · omega
      · exact h rfl
  | avifTmap =>
    unfold jpegHeaderSize at hlen
    unfold parseIso21496Fmt parseIso21496Avif
    rw [if_neg (by simp [isoPrefix, avifHeaderSize]; omega)]
    have hprefixed : HasAt (isoPrefix .avifTmap ++ (body ++ rest)) 0 ([0] ++ body) := by
      rw [← List.append_assoc]
      exact (hasAt_self _).mono (List.prefix_append _ _)
    refine Reads.run ?_ hprefixed
    refine (reads_u8 0).bind_ok ?_
    exact hbody

/-! ### Compact and full payloads -/

theorem hasFlag_or {a b : UInt8} (hab : a &&& b = 0) (flags : UInt8) :
    hasFlag (flags ||| a) b = hasFlag flags b := by
  have hand : (flags ||| a) &&& b = flags &&& b := by
    have hzero := congrArg UInt8.toBitVec hab
    rw [UInt8.toBitVec_and] at hzero
    refine UInt8.toBitVec_inj.mp ?_
    rw [UInt8.toBitVec_and, UInt8.toBitVec_or, UInt8.toBitVec_and, BitVec.and_or_distrib_right,
      hzero]
    exact BitVec.or_zero
  unfold hasFlag
  rw [hand]

theorem hasFlag_and {a b : UInt8} (hab : a &&& b = b) (flags : UInt8) :
    hasFlag (flags &&& a) b = hasFlag flags b := by
  unfold hasFlag
  rw [UInt8.and_assoc, hab]

theorem numChannels_congr {flags flags' : UInt8}
    (h : hasFlag flags flagMultiChannel = hasFlag flags' flagMultiChannel) :
    numChannels flags = numChannels flags' := by
  unfold numChannels
  rw [h]

theorem hasFlag_common (flags : UInt8) :
    hasFlag (flags ||| flagCommonDenominator) flagCommonDenominator = true ∧
    hasFlag (flags &&& ~~~flagCommonDenominator) flagCommonDenominator = false := by
  unfold hasFlag
  constructor
  · have habsorb : (flags ||| flagCommonDenominator) &&& flagCommonDenominator =
        flagCommonDenominator := by
      refine UInt8.toBitVec_inj.mp ?_
      rw [UInt8.toBitVec_and, UInt8.toBitVec_or, BitVec.and_or_distrib_right, BitVec.and_self]
      exact BitVec.eq_of_getLsbD_eq fun i hi => by simp
    rw [habsorb]
    rfl
  · rw [UInt8.and_assoc, show ~~~flagCommonDenominator &&& flagCommonDenominator = 0 from rfl,
      UInt8.and_zero]
    rfl

/-- What was asked for and what was answered differ in the data of an error at most. -/
def SameOutcome (r r' : Except (GainMapParseError ν) (GainMapParams ν)) : Prop :=
  r.mapError GainMapParseError.errorClass = r'.mapError GainMapParseError.errorClass

/-- A compact payload and the full payload with the same numerators over the same denominator
have the same outcome. -/
theorem compact_agrees (format : Iso21496Format) (minimumVersion writerVersion : UInt16)
    (flags : UInt8) (d : UInt32) (n : Numerators) (rest rest' : Bytes) :
    SameOutcome (ν := ν)
      (parseIso21496Fmt (isoPrefix format ++ (isoBody minimumVersion writerVersion
        (flags ||| flagCommonDenominator) (n.compactBytes (numChannels flags) d) ++ rest)) format)
      (parseIso21496Fmt (isoPrefix format ++ (isoBody minimumVersion writerVersion
        (flags &&& ~~~flagCommonDenominator) ((n.over d).bytes (numChannels flags)) ++ rest'))
        format) := by
  -- the other flags are those of `flags`
  have hor : ∀ {flag : UInt8}, flagCommonDenominator &&& flag = 0 →
      hasFlag (flags ||| flagCommonDenominator) flag = hasFlag flags flag :=
    fun h => hasFlag_or h flags
  have hand : ∀ {flag : UInt8}, ~~~flagCommonDenominator &&& flag = flag →
      hasFlag (flags &&& ~~~flagCommonDenominator) flag = hasFlag flags flag :=
    fun h => hasFlag_and h flags
  obtain ⟨hset, hclear⟩ := hasFlag_common flags
  have hcompact := reads_commonDenom (ν := ν) n d (numChannels flags)
    (hasFlag flags flagUseBaseColourSpace) (hasFlag flags flagBackwardDirection)
  have hfull := reads_full (ν := ν) (n.over d) (numChannels flags)
    (hasFlag flags flagUseBaseColourSpace) (hasFlag flags flagBackwardDirection)
  have hparseCompact : (parsePayload (flags ||| flagCommonDenominator) : Parser ν _) =
      parsePayloadCommonDenom (numChannels flags) (hasFlag flags flagUseBaseColourSpace)
        (hasFlag flags flagBackwardDirection) := by
    unfold parsePayload
    rw [if_pos hset, hor rfl, hor rfl, numChannels_congr (hor rfl)]
  have hparseFull : (parsePayload (flags &&& ~~~flagCommonDenominator) : Parser ν _) =
      parsePayloadFull (numChannels flags) (hasFlag flags flagUseBaseColourSpace)
        (hasFlag flags flagBackwardDirection) := by
    unfold parsePayload
    rw [if_neg (by rw [hclear]; exact Bool.false_ne_true), hand rfl, hand rfl,
      numChannels_congr (hand rfl)]
  rw [← hparseCompact] at hcompact
  rw [← hparseFull] at hfull
  have hlen : ∀ flags payload, jpegHeaderSize ≤
      (isoBody minimumVersion writerVersion flags payload).length := by
    intro flags payload
    simp only [isoBody, List.length_append, length_u16ToBe, List.length_singleton]
    show 5 ≤ _
    omega
  unfold SameOutcome
  rw [parse_prefixed (reads_body hcompact _ _) (hlen _ _),
    parse_prefixed (reads_body hfull _ _) (hlen _ _)]
  split
  · rfl
  · split
    · next hd =>
      -- a shared denominator of zero is that of the base headroom too
      subst hd
      rfl
    · rfl

/-! ### The serializer -/

/-- The fractions that a parameter set is written as. -/
def GainMapParams.fractions (p : GainMapParams ν) : Fractions where
  baseHeadroom := toUFraction p.baseHdrHeadroom
  altHeadroom := toUFraction p.alternateHdrHeadroom
  channels := p.channels.map fun ch => ⟨toFraction ch.min, toFraction ch.max, toUFraction ch.gamma,
    toFraction ch.baseOffset, toFraction ch.alternateOffset⟩

/-- What is read back: the fractions, converted. -/
def GainMapParams.reread (p : GainMapParams ν) : Except (GainMapParseError ν) (GainMapParams ν) :=
  p.fractions.params p.numChannels p.useBaseColorSpace p.backwardDirection

/-- The payload that every format carries. -/
def GainMapParams.body (p : GainMapParams ν) : Bytes :=
  isoBody 0 0 (buildFlags p) (p.fractions.bytes p.numChannels)

/-- The parameters that the written fractions convert back to. -/
def GainMapParams.converted (p : GainMapParams ν) : GainMapParams ν where
  channels :=
    if p.isSingleChannel then Vector.replicate 3 (firstChannel p.fractions.channels).channel
    else p.fractions.channels.map ChannelFractions.channel
  baseHdrHeadroom := ofUFraction (toUFraction p.baseHdrHeadroom)
  alternateHdrHeadroom := ofUFraction (toUFraction p.alternateHdrHeadroom)
  useBaseColorSpace := p.useBaseColorSpace
  backwardDirection := p.backwardDirection

theorem writeFraction_eq (data : Bytes) (f : Fraction) :
    writeFraction data f = data ++ f.bytes := List.append_assoc ..

theorem writeUFraction_eq (data : Bytes) (f : UFraction) :
    writeUFraction data f = data ++ f.bytes := List.append_assoc ..

theorem writeChannel_eq (data : Bytes) (ch : GainMapChannel ν) :
    writeChannel data ch = data ++ ChannelFractions.bytes ⟨toFraction ch.min, toFraction ch.max,
      toUFraction ch.gamma, toFraction ch.baseOffset, toFraction ch.alternateOffset⟩ := by
  unfold writeChannel ChannelFractions.bytes
  simp only [writeFraction_eq, writeUFraction_eq, List.append_assoc]

/-- The first elements of a vector, by their indices. -/
theorem take_toList {α : Type} (v : Vector α 3) (k : ℕ) :
    v.toList.take k = ((List.finRange 3).take k).map fun ch => v.get ch := by
  have hall : v.toList = (List.finRange 3).map fun ch => v.get ch := by
    refine List.ext_getElem (by simp) fun i hi hi' => ?_
    simp only [Vector.getElem_toList, List.getElem_map, List.getElem_finRange]
    rfl
  rw [hall, List.map_take]

theorem foldl_writeChannel (l : List (GainMapChannel ν)) (data : Bytes) :
    l.foldl writeChannel data = data ++ l.flatMap fun ch => writeChannel [] ch := by
  induction l generalizing data with
  | nil => exact (List.append_nil data).symm
  | cons ch l ih =>
    rw [List.foldl_cons, ih, List.flatMap_cons, writeChannel_eq, writeChannel_eq,
      List.nil_append, List.append_assoc]

theorem writePayload_eq (data : Bytes) (p : GainMapParams ν) :
    writePayload data p = data ++ p.fractions.bytes p.numChannels := by
  have hchannels : (p.channels.toList.take p.numChannels).flatMap (fun ch => writeChannel [] ch) =
      ((List.finRange 3).take p.numChannels).flatMap
        fun ch => (p.fractions.channels.get ch).bytes := by
    rw [take_toList, List.flatMap_map]
    refine List.flatMap_congr fun ch _ => ?_
    have hmap : p.fractions.channels.get ch = ⟨toFraction (p.channels.get ch).min,
        toFraction (p.channels.get ch).max, toUFraction (p.channels.get ch).gamma,
        toFraction (p.channels.get ch).baseOffset,
        toFraction (p.channels.get ch).alternateOffset⟩ :=
      Vector.getElem_map ..
    rw [writeChannel_eq, List.nil_append, hmap]
  unfold writePayload Fractions.bytes
  simp only [writeUFraction_eq, foldl_writeChannel, hchannels, List.append_assoc]
  rfl

theorem serializeInto_eq (p : GainMapParams ν) (format : Iso21496Format) (out : Bytes) :
    serializeIso21496FmtInto p format out = out ++ (isoPrefix format ++ p.body) := by
  have hbare : ∀ out, serializeIso21496NoVersionInto p out = out ++ p.body := by
    intro out
    unfold serializeIso21496NoVersionInto GainMapParams.body isoBody
    simp only [writePayload_eq, List.append_assoc]
  cases format with
  | jpegApp2 => exact hbare out
  | jxlJhgm => exact hbare out
  | jpegApp2BodyWithUrn => exact (hbare _).trans (List.append_assoc ..)
  | avifTmap =>
    show serializeIso21496AvifInto p out = _
    unfold serializeIso21496AvifInto GainMapParams.body isoBody isoPrefix
    simp only [writePayload_eq, List.append_assoc]

theorem serialize_eq (p : GainMapParams ν) (format : Iso21496Format) :
    serializeIso21496Fmt p format = isoPrefix format ++ p.body := serializeInto_eq p format []

theorem length_body (p : GainMapParams ν) :
    p.body.length = jpegHeaderSize + 2 * fractionSize + p.numChannels * 5 * fractionSize := by
  have hfraction : ∀ f : Fraction, f.bytes.length = 8 := fun f => by simp [Fraction.bytes]
  have hufraction : ∀ f : UFraction, f.bytes.length = 8 := fun f => by simp [UFraction.bytes]
  have hchannel : ∀ c : ChannelFractions, c.bytes.length = 40 := fun c => by
    simp [ChannelFractions.bytes, hfraction, hufraction]
  have hle : p.numChannels ≤ 3 := by
    unfold GainMapParams.numChannels
    split <;> omega
  have htake : ((List.finRange 3).take p.numChannels).length = p.numChannels := by
    rw [List.length_take, List.length_finRange]
    omega
  have hchannels : (((List.finRange 3).take p.numChannels).flatMap fun ch =>
      (p.fractions.channels.get ch).bytes).length = p.numChannels * 40 := by
    rw [List.length_flatMap]
    simp only [hchannel, List.map_const', List.sum_replicate_nat, htake]
  unfold GainMapParams.body isoBody Fractions.bytes
  simp only [List.length_append, hchannels, hufraction, length_u16ToBe, List.length_singleton]
  unfold jpegHeaderSize fractionSize
  omega

theorem length_serialize (p : GainMapParams ν) (format : Iso21496Format) :
    (serializeIso21496Fmt p format).length = serializedSize p format := by
  rw [serialize_eq, List.length_append, length_body]
  cases format with
  | avifTmap =>
    show 1 + _ = avifHeaderSize + 2 * fractionSize + p.numChannels * 5 * fractionSize
    unfold jpegHeaderSize avifHeaderSize
    omega
  | jpegApp2BodyWithUrn =>
    show iso21496_1_urn.length + _ = iso21496_1_urn.length + jpegHeaderSize + 2 * fractionSize +
      p.numChannels * 5 * fractionSize
    omega
  | jpegApp2 => exact Nat.zero_add _
  | jxlJhgm => exact Nat.zero_add _

/-! ### Reading back -/

/-- The flags that are written announce what follows. -/
theorem buildFlags_announce (p : GainMapParams ν) :
    numChannels (buildFlags p) = p.numChannels ∧
    hasFlag (buildFlags p) flagUseBaseColourSpace = p.useBaseColorSpace ∧
    hasFlag (buildFlags p) flagBackwardDirection = p.backwardDirection ∧
    hasFlag (buildFlags p) flagCommonDenominator = false := by
  unfold buildFlags GainMapParams.numChannels
  cases p.isSingleChannel <;> cases p.useBaseColorSpace <;> cases p.backwardDirection <;>
    exact ⟨rfl, rfl, rfl, rfl⟩

theorem parse_serialize (p : GainMapParams ν) (format : Iso21496Format) :
    parseIso21496Fmt (serializeIso21496Fmt p format) format = p.reread := by
  obtain ⟨hchannels, hbase, hbackward, hcommon⟩ := buildFlags_announce p
  have hparse : (parsePayload (buildFlags p) : Parser ν (GainMapParams ν)) =
      parsePayloadFull p.numChannels p.useBaseColorSpace p.backwardDirection := by
    unfold parsePayload
    rw [if_neg (by rw [hcommon]; exact Bool.false_ne_true), hchannels, hbase, hbackward]
  have hfull := reads_full (ν := ν) p.fractions p.numChannels p.useBaseColorSpace
    p.backwardDirection
  rw [← hparse] at hfull
  have hbody : Reads (parseCommonHeaderAndPayload : Parser ν (GainMapParams ν)) p.body p.reread :=
    reads_body hfull 0 0
  have hlen : jpegHeaderSize ≤ p.body.length := by
    rw [length_body]
    omega
  have h := parse_prefixed hbody hlen [] format
  rw [List.append_nil] at h
  rw [serialize_eq]
  exact h

theorem ChannelFractions.checked_eq {c : ChannelFractions} (hmin : c.min.denominator ≠ 0)
    (hmax : c.max.denominator ≠ 0) (hgamma : c.gamma.denominator ≠ 0)
    (hbase : c.baseOffset.denominator ≠ 0) (halt : c.alternateOffset.denominator ≠ 0) :
    c.checked = (.ok c.channel : Except (GainMapParseError ν) _) := by
  unfold ChannelFractions.checked Fraction.checked UFraction.checked
  simp only [if_neg hmin, if_neg hmax, if_neg hgamma, if_neg hbase, if_neg halt]
  rfl

/-- The channels that are filled in: one for all three, or each its own. -/
theorem checkedChannels_eq {f : Fractions} (h : ∀ ch : Fin 3, (f.channels.get ch).checked =
    (.ok (f.channels.get ch).channel : Except (GainMapParseError ν) (GainMapChannel ν)))
    (single : Bool) :
    (f.checkedChannels (if single then 1 else 3)).map
        (replicateSingle (if single then 1 else 3)) =
      (.ok (if single then Vector.replicate 3 (firstChannel f.channels).channel
        else f.channels.map ChannelFractions.channel) : Except (GainMapParseError ν) _) := by
  unfold Fractions.checkedChannels
  simp only [h]
  cases single with
  | true =>
    refine congrArg Except.ok (Vector.ext fun i hi => ?_)
    obtain rfl | rfl | rfl : i = 0 ∨ i = 1 ∨ i = 2 := by omega
    · rfl
    · rfl
    · rfl
  | false =>
    refine congrArg Except.ok (Vector.ext fun i hi => ?_)
    show _ = (f.channels.map ChannelFractions.channel)[i]
    rw [Vector.getElem_map]
    obtain rfl | rfl | rfl : i = 0 ∨ i = 1 ∨ i = 2 := by omega
    · rfl
    · rfl
    · rfl

/-- Fractions with a denominator are read back as what they convert to. -/
theorem reread_eq (p : GainMapParams ν) (hsigned : ∀ v : ν, (toFraction v).denominator ≠ 0)
    (hunsigned : ∀ v : ν, (toUFraction v).denominator ≠ 0) : p.reread = .ok p.converted := by
  have hchannel : ∀ ch : Fin 3, (p.fractions.channels.get ch).checked =
      (.ok (p.fractions.channels.get ch).channel :
        Except (GainMapParseError ν) (GainMapChannel ν)) := by
    intro ch
    have hmap : p.fractions.channels.get ch = ⟨toFraction (p.channels.get ch).min,
        toFraction (p.channels.get ch).max, toUFraction (p.channels.get ch).gamma,
        toFraction (p.channels.get ch).baseOffset,
        toFraction (p.channels.get ch).alternateOffset⟩ :=
      Vector.getElem_map ..
    rw [hmap]
    exact ChannelFractions.checked_eq (hsigned _) (hsigned _) (hunsigned _) (hsigned _) (hsigned _)
  have hbase : p.fractions.baseHeadroom.checked "base_hdr_headroom" =
      (.ok p.fractions.baseHeadroom : Except (GainMapParseError ν) _) := if_neg (hunsigned _)
  have halt : p.fractions.altHeadroom.checked "alternate_hdr_headroom" =
      (.ok p.fractions.altHeadroom : Except (GainMapParseError ν) _) := if_neg (hunsigned _)
  have hchannels := checkedChannels_eq hchannel p.isSingleChannel
  unfold GainMapParams.reread Fractions.params GainMapParams.numChannels
  rw [hbase, halt]
  unfold GainMapParams.converted
  cases hread : p.fractions.checkedChannels (ν := ν) (if p.isSingleChannel then 1 else 3) with
  | error e =>
    rw [hread] at hchannels
    cases hchannels
  | ok channels =>
    rw [hread] at hchannels
    rw [← Except.ok.inj hchannels]
    rfl

/-- The wire formats carry one payload behind their prefix, at the size that is predicted and
behind the bytes that are there; each parser reads its own encoding back as the others do, and
where every value has a fraction, as the converted values. -/
theorem formats_agree (p : GainMapParams ν) :
    (∀ format, serializeIso21496Fmt p format = isoPrefix format ++ p.body ∧
      (serializeIso21496Fmt p format).length = serializedSize p format) ∧
    (∀ format out, serializeIso21496FmtInto p format out =
      out ++ serializeIso21496Fmt p format) ∧
    (∀ format format', parseIso21496Fmt (ν := ν) (serializeIso21496Fmt p format) format =
      parseIso21496Fmt (serializeIso21496Fmt p format') format') ∧
    ((∀ v : ν, (toFraction v).denominator ≠ 0) → (∀ v : ν, (toUFraction v).denominator ≠ 0) →
      ∀ format, parseIso21496Fmt (serializeIso21496Fmt p format) format = .ok p.converted) := by
  refine ⟨fun format => ⟨serialize_eq p format, length_serialize p format⟩, ?_, ?_, ?_⟩
  · intro format out
    rw [serializeInto_eq, serialize_eq]
  · intro format format'
    rw [parse_serialize, parse_serialize]
  · intro hsigned hunsigned format
    rw [parse_serialize, reread_eq p hsigned hunsigned]

/-- Compact and full payloads agree, and so do the four wire formats. -/
theorem iso21496_agrees :
    (∀ (format : Iso21496Format) (minimumVersion writerVersion : UInt16) (flags : UInt8)
      (d : UInt32) (n : Numerators) (rest rest' : Bytes),
      SameOutcome (ν := ν)
        (parseIso21496Fmt (isoPrefix format ++ (isoBody minimumVersion writerVersion
          (flags ||| flagCommonDenominator) (n.compactBytes (numChannels flags) d) ++ rest)) format)
        (parseIso21496Fmt (isoPrefix format ++ (isoBody minimumVersion writerVersion
          (flags &&& ~~~flagCommonDenominator) ((n.over d).bytes (numChannels flags)) ++ rest'))
          format)) ∧
    ∀ p : GainMapParams ν,
      (∀ format, serializeIso21496Fmt p format = isoPrefix format ++ p.body ∧
        (serializeIso21496Fmt p format).length = serializedSize p format) ∧
      (∀ format out, serializeIso21496FmtInto p format out =
        out ++ serializeIso21496Fmt p format) ∧
      (∀ format format', parseIso21496Fmt (ν := ν) (serializeIso21496Fmt p format) format =
        parseIso21496Fmt (serializeIso21496Fmt p format') format') ∧
      ((∀ v : ν, (toFraction v).denominator ≠ 0) → (∀ v : ν, (toUFraction v).denominator ≠ 0) →
        ∀ format, parseIso21496Fmt (serializeIso21496Fmt p format) format = .ok p.converted) :=
  ⟨compact_agrees, formats_agree⟩

/-! ### Over exact rationals -/

/-- The numerator and the denominator where they fit, and zero where they do not. -/
def ratFraction (v : ℚ) : Fraction :=
  if v.num.natAbs < 2 ^ 31 ∧ v.den < 2 ^ 32 then ⟨Int32.ofInt v.num, UInt32.ofNat v.den⟩ else ⟨0, 1⟩

def ratUFraction (v : ℚ) : UFraction :=
  if 0 ≤ v.num ∧ v.num < 2 ^ 32 ∧ v.den < 2 ^ 32 then ⟨UInt32.ofNat v.num.toNat, UInt32.ofNat v.den⟩
  else ⟨0, 1⟩

/-- Exact rationals in place of floats. -/
@[reducible] def ratFloat64 : Float64 ℚ where
  beq a b := decide (a = b)
  zero := 0
  one := 1
  sixtyFourth := 1 / 64
  ofFraction f := f.numerator.toInt / f.denominator.toNat
  ofUFraction f := f.numerator.toNat / f.denominator.toNat
  toFraction := ratFraction
  toUFraction := ratUFraction

theorem ofNat_den_ne_zero {v : ℚ} (h : v.den < 2 ^ 32) : UInt32.ofNat v.den ≠ 0 := by
  intro hzero
  have hnat := congrArg UInt32.toNat hzero
  rw [UInt32.toNat_ofNat', Nat.mod_eq_of_lt h] at hnat
  exact v.den_nz hnat

theorem ratFraction_den (v : ℚ) : (ratFraction v).denominator ≠ 0 := by
  unfold ratFraction
  split
  · next h => exact ofNat_den_ne_zero h.2
  · decide

theorem ratUFraction_den (v : ℚ) : (ratUFraction v).denominator ≠ 0 := by
  unfold ratUFraction
  split
  · next h => exact ofNat_den_ne_zero h.2.2
  · decide

/-- Three channels that differ. -/
def sampleParams : GainMapParams ℚ where
  channels := #v[⟨-1 / 2, 2, 1, 1 / 64, 1 / 32⟩, ⟨0, 5 / 4, 3 / 2, 0, 1 / 64⟩, ⟨1, 3, 1, -1 / 8, 0⟩]
  baseHdrHeadroom := 0
  alternateHdrHeadroom := 83 / 64
  useBaseColorSpace := false
  backwardDirection := true

theorem iso21496_agrees_sample :
    (@parseIso21496Fmt ℚ ratFloat64 (@serializeIso21496Fmt ℚ ratFloat64 sampleParams .avifTmap)
      .avifTmap) = .ok sampleParams := by
  have h := ((@iso21496_agrees ℚ ratFloat64).2 sampleParams).2.2.2 ratFraction_den ratUFraction_den
    .avifTmap
  rw [h]
  decide +kernel

end GainMap

end Zencodec
