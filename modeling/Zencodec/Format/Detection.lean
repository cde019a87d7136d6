/-
Detection over a growing prefix, against detection over the probe window.

`detectIncremental` commits to the first format that a prefix shows, and waits for a complete
prefix before TIFF alone. Whether that is the format of the probe window depends on the detectors.

* `detect_eq_some`, `detect_eq_none` — detection, by the detectors of the registered formats;
* `Steady` — the detectors find on every prefix what they find on the window;
* `detection_independent` — the offered chunks never matter exactly where that holds;
* `detection_dependent` — shared signatures where it does not.
-/
import Zencodec.Format.Builtins

namespace Zencodec.Format

/-- The fields of a definition that detection reads. -/
structure ImageFormatDefinition where
  name : String
  detect : List UInt8 → Bool

/-- Definitions are told apart by their names. -/
instance instBEqImageFormatDefinition : BEq ImageFormatDefinition := ⟨fun a b => a.name == b.name⟩

inductive ImageFormat where
  | jpeg | png | gif | webP | avif | jxl | heic | bmp | tiff | ico | pnm | farbfeld | qoi | pdf | exr
  | hdr | tga | jp2 | dng | raw | svg | unknown
  | custom (definition : ImageFormatDefinition)
  deriving BEq

/-- `ALL`, in priority order, each with its detector. -/
def all : List (ImageFormat × (List UInt8 → Bool)) :=
  [(.jpeg, detectJpeg), (.png, detectPng), (.gif, detectGif), (.webP, detectWebp),
    (.avif, detectAvif), (.jxl, detectJxl), (.heic, detectHeic), (.bmp, detectBmp),
    (.farbfeld, detectFarbfeld), (.pnm, detectPnm), (.dng, detectDng), (.raw, detectRaw),
    (.tiff, isTiffHeader), (.ico, detectIco), (.qoi, detectQoi), (.pdf, detectPdf),
    (.exr, detectExr), (.hdr, detectHdr), (.jp2, detectJp2), (.tga, detectTga), (.svg, detectSvg)]

/-- The registered decoders, each with its formats. -/
structure CodecSet where
  decoders : List (List ImageFormat)

namespace CodecSet

/-- `RECOMMENDED_PROBE_BYTES` -/
def probeBytes : ℕ := 4096

def canDecode (set : CodecSet) (format : ImageFormat) : Bool :=
  set.decoders.any fun formats => formats.contains format

/-- A custom format that accepts the data. -/
def detectCustom (data : List UInt8) : ImageFormat → Bool
  | .custom d => d.detect data
  | _ => false

def detect (set : CodecSet) (data : List UInt8) : Option ImageFormat :=
  match all.find? fun e => set.canDecode e.1 && e.2 data with
  | some e => some e.1
  | none => set.decoders.flatten.find? (detectCustom data)

/-- The bytes of an input at offset zero, and the total length where it is known. -/
structure Input where
  bytes : List UInt8
  totalLen : Option ℕ
  deriving Repr

/-- The probe request is satisfied. -/
def Input.complete (input : Input) : Bool :=
  probeBytes ≤ input.bytes.length || input.totalLen == some input.bytes.length

/-- `UnrecognizedFormat` -/
inductive Unrecognized where
  | format
  deriving DecidableEq, Repr

def detectIncremental (set : CodecSet) (input : Input) :
    Except Unrecognized (Option ImageFormat) :=
  let detected := set.detect input.bytes
  let complete := input.complete
  let conclusive :=
    match detected with
    | some .tiff => complete
    | some _ => true
    | none => false
  if conclusive then .ok detected
  else if complete then .error .format
  else .ok none

/-- The steps of the incremental decoder until it has a format or fails; `none` if it still asks
for the prefix. -/
def run (set : CodecSet) : List Input → Option (Except Unrecognized ImageFormat)
  | [] => none
  | input :: inputs =>
    match set.detectIncremental input with
    | .error e => some (.error e)
    | .ok (some f) => some (.ok f)
    | .ok none => run set inputs

/-- The inputs offer growing prefixes of the source, and a total length that they give is the
true one. -/
structure Offers (source : List UInt8) (inputs : List Input) : Prop where
  sound : ∀ i ∈ inputs, i.bytes <+: source ∧ ∀ n, i.totalLen = some n → n = source.length
  growing : inputs.Pairwise fun i j => i.bytes.length ≤ j.bytes.length

/-- What one-shot detection looks at. -/
def window (source : List UInt8) : List UInt8 := source.take probeBytes

variable {set : CodecSet} {source data : List UInt8} {f : ImageFormat}

/-! ### Detection, by its detectors -/

/-- The detectors that detection consults, in order. -/
def candidates (set : CodecSet) : List (ImageFormat × (List UInt8 → Bool)) :=
  (all.filter fun e => set.canDecode e.1) ++
    set.decoders.flatten.map fun format => (format, fun data => detectCustom data format)

/-- The first detector that accepts the data is one of the format. -/
def First (set : CodecSet) (data : List UInt8) (f : ImageFormat) : Prop :=
  ∃ before c after, set.candidates = before ++ c :: after ∧ c.2 data = true ∧ c.1 = f ∧
    ∀ d ∈ before, d.2 data = false

/-- No detector accepts the data. -/
def Rejected (set : CodecSet) (data : List UInt8) : Prop :=
  ∀ c ∈ set.candidates, c.2 data = false

theorem detect_eq (set : CodecSet) (data : List UInt8) :
    set.detect data = (set.candidates.find? fun c => c.2 data).map Prod.fst := by
  have hbuiltin : (all.filter fun e => set.canDecode e.1).find? (fun c => c.2 data)
      = all.find? fun e => set.canDecode e.1 && e.2 data := by
    rw [List.find?_filter]
    congr 1
    funext e
    rw [Bool.decide_and, Bool.decide_eq_true, Bool.decide_eq_true]
  rw [detect, candidates, List.find?_append, hbuiltin, List.find?_map]
  cases all.find? fun e => set.canDecode e.1 && e.2 data with
  | some e => rfl
  | none =>
    rw [Option.none_or, Option.map_map]
    symm
    exact Option.map_id'

theorem detect_eq_some : set.detect data = some f ↔ set.First data f := by
  rw [detect_eq, Option.map_eq_some_iff]
  constructor
  · rintro ⟨c, hc, rfl⟩
    obtain ⟨haccept, before, after, hsplit, hbefore⟩ := List.find?_eq_some_iff_append.mp hc
    exact ⟨before, c, after, hsplit, haccept, rfl, fun d hd => by simpa using hbefore d hd⟩
  · rintro ⟨before, c, after, hsplit, haccept, rfl, hbefore⟩
    refine ⟨c, List.find?_eq_some_iff_append.mpr ⟨haccept, before, after, hsplit, ?_⟩, rfl⟩
    intro d hd
    simp [hbefore d hd]

theorem detect_eq_none : set.detect data = none ↔ set.Rejected data := by
  rw [detect_eq, Option.map_eq_none_iff, List.find?_eq_none, Rejected]
  simp only [Bool.not_eq_true]

/-! ### One step, and a run -/

/-- A prefix is the probe window, or longer, or all there is. -/
def Complete (source p : List UInt8) : Prop :=
  probeBytes ≤ p.length ∨ p = source

theorem complete_iff {input : Input} (hpre : input.bytes <+: source)
    (htotal : ∀ n, input.totalLen = some n → n = source.length) (h : input.complete = true) :
    Complete source input.bytes := by
  rw [Input.complete, Bool.or_eq_true, decide_eq_true_eq, beq_iff_eq] at h
  refine h.imp_right fun hn => ?_
  exact hpre.eq_of_length (htotal _ hn)

/-- What a step can answer: a format that the prefix shows, TIFF only on a complete one; an error,
on a complete prefix that nothing accepts; or, on TIFF or nothing, that it needs a complete
prefix. -/
theorem detectIncremental_cases (set : CodecSet) (input : Input) :
    (∃ f, set.detectIncremental input = .ok (some f) ∧ set.detect input.bytes = some f ∧
      (f = .tiff → input.complete = true)) ∨
    (set.detectIncremental input = .error .format ∧ set.detect input.bytes = none ∧
      input.complete = true) ∨
    (set.detectIncremental input = .ok none ∧ input.complete = false ∧
      ∀ f, set.detect input.bytes = some f → f = .tiff) := by
  unfold detectIncremental
  cases hdetect : set.detect input.bytes with
  | none =>
    cases hcomplete : input.complete with
    | true => exact .inr (.inl ⟨rfl, rfl, rfl⟩)
    | false => exact .inr (.inr ⟨rfl, rfl, fun f hf => by cases hf⟩)
  | some f =>
    by_cases htiff : f = .tiff
    · subst htiff
      cases hcomplete : input.complete with
      | true => exact .inl ⟨_, rfl, rfl, fun _ => rfl⟩
      | false => exact .inr (.inr ⟨rfl, rfl, fun f hf => (Option.some.inj hf).symm⟩)
    · refine .inl ⟨f, ?_, rfl, fun h => absurd h htiff⟩
      cases f <;> first | rfl | exact absurd rfl htiff

/-- The step that ends a run. -/
theorem run_eq_some {inputs : List Input} {r : Except Unrecognized ImageFormat}
    (h : set.run inputs = some r) :
    ∃ i ∈ inputs, set.detectIncremental i = r.map some := by
  induction inputs with
  | nil => cases h
  | cons i inputs ih =>
    rw [run] at h
    rcases detectIncremental_cases set i with ⟨f, hi, -⟩ | ⟨hi, -⟩ | ⟨hi, -⟩
    · rw [hi] at h
      exact ⟨i, List.mem_cons_self, hi.trans (by rw [← Option.some.inj h]; rfl)⟩
    · rw [hi] at h
      exact ⟨i, List.mem_cons_self, hi.trans (by rw [← Option.some.inj h]; rfl)⟩
    · rw [hi] at h
      obtain ⟨j, hj, hr⟩ := ih h
      exact ⟨j, List.mem_cons_of_mem i hj, hr⟩

/-- A run that still asks has had no complete prefix. -/
theorem run_eq_none {inputs : List Input} (h : set.run inputs = none) :
    ∀ i ∈ inputs, i.complete = false := by
  induction inputs with
  | nil => simp
  | cons i inputs ih =>
    rw [run] at h
    rcases detectIncremental_cases set i with ⟨f, hi, -⟩ | ⟨hi, -⟩ | ⟨hi, hcomplete, -⟩
    · rw [hi] at h
      cases h
    · rw [hi] at h
      cases h
    · rw [hi] at h
      intro j hj
      rcases List.mem_cons.mp hj with rfl | hj
      · exact hcomplete
      · exact ih h j hj

/-! ### Chunks -/

/-- A run agrees with detection over the probe window: it selects the format of the window, and
fails exactly where the window shows none. -/
structure Agrees (set : CodecSet) (source : List UInt8) (inputs : List Input) : Prop where
  selected : ∀ f, set.run inputs = some (.ok f) → ∃ g, set.detect (window source) = some g ∧ g == f
  unrecognized : ∀ e, set.run inputs = some (.error e) → set.detect (window source) = none
  reported : set.detect (window source) = none → (∃ i ∈ inputs, i.complete = true) →
    set.run inputs = some (.error .format)

/-- The detectors see in every prefix what they see in the probe window: the first that accepts a
prefix, complete if it is TIFF, is of the format of the first that accepts the window; and what
they all reject in a complete prefix, they all reject in the window. -/
structure Steady (set : CodecSet) (source : List UInt8) : Prop where
  accepted : ∀ p f, p <+: source → set.First p f → (f = .tiff → Complete source p) →
    ∃ g, set.First (window source) g ∧ g == f
  rejected : ∀ p, p <+: source → Complete source p → set.Rejected p →
    set.Rejected (window source)

theorem Steady.agrees (h : Steady set source) {inputs : List Input} (hoffers : Offers source inputs) :
    Agrees set source inputs := by
  have hselected : ∀ f, set.run inputs = some (.ok f) →
      ∃ g, set.detect (window source) = some g ∧ g == f := by
    intro f hrun
    obtain ⟨i, hi, hstep⟩ := run_eq_some hrun
    obtain ⟨hpre, htotal⟩ := hoffers.sound i hi
    rcases detectIncremental_cases set i with ⟨f', hf, hdetect, htiff⟩ | ⟨hf, -⟩ | ⟨hf, -⟩
    · obtain rfl : f' = f := Option.some.inj (Except.ok.inj (hf.symm.trans hstep))
      obtain ⟨g, hfirst, hg⟩ := h.accepted i.bytes f' hpre (detect_eq_some.mp hdetect)
        fun hf' => complete_iff hpre htotal (htiff hf')
      exact ⟨g, detect_eq_some.mpr hfirst, hg⟩
    · cases hf.symm.trans hstep
    · cases hf.symm.trans hstep
  have hunrecognized : ∀ e, set.run inputs = some (.error e) →
      set.detect (window source) = none := by
    intro e hrun
    obtain ⟨i, hi, hstep⟩ := run_eq_some hrun
    obtain ⟨hpre, htotal⟩ := hoffers.sound i hi
    rcases detectIncremental_cases set i with ⟨f', hf, -⟩ | ⟨-, hdetect, hcomplete⟩ | ⟨hf, -⟩
    · cases hf.symm.trans hstep
    · exact detect_eq_none.mpr <| h.rejected i.bytes hpre
        (complete_iff hpre htotal hcomplete) (detect_eq_none.mp hdetect)
    · cases hf.symm.trans hstep
  refine ⟨hselected, hunrecognized, fun hwindow ⟨i, hi, hcomplete⟩ => ?_⟩
  cases hrun : set.run inputs with
  | none => rw [run_eq_none hrun i hi] at hcomplete; cases hcomplete
  | some r =>
    cases r with
    | ok f =>
      obtain ⟨g, hg, -⟩ := hselected f hrun
      rw [hwindow] at hg
      cases hg
    | error e => rfl

/-- One offer of a prefix, with the total length where the prefix is the source. -/
def offer (source p : List UInt8) : Input :=
  ⟨p, if p.length = source.length then some source.length else none⟩

theorem offers_offer {p : List UInt8} (hp : p <+: source) : Offers source [offer source p] := by
  refine ⟨fun i hi => ?_, List.pairwise_singleton _ _⟩
  obtain rfl := List.mem_singleton.mp hi
  refine ⟨hp, fun n hn => ?_⟩
  rw [offer] at hn
  split at hn
  · exact (Option.some.inj hn).symm
  · cases hn

theorem offer_complete {p : List UInt8} (h : Complete source p) :
    (offer source p).complete = true := by
  rw [Input.complete, Bool.or_eq_true, decide_eq_true_eq, beq_iff_eq]
  refine h.imp_right fun hp => ?_
  rw [offer, hp, if_pos rfl]

/-- **Chunks do not matter exactly where the detectors are steady.** Whatever growing prefixes of
the source are offered, the decoder selects the format of the probe window and reports an
unrecognized source where the window is, if and only if the detectors see in every prefix what
they see in the window. -/
theorem detection_independent (set : CodecSet) (source : List UInt8) :
    (∀ inputs, Offers source inputs → Agrees set source inputs) ↔ Steady set source := by
  refine ⟨fun h => ⟨fun p f hp hfirst htiff => ?_, fun p hp hcomplete hrejected => ?_⟩,
    fun h inputs hoffers => h.agrees hoffers⟩
  · -- a prefix with a format, offered alone
    have hdetect := detect_eq_some.mpr hfirst
    have hrun : set.run [offer source p] = some (.ok f) := by
      rw [run]
      rcases detectIncremental_cases set (offer source p) with
        ⟨f', hf, hdetect', -⟩ | ⟨-, hnone, -⟩ | ⟨-, hincomplete, htiff'⟩
      · obtain rfl : f' = f := Option.some.inj (hdetect'.symm.trans hdetect)
        rw [hf]
      · cases hnone.symm.trans hdetect
      · rw [offer_complete (htiff (htiff' f hdetect))] at hincomplete
        cases hincomplete
    obtain ⟨g, hg, hgf⟩ := (h _ (offers_offer hp)).selected f hrun
    exact ⟨g, detect_eq_some.mp hg, hgf⟩
  · have hdetect := detect_eq_none.mpr hrejected
    have hrun : set.run [offer source p] = some (.error .format) := by
      rw [run]
      rcases detectIncremental_cases set (offer source p) with
        ⟨f', -, hsome, -⟩ | ⟨hf, -⟩ | ⟨-, hincomplete, -⟩
      · cases hsome.symm.trans hdetect
      · rw [hf]
      · rw [offer_complete hcomplete] at hincomplete
        cases hincomplete
    exact detect_eq_none.mp ((h _ (offers_offer hp)).unrecognized _ hrun)

/-- An `ftyp` box with the brands `heic` and `avif`. -/
def twoBrands : List UInt8 :=
  [0, 0, 0, 24, 0x66, 0x74, 0x79, 0x70, 0x6D, 0x69, 0x66, 0x31, 0, 0, 0, 0, 0x68, 0x65, 0x69, 0x63,
    0x61, 0x76, 0x69, 0x66]

/-- A TIFF directory with the tags `SubIFDs` and `DNGVersion`. -/
def twoTags : List UInt8 :=
  [0x49, 0x49, 0x2A, 0, 8, 0, 0, 0, 2, 0, 0x4A, 0x01, 4, 0, 1, 0, 0, 0, 0, 0, 0, 0, 0x12, 0xC6, 1,
    0, 4, 0, 0, 0, 1, 4, 0, 0]

/-- The two brands, cut after the first, are HEIC; the window shows AVIF. The two tags, cut after
the first, are a camera raw; the window shows DNG. -/
theorem detection_dependent :
    (∃ set inputs, Offers twoBrands inputs ∧ set.run inputs = some (.ok .heic) ∧
      set.detect (window twoBrands) = some .avif ∧ ¬ Agrees set twoBrands inputs) ∧
    ∃ set inputs, Offers twoTags inputs ∧ set.run inputs = some (.ok .raw) ∧
      set.detect (window twoTags) = some .dng ∧ ¬ Agrees set twoTags inputs := by
  constructor
  · have hrun : run ⟨[[.heic], [.avif]]⟩ [offer twoBrands (twoBrands.take 20)]
        = some (.ok .heic) := rfl
    have hwindow : detect ⟨[[.heic], [.avif]]⟩ (window twoBrands) = some .avif := rfl
    refine ⟨_, _, offers_offer (List.take_prefix 20 _), hrun, hwindow, fun h => ?_⟩
    obtain ⟨g, hg, hgf⟩ := h.selected _ hrun
    obtain rfl := Option.some.inj (hwindow.symm.trans hg)
    cases hgf
  · have hrun : run ⟨[[.raw], [.dng]]⟩ [offer twoTags (twoTags.take 22)] = some (.ok .raw) := rfl
    have hwindow : detect ⟨[[.raw], [.dng]]⟩ (window twoTags) = some .dng := rfl
    refine ⟨_, _, offers_offer (List.take_prefix 22 _), hrun, hwindow, fun h => ?_⟩
    obtain ⟨g, hg, hgf⟩ := h.selected _ hrun
    obtain rfl := Option.some.inj (hwindow.symm.trans hg)
    cases hgf

end CodecSet

end Zencodec.Format
