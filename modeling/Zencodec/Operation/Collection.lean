/-
The checked collection: native decoding behind one stop token and one policy.

The native collection, the transform, the policy and the pulse are foreign code on the token and
the rest of the world; each may fail or unwind. `run` takes the native object out of the
collection for one operation and puts it back only when the token has not stopped.
-/
import Zencodec.Operation.Latch
import Zencodec.Operation.Choose

namespace Zencodec.Operation

/-- Which view of an item a collection decodes. -/
inductive Composition where
  | composited
  | uncomposited
  deriving DecidableEq, Repr

/-- An owned output: its view, where one is established, and the rest of it. -/
structure ImageOutput (π : Type) where
  composition : Option Composition
  payload : π
  deriving DecidableEq, Repr

inductive CollectionStage where
  | «open»
  | discovery
  | decode
  | policy
  | stopped
  | finished
  | describe
  | transform
  deriving DecidableEq, Repr

/-- The bounded history of decisions: the last 16 records. -/
structure OperationReport where
  records : List DecisionRecord := []
  dropped : ℕ := 0

def OperationReport.record (report : OperationReport) (r : DecisionRecord) : OperationReport :=
  if report.records.length = 16 then ⟨report.records.drop 1 ++ [r], report.dropped + 1⟩
  else { report with records := report.records ++ [r] }

/-- The causes of a failed request: the errors `κ` of the adapter, `ε` of the callback. -/
inductive FailureCause (κ ε ρ : Type) where
  | native (e : κ)
  | composition (expected actual : Composition)
  | unmet (u : UnmetRequirements)
  | policy (e : PolicyFailure ε ρ)
  | stopped (reason : ρ)
  | finished

structure CollectionError (κ ε ρ : Type) where
  stage : CollectionStage
  report : OperationReport
  cause : FailureCause κ ε ρ
  observedStop : Option ρ

def CollectionError.withStop {κ ε ρ : Type} (e : CollectionError κ ε ρ) (reason : Option ρ) :
    CollectionError κ ε ρ := { e with observedStop := reason }

/-! ### Foreign code -/

/-- The stop token beside the process that `choose` runs in. -/
abbrev World (ρ Ω : Type) : Type := ℕ × Token ρ Ω

/-- A native collection with state `N`: identities `ι`, requests `θ`, cursors `χ`, descriptions
`δ` and pixels `π`. `view` takes the object by reference and fails only by unwinding. -/
structure NativeCollection (N ι θ χ δ π κ ρ Ω : Type) where
  view : Act (N × Token ρ Ω) (Fault Empty) Composition
  images : Act (N × Token ρ Ω) (Fault κ) χ
  children : ι → Act (N × Token ρ Ω) (Fault κ) χ
  next : χ → Act (N × Token ρ Ω) (Fault κ) (Option ι × χ)
  describe : ι → Act (N × Token ρ Ω) (Fault κ) δ
  decode : ι → θ → Act (N × Token ρ Ω) (Fault κ) (ImageOutput π)
  keeps_view : Keeps (fun s => s.2.1) view
  keeps_images : Keeps (fun s => s.2.1) images
  keeps_children : ∀ image, Keeps (fun s => s.2.1) (children image)
  keeps_next : ∀ cursor, Keeps (fun s => s.2.1) (next cursor)
  keeps_describe : ∀ image, Keeps (fun s => s.2.1) (describe image)
  keeps_decode : ∀ image request, Keeps (fun s => s.2.1) (decode image request)

/-- A transform of the held output. -/
structure Transform (π κ ρ Ω : Type) where
  apply : ImageOutput π → Act (Token ρ Ω) (Fault κ) (ImageOutput π)
  keeps : ∀ image, Keeps Prod.fst (apply image)

/-- The transform of `decode`. -/
def Transform.identity {π κ ρ Ω : Type} : Transform π κ ρ Ω where
  apply image := pure image
  keeps _ _ _ h := h

/-- A policy, whose questions hold the image to publish. -/
structure ImagePolicy (π ε ρ Ω : Type) where
  requirements : Option PolicySet
  decide : ImageOutput π → Question → Act (World ρ Ω) (Fault ε) Decision
  keeps : ∀ image question, Keeps (fun s => s.2.1) (decide image question)

/-- Another holder of the token: it runs between the operations. -/
structure Elsewhere (ρ Ω : Type) where
  act : Act (Token ρ Ω) (Fault ρ) Unit
  keeps : Keeps Prod.fst act

/-- What an opened collection is used with. -/
structure Env (N ι θ χ δ π κ ε ρ Ω : Type) where
  usizeMax : ℕ
  native : NativeCollection N ι θ χ δ π κ ρ Ω
  source : PulseSource ρ Ω
  resolver : ImagePolicy π ε ρ Ω
  /-- `ImageDescription::validate` -/
  validate : δ → Except κ Unit

/-! ### Publication -/

/-- A failure of `choose` whose callback or pulse unwound is that unwinding. -/
def PolicyFailure.fault {ε ρ : Type} (e : PolicyFailure (Fault ε) (Fault ρ)) :
    Fault (PolicyFailure ε ρ) :=
  match e.cause with
  | .callback .unwound | .stopped .unwound => .unwound
  | .callback (.failed c) => .failed ⟨e.record, .callback c⟩
  | .stopped (.failed r) => .failed ⟨e.record, .stopped r⟩
  | .framework => .failed ⟨e.record, .framework⟩
  | .declined reason => .failed ⟨e.record, .declined reason⟩
  | .encodePlan p => .failed ⟨e.record, .encodePlan p⟩

/-- An image that its policy let out, with the record of the decision. -/
structure Outcome (π : Type) where
  output : ImageOutput π
  record : DecisionRecord

variable {N ι θ χ δ π κ ε ρ Ω α : Type}

def Env.policy (env : Env N ι θ χ δ π κ ε ρ Ω) (image : ImageOutput π) :
    OperationPolicy (Token ρ Ω) (Fault ε) where
  requirements := env.resolver.requirements
  decide := env.resolver.decide image

/-- The question about one held output. -/
def Env.choosePublication (env : Env N ι θ χ δ π κ ε ρ Ω) (image : ImageOutput π)
    (preset : PolicySet) :
    Act (World ρ Ω) (PolicyFailure (Fault ε) (Fault ρ)) (ℕ × DecisionRecord) :=
  choose env.usizeMax .image [.returnHeld] (env.policy image) preset
    (LatchedStop.check env.source)

/-- `resolve_image` -/
def Env.resolveImage (env : Env N ι θ χ δ π κ ε ρ Ω) (image : ImageOutput π)
    (preset : PolicySet) : Act (World ρ Ω) (Fault (PolicyFailure ε ρ)) (Outcome π) := do
  let (_, record) ← Act.mapError PolicyFailure.fault (env.choosePublication image preset)
  pure ⟨image, record⟩

/-! ### Operations -/

/-- What an operation's closure works on: the native object that was taken out, the report and
the world. -/
abbrev Held (N ρ Ω : Type) : Type := N × OperationReport × World ρ Ω

abbrev Request (N κ ε ρ Ω α : Type) : Type := Act (Held N ρ Ω) (Fault (CollectionError κ ε ρ)) α

def Fault.map {β : Type} (f : ε → β) : Fault ε → Fault β
  | .failed e => .failed (f e)
  | .unwound => .unwound

/-- A failure at `stage`, with the report as it is then. -/
def failure (stage : CollectionStage) (report : OperationReport) (cause : FailureCause κ ε ρ) :
    CollectionError κ ε ρ := ⟨stage, report, cause, none⟩

/-- A native call, whose errors belong to `stage`. -/
def onNative {β : Type} (stage : CollectionStage) (cause : β → κ)
    (x : Act (N × Token ρ Ω) (Fault β) α) : Request N κ ε ρ Ω α := do
  let (_, report, _) ← Act.get
  Act.mapError (Fault.map fun e => failure stage report (.native (cause e)))
    (Act.focus (fun t => (t.1, t.2.2.2)) (fun s t => (s.1, t.2.1, t.2.2.1, s.2)) x)

/-- Foreign code that sees the token, but not the native object. -/
def onToken (stage : CollectionStage) (x : Act (Token ρ Ω) (Fault κ) α) :
    Request N κ ε ρ Ω α := do
  let (_, report, _) ← Act.get
  Act.mapError (Fault.map fun e => failure stage report (.native e))
    (Act.focus (fun t => t.2.2.2) (fun s t => (t.1, t.2.1, t.2.2.1, s)) x)

/-- `check`: a stop, as the failure that reports it. -/
def stopFailure (report : OperationReport) (reason : ρ) : CollectionError κ ε ρ :=
  (failure .stopped report (.stopped reason)).withStop (some reason)

/-- `check` inside an operation. -/
def checkHeld (env : Env N ι θ χ δ π κ ε ρ Ω) : Request N κ ε ρ Ω Unit := do
  let (_, report, _) ← Act.get
  Act.mapError (Fault.map (stopFailure report))
    (Act.focus (fun t => t.2.2.2) (fun s t => (t.1, t.2.1, t.2.2.1, s))
      (LatchedStop.check env.source))

/-- `check_view` -/
def checkView (env : Env N ι θ χ δ π κ ε ρ Ω) (view : Composition) :
    Request N κ ε ρ Ω Unit := do
  let actual ← onNative .decode Empty.elim env.native.view
  let (_, report, _) ← Act.get
  Act.require (actual = view) (.failed (failure .decode report (.composition view actual)))

/-- `in_collection_view` -/
def ImageOutput.inCollectionView (image : ImageOutput π) (expected : Composition) :
    Except Composition (ImageOutput π) :=
  match image.composition with
  | some actual => if actual = expected then .ok image else .error actual
  | none => .ok { image with composition := some expected }

/-- The `match` on `resolve_image`: its decision is recorded either way. -/
def publish (env : Env N ι θ χ δ π κ ε ρ Ω) (preset : PolicySet) (image : ImageOutput π) :
    Request N κ ε ρ Ω (Outcome π) := fun t =>
  match env.resolveImage image preset t.2.2 with
  | (.ok out, w) => (.ok out, t.1, t.2.1.record out.record, w)
  | (.error (.failed e), w) =>
    (.error (.failed (failure .policy (t.2.1.record e.record) (.policy e))),
      t.1, t.2.1.record e.record, w)
  | (.error .unwound, w) => (.error .unwound, t.1, t.2.1, w)

/-- The closure of `decode_with`. -/
def decodeHeld (env : Env N ι θ χ δ π κ ε ρ Ω) (view : Composition) (preset : PolicySet)
    (image : ι) (request : θ) (transform : Transform π κ ρ Ω) :
    Request N κ ε ρ Ω (Outcome π) := do
  checkView env view
  let image ← onNative .decode id (env.native.decode image request)
  checkView env view
  let (_, report, _) ← Act.get
  let image ← Act.lift ((image.inCollectionView view).mapError fun actual =>
    .failed (failure .decode report (.composition view actual)))
  checkHeld env
  let image ← onToken .transform (transform.apply image)
  checkHeld env
  publish env preset image

/-- The closure of `describe`. -/
def describeHeld (env : Env N ι θ χ δ π κ ε ρ Ω) (image : ι) : Request N κ ε ρ Ω δ := do
  let description ← onNative .describe id (env.native.describe image)
  let (_, report, _) ← Act.get
  Act.lift ((env.validate description).mapError fun e =>
    .failed (failure .describe report (.native e)))
  pure description

/-! ### The collection -/

structure CheckedCollection (N ρ : Type) where
  collection : Option N
  view : Composition
  preset : PolicySet
  report : OperationReport
  observedStop : Option ρ

abbrev Checked (N κ ε ρ Ω α : Type) : Type :=
  Act (CheckedCollection N ρ × World ρ Ω) (Fault (CollectionError κ ε ρ)) α

/-- The workspace admission of `run`: no bound is qualified here. -/
def Env.admission (env : Env N ι θ χ δ π κ ε ρ Ω) (preset : PolicySet) :
    Except UnmetRequirements Unit := do
  (env.resolver.requirements.getD {}).checkWorkspace none
  preset.checkWorkspace none

/-- The failure of a stopped operation: its own one stays the cause, a value is dropped. -/
def stopResult (report : OperationReport) (reason : ρ) :
    Except (CollectionError κ ε ρ) α → CollectionError κ ε ρ
  | .ok _ => stopFailure report reason
  | .error e => e.withStop (some reason)

/-- The end of `run`: the final check decides whether the native object goes back. -/
def settle (env : Env N ι θ χ δ π κ ε ρ Ω) (c : CheckedCollection N ρ) (native : N)
    (result : Except (CollectionError κ ε ρ) α) (w : World ρ Ω) :
    Except (Fault (CollectionError κ ε ρ)) α × CheckedCollection N ρ × World ρ Ω :=
  match LatchedStop.check env.source w.2 with
  | (.ok (), token) => (result.mapError .failed, { c with collection := some native }, w.1, token)
  | (.error (.failed r), token) =>
    (.error (.failed (stopResult c.report r result)), { c with observedStop := some r }, w.1, token)
  | (.error .unwound, token) => (.error .unwound, c, w.1, token)

/-- `run` -/
def CheckedCollection.run (env : Env N ι θ χ δ π κ ε ρ Ω)
    (operation : CheckedCollection N ρ → Request N κ ε ρ Ω α) : Checked N κ ε ρ Ω α := fun s =>
  match s.1.collection with
  | none =>
    (.error (.failed ((failure .finished s.1.report .finished).withStop s.1.observedStop)), s)
  | some native =>
    let c := { s.1 with collection := none }
    match LatchedStop.check env.source s.2.2 with
    | (.error (.failed r), token) =>
      (.error (.failed (stopFailure c.report r)), { c with observedStop := some r }, s.2.1, token)
    | (.error .unwound, token) => (.error .unwound, c, s.2.1, token)
    | (.ok (), token) =>
      match env.admission c.preset with
      | .error u =>
        (.error (.failed (failure .policy c.report (.unmet u))),
          { c with collection := some native }, s.2.1, token)
      | .ok () =>
        match operation c (native, c.report, s.2.1, token) with
        | (.ok a, native, report, w) => settle env { c with report := report } native (.ok a) w
        | (.error (.failed e), native, report, w) =>
          settle env { c with report := report } native (.error e) w
        -- the native object was taken out and is dropped by the unwinding
        | (.error .unwound, _, report, w) => (.error .unwound, { c with report := report }, w)

namespace CheckedCollection

variable (env : Env N ι θ χ δ π κ ε ρ Ω)

def images : Checked N κ ε ρ Ω χ :=
  run env fun _ => onNative .discovery id env.native.images

def children (image : ι) : Checked N κ ε ρ Ω χ :=
  run env fun _ => onNative .discovery id (env.native.children image)

/-- `next`, which also hands back the cursor that it advances. -/
def next (cursor : χ) : Checked N κ ε ρ Ω (Option ι × χ) :=
  run env fun _ => onNative .discovery id (env.native.next cursor)

def describe (image : ι) : Checked N κ ε ρ Ω δ := run env fun _ => describeHeld env image

def decodeWith (image : ι) (request : θ) (transform : Transform π κ ρ Ω) :
    Checked N κ ε ρ Ω (Outcome π) :=
  run env fun c => decodeHeld env c.view c.preset image request transform

def decode (image : ι) (request : θ) : Checked N κ ε ρ Ω (Outcome π) :=
  decodeWith env image request .identity

def firstImage (request : θ) : Checked N κ ε ρ Ω (Option (Outcome π)) := do
  let cursor ← images env
  let (first, _) ← next env cursor
  match first with
  | some id => do
    let out ← decode env id request
    pure (some out)
  | none => pure none

/-- `open` -/
def «open» (factory : Act (Token ρ Ω) (Fault κ) N) :
    Act (World ρ Ω) (Fault (CollectionError κ ε ρ)) (CheckedCollection N ρ) :=
  Act.focus Prod.snd (fun token w => (w.1, token)) fun token =>
    match LatchedStop.check env.source token with
    | (.error e, token) => (.error (e.map (stopFailure {})), token)
    | (.ok (), token) =>
      match (env.resolver.requirements.getD {}).checkWorkspace none with
      | .error u => (.error (.failed (failure .policy {} (.unmet u))), token)
      | .ok () =>
        match factory token with
        | (.error .unwound, token) => (.error .unwound, token)
        | (made, token) =>
          match made, LatchedStop.check env.source token with
          | _, (.error .unwound, token) => (.error .unwound, token)
          | .ok _, (.error (.failed r), token) => (.error (.failed (stopFailure {} r)), token)
          | .error e, (.error (.failed r), token) =>
            (.error (e.map fun e => (failure .open {} (.native e)).withStop (some r)), token)
          | .error e, (.ok (), token) =>
            (.error (e.map fun e => failure .open {} (.native e)), token)
          | .ok native, (.ok (), token) =>
            match env.native.view (native, token) with
            | (.error _, s) => (.error .unwound, s.2)
            | (.ok view, s) => (.ok ⟨some s.1, view, {}, {}, none⟩, s.2)

end CheckedCollection

/-- What a run does: operations, and other holders of the token between them. -/
inductive Op (ι θ χ π κ ρ Ω : Type) where
  | images
  | children (image : ι)
  | next (cursor : χ)
  | describe (image : ι)
  | decodeWith (image : ι) (request : θ) (transform : Transform π κ ρ Ω)
  | decode (image : ι) (request : θ)
  | firstImage (request : θ)
  | withPolicySet (preset : PolicySet)
  | elsewhere (other : Elsewhere ρ Ω)

/-- An operation asks for native work; the others do not. -/
def Op.isOperation {ι θ χ π κ ρ Ω : Type} : Op ι θ χ π κ ρ Ω → Bool
  | withPolicySet _ | elsewhere _ => false
  | _ => true

inductive Answer (ι χ δ π : Type) where
  | cursor (cursor : χ)
  | next (image : Option ι) (cursor : χ)
  | described (description : δ)
  | output (out : Outcome π)
  | first (out : Option (Outcome π))
  | done

section
open CheckedCollection

/-- One step of a run. -/
def step (env : Env N ι θ χ δ π κ ε ρ Ω) (s : CheckedCollection N ρ × World ρ Ω)
    (op : Op ι θ χ π κ ρ Ω) : Except (Fault (CollectionError κ ε ρ)) (Answer ι χ δ π) ×
      CheckedCollection N ρ × World ρ Ω :=
  match op with
  | .images => (images env >>= fun cursor => pure (.cursor cursor)) s
  | .children image => (children env image >>= fun cursor => pure (.cursor cursor)) s
  | .next cursor => (next env cursor >>= fun r => pure (.next r.1 r.2)) s
  | .describe image => (describe env image >>= fun d => pure (.described d)) s
  | .decodeWith image request transform =>
    (decodeWith env image request transform >>= fun out => pure (.output out)) s
  | .decode image request => (decode env image request >>= fun out => pure (.output out)) s
  | .firstImage request => (firstImage env request >>= fun out => pure (.first out)) s
  | .withPolicySet preset => (.ok .done, { s.1 with preset := preset }, s.2)
  | .elsewhere other => (.ok .done, s.1, s.2.1, (other.act s.2.2).2)

end

end Zencodec.Operation
