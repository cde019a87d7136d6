/-
Runs of `WholeFileIncremental` under drivers that honour its requests.

A driver has the source `src`: what it offers are bytes of it, and after a `need` it offers an
input that satisfies the request. `Run` is such a run, up to its end or not, and `Faithful` is
what is proved of its turns:

* the one-shot push decoder is called at most once, on the complete source, and the run has its
  sink calls and its result;
* a header update comes at most once and before the rows;
* no request is satisfied by the input just offered.

`run_faithful` proves it for every run in which no known length is cut, and `run_ends` bounds
the number of turns.
-/
import Mathlib.Data.List.Infix
import Zencodec.Incremental.WholeFile

namespace Zencodec.Incremental

variable {δ ι τ ε Ω : Type}

namespace WholeFile

/-! ### Drivers -/

/-- The input is part of the source `src`. -/
structure Honest (src : List UInt8) (input : Input) : Prop where
  bytes : input.bytes <+: src.drop input.offset
  total : ∀ t ∈ input.totalLen, t = src.length

/-- One step of a run: what was offered and answered, the state before and after it, and the
world after the pulse check and in the end. -/
structure Turn (δ ι τ ε Ω : Type) where
  input : Input
  reply : Except (StepError τ ε) (Progress δ)
  before : WholeFile δ ι ε Ω
  after : WholeFile δ ι ε Ω
  polled : Ω
  world : Ω

def turnOf (usizeMax : ℕ) (s : WholeFile δ ι ε Ω) (input : Input) (pulse : Option (Pulse Ω))
    (w : Ω) : Turn δ ι τ ε Ω :=
  let out := s.step usizeMax input pulse w
  ⟨input, out.1, s, out.2.1, (checkPulse pulse w).2, out.2.2⟩

namespace Turn

/-- The push decoder is called: it takes the job. -/
def calls (t : Turn δ ι τ ε Ω) : Bool := t.before.job.isSome && t.after.job.isNone

def isNeed (t : Turn δ ι τ ε Ω) : Bool :=
  match t.reply with
  | .ok ⟨_, .need⟩ => true
  | _ => false

def isHeader (t : Turn δ ι τ ε Ω) : Bool :=
  match t.reply with
  | .ok ⟨_, .metadata _⟩ => true
  | _ => false

def isRows (t : Turn δ ι τ ε Ω) : Bool :=
  match t.reply with
  | .ok ⟨_, .rows _ _⟩ => true
  | _ => false

/-- Before the decode, an incomplete input from the start of the source carries a length that
is cut to no more than what it holds. -/
def Cut (usizeMax : ℕ) (t : Turn δ ι τ ε Ω) : Prop :=
  t.before.decoded = none ∧ complete t.input = false ∧ t.input.offset = 0 ∧
    ∃ total, t.input.totalLen = some total ∧ total % (usizeMax + 1) ≤ t.input.bytes.length

end Turn

/-- A run that may go on, with its last event, and its state. -/
inductive Drives (usizeMax : ℕ) (job : DecodeJob δ ι ε Ω) (preferred : List δ)
    (src : List UInt8) (w₀ : Ω) :
    List (Turn δ ι τ ε Ω) → Option (Event δ) → WholeFile δ ι ε Ω → Ω → Prop
  | start : Drives usizeMax job preferred src w₀ [] none (new job preferred) w₀
  | turn {l : List (Turn δ ι τ ε Ω)} {last : Option (Event δ)} {s : WholeFile δ ι ε Ω} {w : Ω}
      {input : Input} {pulse : Option (Pulse Ω)} {t : Turn δ ι τ ε Ω} {p : Progress δ} :
      Drives usizeMax job preferred src w₀ l last s w → Honest src input →
      (last = some .need → s.needed.isSatisfiedBy input = true) →
      turnOf usizeMax s input pulse w = t → t.reply = .ok p → (∀ out, p.event ≠ .done out) →
      Drives usizeMax job preferred src w₀ (l ++ [t]) (some p.event) t.after t.world

/-- The turns of a run. -/
inductive Run (usizeMax : ℕ) (job : DecodeJob δ ι ε Ω) (preferred : List δ)
    (src : List UInt8) (w₀ : Ω) : List (Turn δ ι τ ε Ω) → Prop
  | start : Run usizeMax job preferred src w₀ []
  | turn {l : List (Turn δ ι τ ε Ω)} {last : Option (Event δ)} {s : WholeFile δ ι ε Ω} {w : Ω}
      {input : Input} {pulse : Option (Pulse Ω)} :
      Drives usizeMax job preferred src w₀ l last s w → Honest src input →
      (last = some .need → s.needed.isSatisfiedBy input = true) →
      Run usizeMax job preferred src w₀ (l ++ [turnOf usizeMax s input pulse w])

/-! ### What a run is faithful to -/

/-- The turns have the sink calls and the result of the one-shot call on the source. -/
structure Faithful (job : DecodeJob δ ι ε Ω) (preferred : List δ) (src : List UInt8)
    (l : List (Turn δ ι τ ε Ω)) : Prop where
  once : l.countP Turn.calls ≤ 1
  call : ∀ t ∈ l, t.calls = true → t.input.bytes = src ∧
    t.reply = delivered src.length (job.pushDecoder src preferred t.polled).1 ∧
    t.world = (job.pushDecoder src preferred t.polled).2
  quiet : ∀ t ∈ l, t.calls = false → t.world = t.polled
  rows : ∀ t ∈ l, t.isRows = true → t.calls = true
  done : ∀ t ∈ l, ∀ n out, t.reply = .ok ⟨n, .done out⟩ → ∃ u ∈ l, u.calls = true ∧
    (job.pushDecoder src preferred u.polled).1 = .ok out
  failed : ∀ t ∈ l, ∀ e, t.reply = .error e → (∃ r, e = .cancelled r) ∨ t.calls = true
  header : l.countP Turn.isHeader ≤ 1
  headerFirst : l.Pairwise fun t u => t.calls = true → u.isHeader = false
  unsatisfied : ∀ t ∈ l, t.isNeed = true → t.after.needed.isSatisfiedBy t.input = false

/-- What a turn is, after the turns of `l`. -/
structure Fits (job : DecodeJob δ ι ε Ω) (preferred : List δ) (src : List UInt8)
    (l : List (Turn δ ι τ ε Ω)) (t : Turn δ ι τ ε Ω) : Prop where
  once : t.calls = true → ∀ u ∈ l, u.calls = false
  call : t.calls = true → t.input.bytes = src ∧
    t.reply = delivered src.length (job.pushDecoder src preferred t.polled).1 ∧
    t.world = (job.pushDecoder src preferred t.polled).2
  quiet : t.calls = false → t.world = t.polled
  rows : t.isRows = true → t.calls = true
  done : ∀ n out, t.reply = .ok ⟨n, .done out⟩ → ∃ u ∈ l, u.calls = true ∧
    (job.pushDecoder src preferred u.polled).1 = .ok out
  failed : ∀ e, t.reply = .error e → (∃ r, e = .cancelled r) ∨ t.calls = true
  header : t.isHeader = true → ∀ u ∈ l, u.isHeader = false ∧ u.calls = false
  unsatisfied : t.isNeed = true → t.after.needed.isSatisfiedBy t.input = false

variable {job : DecodeJob δ ι ε Ω} {preferred : List δ} {src : List UInt8}
  {l : List (Turn δ ι τ ε Ω)} {t : Turn δ ι τ ε Ω} {usizeMax : ℕ} {w₀ : Ω}

/-- One more turn of a kind of which there was none before leaves at most one of them. -/
theorem countP_snoc_le {p : Turn δ ι τ ε Ω → Bool} (h : l.countP p ≤ 1)
    (ht : p t = true → ∀ u ∈ l, p u = false) : (l ++ [t]).countP p ≤ 1 := by
  rw [List.countP_append, List.countP_singleton]
  split
  · next hp =>
    have hzero : l.countP p = 0 := List.countP_eq_zero.mpr fun u hu => by
      rw [ht hp u hu]
      exact Bool.false_ne_true
    omega
  · exact h

theorem forall_mem_snoc {P : Turn δ ι τ ε Ω → Prop} :
    (∀ u ∈ l ++ [t], P u) ↔ (∀ u ∈ l, P u) ∧ P t := by
  rw [List.forall_mem_append, List.forall_mem_singleton]

theorem faithful_nil : Faithful job preferred src ([] : List (Turn δ ι τ ε Ω)) where
  once := Nat.zero_le 1
  call := List.forall_mem_nil _
  quiet := List.forall_mem_nil _
  rows := List.forall_mem_nil _
  done := List.forall_mem_nil _
  failed := List.forall_mem_nil _
  header := Nat.zero_le 1
  headerFirst := .nil
  unsatisfied := List.forall_mem_nil _

theorem Faithful.snoc (h : Faithful job preferred src l) (ht : Fits job preferred src l t) :
    Faithful job preferred src (l ++ [t]) where
  once := countP_snoc_le h.once ht.once
  call := forall_mem_snoc.mpr ⟨h.call, ht.call⟩
  quiet := forall_mem_snoc.mpr ⟨h.quiet, ht.quiet⟩
  rows := forall_mem_snoc.mpr ⟨h.rows, ht.rows⟩
  done := by
    have hmem : ∀ u ∈ l, u ∈ l ++ [t] := fun u hu => List.mem_append_left _ hu
    refine forall_mem_snoc.mpr ⟨fun v hv n out hreply => ?_, fun n out hreply => ?_⟩
    · obtain ⟨u, hu, hcalls⟩ := h.done v hv n out hreply
      exact ⟨u, hmem u hu, hcalls⟩
    · obtain ⟨u, hu, hcalls⟩ := ht.done n out hreply
      exact ⟨u, hmem u hu, hcalls⟩
  failed := forall_mem_snoc.mpr ⟨h.failed, ht.failed⟩
  header := countP_snoc_le h.header fun hp u hu => (ht.header hp u hu).1
  headerFirst := by
    refine List.pairwise_append.mpr ⟨h.headerFirst, List.pairwise_singleton _ _, ?_⟩
    intro u hu v hv hcalls
    obtain rfl := List.mem_singleton.mp hv
    by_contra hp
    have hquiet := (ht.header (by simpa using hp) u hu).2
    rw [hquiet] at hcalls
    cases hcalls
  unsatisfied := forall_mem_snoc.mpr ⟨h.unsatisfied, ht.unsatisfied⟩

/-! ### One turn -/

theorem Honest.complete {input : Input} (h : Honest src input)
    (hcomplete : complete input = true) : input.bytes = src := by
  rw [WholeFile.complete, Input.reachesEnd, Bool.and_eq_true, beq_iff_eq, beq_iff_eq] at hcomplete
  obtain ⟨hoffset, hend⟩ := hcomplete
  have hwhole : input.bytes <+: src := by
    have := h.bytes
    rwa [hoffset, List.drop_zero] at this
  refine hwhole.eq_of_length_le ?_
  have hlen : input.stop = src.length := h.total _ hend
  rw [← hlen, Input.stop, saturatingAdd, hoffset, Nat.zero_add]
  exact min_le_left _ _

/-- Where a run is: still reading, or past the decode. -/
inductive Phase (job : DecodeJob δ ι ε Ω) (preferred : List δ) (src : List UInt8)
    (l : List (Turn δ ι τ ε Ω)) (s : WholeFile δ ι ε Ω) : Prop
  | reading : s.job = some job → s.decoded = none → s.preferred = preferred →
      (∀ u ∈ l, u.calls = false) → (s.probed = false → ∀ u ∈ l, u.isHeader = false) →
      Phase job preferred src l s
  | decoded {out : OutputInfo δ} : s.job = none → s.decoded = some out →
      (∃ u ∈ l, u.calls = true ∧ (job.pushDecoder src preferred u.polled).1 = .ok out) →
      Phase job preferred src l s

theorem Phase.ready {s : WholeFile δ ι ε Ω} (h : Phase job preferred src l s) :
    s.job.isSome = true ∨ s.decoded.isSome = true := by
  cases h with
  | reading hjob => exact .inl (by rw [hjob]; rfl)
  | decoded _ hdecoded => exact .inr (by rw [hdecoded]; rfl)

/-- A turn is stopped by its pulse, or is a step. -/
theorem turnOf_cases {s : WholeFile δ ι ε Ω} {input : Input} {pulse : Option (Pulse Ω)} {w : Ω}
    (hready : s.job.isSome = true ∨ s.decoded.isSome = true)
    (ht : turnOf usizeMax s input pulse w = t) :
    t.input = input ∧ t.before = s ∧
      ((∃ r, t.reply = .error (.cancelled r) ∧ t.after = s ∧ t.world = t.polled) ∨
        StepTo usizeMax s input t.polled t.reply t.after t.world) := by
  subst ht
  refine ⟨rfl, rfl, ?_⟩
  unfold turnOf step
  obtain ⟨r, w'⟩ := checkPulse pulse w
  cases r with
  | error reason => exact .inl ⟨reason, rfl, rfl, rfl⟩
  | ok u => exact .inr (stepPolled_to usizeMax input w' hready)

/-- A turn that leaves the job alone, and answers neither with rows nor with the end. -/
theorem fits_of_same (hcalls : t.calls = false) (hworld : t.world = t.polled)
    (hrows : t.isRows = false) (hdone : ∀ n out, t.reply ≠ .ok ⟨n, .done out⟩)
    (hfailed : ∀ e, t.reply = .error e → ∃ r, e = .cancelled r)
    (hheader : t.isHeader = true → ∀ u ∈ l, u.isHeader = false ∧ u.calls = false)
    (hneed : t.isNeed = true → t.after.needed.isSatisfiedBy t.input = false) :
    Fits job preferred src l t where
  once h := by rw [hcalls] at h; cases h
  call h := by rw [hcalls] at h; cases h
  quiet _ := hworld
  rows h := by rw [hrows] at h; cases h
  done n out h := absurd h (hdone n out)
  failed e h := .inl (hfailed e h)
  header := hheader
  unsatisfied := hneed

theorem calls_of_job (h : t.after.job = t.before.job) : t.calls = false := by
  rw [Turn.calls, h]
  cases t.before.job <;> rfl

/-- A turn that does not call keeps the run in its phase. -/
theorem Phase.snoc {s s' : WholeFile δ ι ε Ω} (h : Phase job preferred src l s)
    (hjob : s'.job = s.job) (hdecoded : s'.decoded = s.decoded)
    (hpreferred : s'.preferred = s.preferred) (hcalls : t.calls = false)
    (hheader : s'.probed = false → s.probed = false ∧ t.isHeader = false) :
    Phase job preferred src (l ++ [t]) s' := by
  cases h with
  | reading hj hd hp hl hh =>
    refine .reading (hjob.trans hj) (hdecoded.trans hd) (hpreferred.trans hp)
      (forall_mem_snoc.mpr ⟨hl, hcalls⟩) fun hprobed => ?_
    obtain ⟨hwas, ht⟩ := hheader hprobed
    exact forall_mem_snoc.mpr ⟨hh hwas, ht⟩
  | decoded hj hd hu =>
    obtain ⟨u, hu, hcalls⟩ := hu
    exact .decoded (hjob.trans hj) (hdecoded.trans hd) ⟨u, List.mem_append_left _ hu, hcalls⟩

/-- A turn that is stopped by its pulse. -/
theorem fits_cancelled {r : StopReason} (hreply : t.reply = .error (.cancelled r))
    (hafter : t.after = t.before) (hworld : t.world = t.polled) :
    Fits job preferred src l t := by
  refine fits_of_same (calls_of_job (by rw [hafter])) hworld (by simp [Turn.isRows, hreply])
    (by simp [hreply]) (fun e he => ⟨r, ?_⟩) (by simp [Turn.isHeader, hreply])
    (by simp [Turn.isNeed, hreply])
  exact (Except.error.inj (hreply.symm.trans he)).symm

/-- A turn of the reading phase that asks for more, when no length is cut. -/
theorem fits_need (hreply : t.reply = .ok ⟨0, .need⟩) (hjob : t.after.job = t.before.job)
    (hworld : t.world = t.polled) (hneed : t.after.needed.isSatisfiedBy t.input = false) :
    Fits job preferred src l t :=
  fits_of_same (calls_of_job hjob) hworld (by simp [Turn.isRows, hreply]) (by simp [hreply])
    (by simp [hreply]) (by simp [Turn.isHeader, hreply]) fun _ => hneed

/-- The turn that announces the header. -/
theorem fits_header (hreply : t.reply = .ok ⟨0, .metadata .headerReady⟩)
    (hjob : t.after.job = t.before.job) (hworld : t.world = t.polled)
    (hl : ∀ u ∈ l, u.isHeader = false ∧ u.calls = false) : Fits job preferred src l t :=
  fits_of_same (calls_of_job hjob) hworld (by simp [Turn.isRows, hreply]) (by simp [hreply])
    (by simp [hreply]) (fun _ => hl) (by simp [Turn.isNeed, hreply])

/-- The turn that says that the decode is over. -/
theorem fits_done {out : OutputInfo δ} (hreply : t.reply = .ok ⟨0, .done out⟩)
    (hjob : t.after.job = t.before.job) (hworld : t.world = t.polled)
    (hl : ∃ u ∈ l, u.calls = true ∧ (job.pushDecoder src preferred u.polled).1 = .ok out) :
    Fits job preferred src l t := by
  have hcalls : t.calls = false := calls_of_job hjob
  exact
    { once := fun h => absurd h (by simp [hcalls])
      call := fun h => absurd h (by simp [hcalls])
      quiet := fun _ => hworld
      rows := by simp [Turn.isRows, hreply]
      done := fun n out' h => by
        rw [hreply] at h
        cases h
        exact hl
      failed := by simp [hreply]
      header := by simp [Turn.isHeader, hreply]
      unsatisfied := by simp [Turn.isNeed, hreply] }

/-- The turn that runs the push decoder. -/
theorem fits_call (hcalls : t.calls = true) (hbytes : t.input.bytes = src)
    (hreply : t.reply = delivered src.length (job.pushDecoder src preferred t.polled).1)
    (hworld : t.world = (job.pushDecoder src preferred t.polled).2)
    (hl : ∀ u ∈ l, u.calls = false) : Fits job preferred src l t := by
  have hkind : t.isHeader = false ∧ t.isNeed = false ∧ ∀ n out, t.reply ≠ .ok ⟨n, .done out⟩ := by
    rw [Turn.isHeader, Turn.isNeed, hreply]
    cases (job.pushDecoder src preferred t.polled).1 with
    | ok out => exact ⟨rfl, rfl, fun n out' h => by cases h⟩
    | error e => exact ⟨rfl, rfl, fun n out' h => by cases h⟩
  exact
    { once := fun _ => hl
      call := fun _ => ⟨hbytes, hreply, hworld⟩
      quiet := fun h => absurd (hcalls.symm.trans h) (by simp)
      rows := fun _ => hcalls
      done := fun n out h => absurd h (hkind.2.2 n out)
      failed := fun _ _ => .inr hcalls
      header := fun h => absurd (hkind.1.symm.trans h) (by simp)
      unsatisfied := fun h => absurd (hkind.2.1.symm.trans h) (by simp) }

/-- Each turn of a run in which no length is cut fits those before it, and the run goes on. -/
theorem turn_fits {s : WholeFile δ ι ε Ω} {input : Input} {pulse : Option (Pulse Ω)} {w : Ω}
    (hphase : Phase job preferred src l s) (hhonest : Honest src input)
    (ht : turnOf usizeMax s input pulse w = t) (hcut : ¬t.Cut usizeMax) :
    Fits job preferred src l t ∧
      ∀ p, t.reply = .ok p → Phase job preferred src (l ++ [t]) t.after := by
  obtain ⟨rfl, rfl, ⟨r, hreply, hafter, hworld⟩ | hstep⟩ := turnOf_cases hphase.ready ht
  · refine ⟨fits_cancelled hreply hafter hworld, fun p hp => ?_⟩
    rw [hreply] at hp
    cases hp
  generalize hreply : t.reply = reply at hstep
  generalize hafter : t.after = after at hstep
  generalize hworld : t.world = world at hstep
  cases hstep with
  | @done out hdecoded =>
    have hsame : t.calls = false := calls_of_job (by rw [hafter])
    cases hphase with
    | reading _ hnone => rw [hdecoded] at hnone; cases hnone
    | @decoded out' hjob hsome hcall =>
      obtain rfl := Option.some_inj.mp (hdecoded.symm.trans hsome)
      refine ⟨fits_done hreply (by rw [hafter]) hworld hcall, fun p _ => ?_⟩
      exact (Phase.decoded hjob hsome hcall).snoc rfl rfl rfl hsame fun h =>
        ⟨h, by simp [Turn.isHeader, hreply]⟩
  | @header info hdecoded hprobed =>
    have hsame : t.calls = false := calls_of_job (by rw [hafter])
    have hl : ∀ u ∈ l, u.isHeader = false ∧ u.calls = false := by
      cases hphase with
      | reading _ _ _ hcalls hheader => exact fun u hu => ⟨hheader hprobed u hu, hcalls u hu⟩
      | decoded _ hsome => rw [hdecoded] at hsome; cases hsome
    refine ⟨fits_header hreply (by rw [hafter]) hworld hl, fun p _ => ?_⟩
    exact hphase.snoc rfl rfl rfl hsame fun h => by cases h
  | need hdecoded hcomplete =>
    have hsame : t.calls = false := calls_of_job (by rw [hafter]; rfl)
    have hneed : t.after.needed.isSatisfiedBy t.input = false := by
      rw [hafter]
      by_contra hsat
      have hcut' := (needMore_satisfied_iff usizeMax t.before hcomplete).mp (by simpa using hsat)
      exact hcut ⟨hdecoded, hcomplete, hcut'⟩
    refine ⟨fits_need hreply (by rw [hafter]; rfl) hworld hneed, fun p _ => ?_⟩
    exact hphase.snoc rfl rfl rfl hsame fun h => ⟨h, by simp [Turn.isHeader, hreply]⟩
  | @decode job' s' hdecoded hjob hcomplete hgone hresult =>
    cases hphase with
    | decoded _ hsome => rw [hdecoded] at hsome; cases hsome
    | reading hjob' _ hpreferred hl =>
      obtain rfl : job = job' := Option.some_inj.mp (hjob'.symm.trans hjob)
      have hbytes := hhonest.complete hcomplete
      rw [hbytes, hpreferred] at hreply hworld hresult
      have hcalls : t.calls = true := by rw [Turn.calls, hjob, hafter, hgone]; rfl
      refine ⟨fits_call hcalls hbytes hreply hworld hl, fun p hp => ?_⟩
      cases hout : (job.pushDecoder src preferred t.polled).1 with
      | error e =>
        rw [hbytes, hpreferred, hout] at hp
        cases hp
      | ok out =>
        rw [hout] at hresult
        exact .decoded hgone hresult ⟨t, List.mem_append_right _ List.mem_cons_self, hcalls, hout⟩

/-! ### Runs -/

theorem drives_faithful {last : Option (Event δ)} {s : WholeFile δ ι ε Ω} {w : Ω}
    (h : Drives usizeMax job preferred src w₀ l last s w) (hcut : ∀ t ∈ l, ¬t.Cut usizeMax) :
    Faithful job preferred src l ∧ Phase job preferred src l s := by
  induction h with
  | start =>
    exact ⟨faithful_nil,
      .reading rfl rfl rfl (List.forall_mem_nil _) fun _ => List.forall_mem_nil _⟩
  | turn _ hhonest _ ht hreply _ ih =>
    obtain ⟨hl, hlast⟩ := forall_mem_snoc.mp hcut
    obtain ⟨hfaithful, hphase⟩ := ih hl
    obtain ⟨hfits, hnext⟩ := turn_fits hphase hhonest ht hlast
    exact ⟨hfaithful.snoc hfits, hnext _ hreply⟩

theorem run_faithful (h : Run usizeMax job preferred src w₀ l)
    (hcut : ∀ t ∈ l, ¬t.Cut usizeMax) : Faithful job preferred src l := by
  cases h with
  | start => exact faithful_nil
  | turn hdrives hhonest _ =>
    obtain ⟨hl, hlast⟩ := forall_mem_snoc.mp hcut
    obtain ⟨hfaithful, hphase⟩ := drives_faithful hdrives hl
    exact hfaithful.snoc (turn_fits hphase hhonest rfl hlast).1

/-! ### The end of a run -/

/-- How many bytes a request asks for. -/
def asked : InputRequest → ℕ
  | .atLeast _ minLen => minLen
  | _ => 0

def isNeedEvent : Option (Event δ) → Bool
  | some .need => true
  | _ => false

/-- How many turns may be left before the header is announced or given up: after a `need`, each
request asks for more than the one before. -/
def requestsLeft (n : ℕ) (last : Option (Event δ)) (s : WholeFile δ ι ε Ω) : ℕ :=
  if isNeedEvent last then n + 3 - min (asked s.needed) (n + 1) else n + 4

/-- How many turns may be left over a source of `n` bytes; the header is announced once. -/
def turnsLeft (n : ℕ) (last : Option (Event δ)) (s : WholeFile δ ι ε Ω) : ℕ :=
  if s.decoded.isSome then 1
  else requestsLeft n last s + if s.probed then 0 else n + 4

theorem requestsLeft_mem (n : ℕ) (last : Option (Event δ)) (s : WholeFile δ ι ε Ω) :
    2 ≤ requestsLeft n last s ∧ requestsLeft n last s ≤ n + 4 := by
  rw [requestsLeft]
  split <;> omega

theorem turnsLeft_of_none {s : WholeFile δ ι ε Ω} (h : s.decoded = none) (n : ℕ)
    (last : Option (Event δ)) :
    turnsLeft n last s = requestsLeft n last s + if s.probed then 0 else n + 4 := by
  rw [turnsLeft, h]
  rfl

theorem turnsLeft_pos (n : ℕ) (last : Option (Event δ)) (s : WholeFile δ ι ε Ω) :
    1 ≤ turnsLeft n last s := by
  have := requestsLeft_mem n last s
  rw [turnsLeft]
  split <;> omega

/-- A driver that answers a request with an incomplete input offers as much as was asked. -/
theorem asked_le {input : Input} {v : ℕ}
    (hsat : (InputRequest.atLeast 0 v).isSatisfiedBy input = true)
    (hcomplete : complete input = false) : input.offset = 0 ∧ v ≤ input.bytes.length := by
  rw [InputRequest.isSatisfiedBy, Bool.and_eq_true, beq_iff_eq, Bool.or_eq_true,
    decide_eq_true_eq] at hsat
  obtain ⟨hoffset, hlen⟩ := hsat
  refine ⟨hoffset, hlen.resolve_right fun hend => ?_⟩
  rw [complete, Input.reachesEnd, hend, hoffset] at hcomplete
  cases hcomplete

theorem Honest.length_le {input : Input} (h : Honest src input) (hoffset : input.offset = 0) :
    input.bytes.length ≤ src.length := by
  have := h.bytes.length_le
  rwa [hoffset, List.drop_zero] at this

/-- Every turn after which the run goes on leaves fewer. -/
theorem turnsLeft_turn {last : Option (Event δ)} {s : WholeFile δ ι ε Ω} {input : Input}
    {pulse : Option (Pulse Ω)} {w : Ω} {p : Progress δ}
    (hready : s.job.isSome = true ∨ s.decoded.isSome = true) (hhonest : Honest src input)
    (hneeded : s.decoded = none → s.needed = .atLeast 0 (asked s.needed))
    (hanswer : last = some .need → s.needed.isSatisfiedBy input = true)
    (ht : turnOf usizeMax s input pulse w = t) (hreply : t.reply = .ok p)
    (hopen : ∀ out, p.event ≠ .done out) (hcut : ¬t.Cut usizeMax) :
    turnsLeft src.length (some p.event) t.after < turnsLeft src.length last s ∧
      (t.after.decoded = none → t.after.needed = .atLeast 0 (asked t.after.needed)) := by
  obtain ⟨rfl, rfl, ⟨r, herror, -⟩ | hstep⟩ := turnOf_cases hready ht
  · rw [hreply] at herror
    cases herror
  rw [hreply] at hstep
  generalize hafter : t.after = after at hstep
  generalize t.world = world at hstep
  generalize hr : (Except.ok p : Except (StepError τ ε) (Progress δ)) = reply at hstep
  cases hstep with
  | done =>
    cases hr
    exact absurd rfl (hopen _)
  | header hdecoded hprobed =>
    cases hr
    refine ⟨?_, fun _ => hneeded hdecoded⟩
    have hmem := requestsLeft_mem src.length last t.before
    rw [turnsLeft_of_none hdecoded, hprobed]
    refine (turnsLeft_of_none (by exact hdecoded) _ _).trans_lt ?_
    show src.length + 4 + 0 < requestsLeft src.length last t.before + (src.length + 4)
    omega
  | need hdecoded hcomplete =>
    cases hr
    refine ⟨?_, fun _ => rfl⟩
    rw [turnsLeft_of_none hdecoded]
    refine (turnsLeft_of_none (by exact hdecoded) _ _).trans_lt (Nat.add_lt_add_right ?_ _)
    show src.length + 3 - min (wanted usizeMax t.before t.input) (src.length + 1) < _
    cases hlast : isNeedEvent last with
    | false =>
      rw [requestsLeft, hlast, if_neg Bool.false_ne_true]
      omega
    | true =>
      rw [requestsLeft, hlast, if_pos rfl]
      have hneed : last = some .need := by
        cases last with
        | none => cases hlast
        | some e => cases e with
          | need => rfl
          | _ => cases hlast
      obtain ⟨hoffset, hasked⟩ := asked_le (hneeded hdecoded ▸ hanswer hneed) hcomplete
      have hlen := hhonest.length_le hoffset
      -- The new request is not satisfied by what was at hand.
      have hmore : t.input.bytes.length < wanted usizeMax t.before t.input := by
        by_contra hle
        refine hcut ⟨hdecoded, hcomplete, ?_⟩
        refine (needMore_satisfied_iff usizeMax t.before hcomplete).mp ?_
        show (InputRequest.atLeast 0 _).isSatisfiedBy t.input = true
        rw [InputRequest.isSatisfiedBy, hoffset, decide_eq_true (not_lt.mp hle)]
        rfl
      omega
  | @decode job _ hdecoded hjob hcomplete hgone hresult =>
    have hmem := requestsLeft_mem src.length last t.before
    generalize (job.pushDecoder t.input.bytes t.before.preferred t.polled).1 = out at hr hresult
    cases out with
    | error e => cases hr
    | ok out =>
      have hsome : after.decoded = some out := hresult
      rw [turnsLeft_of_none hdecoded, turnsLeft, hsome]
      refine ⟨?_, fun hnone => by cases hnone⟩
      show 1 < _
      omega

/-- A run that may go on has turns left. -/
theorem drives_length {last : Option (Event δ)} {s : WholeFile δ ι ε Ω} {w : Ω}
    (h : Drives usizeMax job preferred src w₀ l last s w) (hcut : ∀ t ∈ l, ¬t.Cut usizeMax) :
    l.length + turnsLeft src.length last s ≤ 2 * src.length + 8 ∧
      (s.decoded = none → s.needed = .atLeast 0 (asked s.needed)) := by
  induction h with
  | start =>
    refine ⟨?_, fun _ => rfl⟩
    show 0 + (src.length + 4 + (src.length + 4)) ≤ _
    omega
  | @turn l last s w input pulse t p hdrives hhonest hanswer ht hreply hopen ih =>
    obtain ⟨hl, hlast⟩ := forall_mem_snoc.mp hcut
    obtain ⟨hlength, hneeded⟩ := ih hl
    have hready := (drives_faithful hdrives hl).2.ready
    obtain ⟨hless, hneeded'⟩ :=
      turnsLeft_turn hready hhonest hneeded hanswer ht hreply hopen hlast
    refine ⟨?_, hneeded'⟩
    rw [List.length_append, List.length_singleton]
    omega

/-- A run ends: a driver that honours the requests has at most so many turns. -/
theorem run_ends (h : Run usizeMax job preferred src w₀ l) (hcut : ∀ t ∈ l, ¬t.Cut usizeMax) :
    l.length ≤ 2 * src.length + 8 := by
  cases h with
  | start => exact Nat.zero_le _
  | @turn l last s w input pulse hdrives hhonest _ =>
    obtain ⟨hl, -⟩ := forall_mem_snoc.mp hcut
    have hlength := (drives_length hdrives hl).1
    have hpos := turnsLeft_pos src.length last s
    rw [List.length_append, List.length_singleton]
    omega

/-- Every run in which no known length is cut ends, and has the sink calls and the result of the
one-shot call on the complete source. -/
theorem run_exact (h : Run usizeMax job preferred src w₀ l) (hcut : ∀ t ∈ l, ¬t.Cut usizeMax) :
    Faithful job preferred src l ∧ l.length ≤ 2 * src.length + 8 :=
  ⟨run_faithful h hcut, run_ends h hcut⟩

/-- No length is cut over a source that fits the address space. -/
theorem not_cut_of_le (hhonest : Honest src t.input) (husize : src.length ≤ usizeMax)
    (hu64 : src.length ≤ u64Max) : ¬t.Cut usizeMax := by
  rintro ⟨-, hcomplete, hoffset, total, htotal, hle⟩
  obtain rfl := hhonest.total total htotal
  have hlen := hhonest.length_le hoffset
  rw [Nat.mod_eq_of_lt (Nat.lt_succ_of_le husize)] at hle
  have hend : t.input.stop = src.length := by
    rw [Input.stop, saturatingAdd, hoffset, Nat.zero_add, le_antisymm hlen hle, min_eq_left hu64]
  rw [complete, Input.reachesEnd, htotal, hend, hoffset] at hcomplete
  simp at hcomplete

/-- A job whose header is in the first byte, and whose decoder notes the bytes that it gets. -/
def notingJob : DecodeJob Unit Unit Unit (List (List UInt8)) where
  probe bytes := if bytes.isEmpty then .error () else .ok ()
  pushDecoder bytes _ calls := (.ok ⟨1, 3, ()⟩, calls ++ [bytes])

abbrev NotingTurn := Turn Unit Unit Unit Unit (List (List UInt8))

/-- Nothing is offered, then the whole source of three bytes until it is taken. -/
def askTurn : NotingTurn := turnOf u64Max (new notingJob []) ⟨0, [], none⟩ none []

def headerTurn : NotingTurn :=
  turnOf u64Max askTurn.after ⟨0, [1, 2, 3], some 3⟩ none askTurn.world

def decodeTurn : NotingTurn :=
  turnOf u64Max headerTurn.after ⟨0, [1, 2, 3], some 3⟩ none headerTurn.world

def doneTurn : NotingTurn := turnOf u64Max decodeTurn.after ⟨3, [], some 3⟩ none decodeTurn.world

theorem run_threeBytes : Run u64Max notingJob [] [1, 2, 3] []
    [askTurn, headerTurn, decodeTurn, doneTurn] := by
  have hnothing : Honest [1, 2, 3] ⟨0, [], none⟩ := ⟨List.nil_prefix, fun t ht => by cases ht⟩
  have hsource : Honest [1, 2, 3] ⟨0, [1, 2, 3], some 3⟩ :=
    ⟨List.prefix_rfl, fun t ht => (Option.some_inj.mp ht).symm⟩
  have hend : Honest [1, 2, 3] ⟨3, [], some 3⟩ :=
    ⟨List.nil_prefix, fun t ht => (Option.some_inj.mp ht).symm⟩
  have hask : Drives u64Max notingJob [] [1, 2, 3] [] ([] ++ [askTurn]) (some .need)
      askTurn.after askTurn.world :=
    .turn (p := ⟨0, .need⟩) .start hnothing (fun h => by cases h) rfl rfl fun out h => by cases h
  have hheader : Drives u64Max notingJob [] [1, 2, 3] [] ([] ++ [askTurn] ++ [headerTurn])
      (some (.metadata .headerReady)) headerTurn.after headerTurn.world :=
    .turn (p := ⟨0, .metadata .headerReady⟩) hask hsource (fun _ => rfl) rfl rfl
      fun out h => by cases h
  have hdecode : Drives u64Max notingJob [] [1, 2, 3] []
      ([] ++ [askTurn] ++ [headerTurn] ++ [decodeTurn]) (some (.rows (.finalRows 0) 3))
      decodeTurn.after decodeTurn.world :=
    .turn (p := ⟨3, .rows (.finalRows 0) 3⟩) hheader hsource (fun h => by cases h) rfl rfl
      fun out h => by cases h
  exact .turn hdecode hend fun h => by cases h

theorem run_exact_threeBytes :
    Faithful notingJob [] [1, 2, 3] [askTurn, headerTurn, decodeTurn, doneTurn] ∧
      [askTurn, headerTurn, decodeTurn, doneTurn].length ≤ 2 * 3 + 8 ∧
      doneTurn.reply = .ok ⟨0, .done ⟨1, 3, ()⟩⟩ ∧ doneTurn.world = [[1, 2, 3]] := by
  have hcut : ∀ t ∈ [askTurn, headerTurn, decodeTurn, doneTurn], ¬t.Cut u64Max := by
    intro t ht
    simp only [List.mem_cons, List.not_mem_nil, or_false] at ht
    rcases ht with rfl | rfl | rfl | rfl
    · rintro ⟨-, -, -, total, htotal, -⟩
      cases htotal
    · exact fun h => Bool.false_ne_true (h.2.1.symm.trans rfl)
    · exact fun h => Bool.false_ne_true (h.2.1.symm.trans rfl)
    · exact fun h => absurd h.2.2.1 (by decide)
  obtain ⟨hfaithful, hlength⟩ := run_exact run_threeBytes hcut
  exact ⟨hfaithful, hlength, rfl, rfl⟩

/-- The first answer of a 32-bit host to a driver that holds nothing of 4 GiB, and says so. -/
def hugeTurn : NotingTurn :=
  turnOf (2 ^ 32 - 1) (new notingJob []) ⟨0, [], some (2 ^ 32)⟩ none []

/-- It asks for no bytes, which the input already satisfies. -/
theorem hugeTurn_satisfied :
    Run (2 ^ 32 - 1) notingJob [] (List.replicate (2 ^ 32) 0) [] ([] ++ [hugeTurn]) ∧
      hugeTurn.isNeed = true ∧ hugeTurn.after.needed = .atLeast 0 0 ∧
      hugeTurn.after.needed.isSatisfiedBy hugeTurn.input = true := by
  have hhonest : Honest (List.replicate (2 ^ 32) 0) ⟨0, [], some (2 ^ 32)⟩ := by
    refine ⟨List.nil_prefix, fun t ht => ?_⟩
    rw [List.length_replicate]
    exact (Option.some_inj.mp ht).symm
  exact ⟨.turn .start hhonest (fun h => by cases h), by decide, by decide, by decide⟩

end WholeFile

end Zencodec.Incremental
