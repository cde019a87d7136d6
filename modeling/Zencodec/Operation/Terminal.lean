/-
A checked collection stops for good.

* `Honest` — what the closure of an operation keeps: a stored reason stays, and a failure that
  reports a stop reports the stored one;
* `Settled` — what one operation does to the collection and its token;
* `spec_decodeHeld` — what a decoded output went through;
* `collection_stops` — the states of a run.
-/
import Zencodec.Operation.Collection
import Zencodec.Lib.Runs

namespace Zencodec.Operation

variable {N ι θ χ δ π κ ε ρ Ω α β : Type}

/-! ### Closures -/

/-- The reason stored in the token. -/
abbrev Held.reason (t : Held N ρ Ω) : Option ρ := t.2.2.2.1

/-- A closure keeps a stored reason, and reports no other. -/
def Honest (x : Request N κ ε ρ Ω α) : Prop :=
  ∀ t, Act.Spec x (fun _ t' => ∀ r, t.2.2.2.1 = some r → t'.2.2.2.1 = some r)
    (fun e t' => (∀ r, t.2.2.2.1 = some r → t'.2.2.2.1 = some r) ∧
      ∀ f r, e = .failed f → f.observedStop = some r → t'.2.2.2.1 = some r) t

theorem Honest.value (a : α) : Honest (pure a : Request N κ ε ρ Ω α) := fun _ _ h => h

theorem Honest.get : Honest (Act.get : Request N κ ε ρ Ω (Held N ρ Ω)) := fun _ _ h => h

theorem Honest.bind {x : Request N κ ε ρ Ω β} {f : β → Request N κ ε ρ Ω α} (hx : Honest x)
    (hf : ∀ b, Honest (f b)) : Honest (x >>= f) := by
  intro t
  rw [Act.spec_bind]
  refine (hx t).mono (fun b t₁ hkeep => ?_) (fun _ _ h => h)
  refine (hf b t₁).mono (fun _ _ hkeep' r hr => hkeep' r (hkeep r hr)) (fun e t₂ h => ?_)
  exact ⟨fun r hr => h.1 r (hkeep r hr), h.2⟩

/-- Failing with an error that reports no stop. -/
theorem Honest.lift {r : Except (Fault (CollectionError κ ε ρ)) α}
    (h : ∀ f, r = .error (.failed f) → f.observedStop = none) :
    Honest (Act.lift r : Request N κ ε ρ Ω α) := by
  intro t
  rw [Act.spec_lift]
  refine ⟨fun _ _ _ hr => hr, fun e he => ⟨fun _ hr => hr, fun f r hf hstop => ?_⟩⟩
  rw [h f (by rw [he, hf])] at hstop
  cases hstop

theorem Honest.require {c : Bool} {f : CollectionError κ ε ρ} (h : f.observedStop = none) :
    Honest (Act.require c (.failed f) : Request N κ ε ρ Ω Unit) := by
  intro t
  rw [Act.spec_require]
  refine ⟨fun _ _ hr => hr, fun _ => ⟨fun _ hr => hr, fun f' r hf hstop => ?_⟩⟩
  obtain rfl := Fault.failed.inj hf
  rw [h] at hstop
  cases hstop

theorem honest_onNative (stage : CollectionStage) (cause : β → κ)
    {x : Act (N × Token ρ Ω) (Fault β) α} (h : Keeps (fun s => s.2.1) x) :
    Honest (onNative stage cause x : Request N κ ε ρ Ω α) := by
  intro t
  simp only [onNative, Act.spec_bind, Act.spec_get, Act.spec_mapError, Act.spec_focus]
  refine Act.spec_of_run (fun _ _ r hr => h _ r hr) (fun e _ => ⟨fun r hr => h _ r hr, ?_⟩)
  intro f r hf hstop
  cases e with
  | failed e =>
    obtain rfl := Fault.failed.inj hf
    cases hstop
  | unwound => cases hf

theorem honest_onToken (stage : CollectionStage) {x : Act (Token ρ Ω) (Fault κ) α}
    (h : Keeps Prod.fst x) : Honest (onToken stage x : Request N κ ε ρ Ω α) := by
  intro t
  simp only [onToken, Act.spec_bind, Act.spec_get, Act.spec_mapError, Act.spec_focus]
  refine Act.spec_of_run (fun _ _ r hr => h _ r hr) (fun e _ => ⟨fun r hr => h _ r hr, ?_⟩)
  intro f r hf hstop
  cases e with
  | failed e =>
    obtain rfl := Fault.failed.inj hf
    cases hstop
  | unwound => cases hf

variable (env : Env N ι θ χ δ π κ ε ρ Ω)

theorem honest_checkHeld : Honest (checkHeld env) := by
  intro t
  simp only [checkHeld, Act.spec_bind, Act.spec_get, Act.spec_mapError, Act.spec_focus]
  have hkeep := LatchedStop.keeps_check env.source t.2.2.2
  refine Act.spec_of_run (fun _ _ r hr => hkeep r hr) (fun e he => ⟨fun r hr => hkeep r hr, ?_⟩)
  intro f r hf hstop
  cases e with
  | failed r' =>
    obtain rfl := Fault.failed.inj hf
    obtain rfl := Option.some.inj hstop
    exact (LatchedStop.spec_check env.source t.2.2.2).run.2 _ he r' rfl
  | unwound => cases hf

theorem honest_checkView (view : Composition) : Honest (checkView env view) :=
  (honest_onNative _ _ env.native.keeps_view).bind fun _ =>
    Honest.get.bind fun _ => Honest.require rfl

/-- `choose` reaches the token through its callback and its checks. -/
theorem keeps_choosePublication (image : ImageOutput π) (preset : PolicySet) :
    Keeps (fun w => w.2.1) (env.choosePublication image preset) := by
  intro w r hr
  have hspec := spec_choose_keeps (P := fun token : Token ρ Ω => token.1 = some r)
    (env.policy image) (LatchedStop.check env.source)
    (fun token ht => LatchedStop.keeps_check env.source token r ht)
    (fun q s hs => env.resolver.keeps image q s r hs) env.usizeMax .image [.returnHeld] preset hr
  exact hspec.state

theorem honest_publish (preset : PolicySet) (image : ImageOutput π) :
    Honest (publish env preset image) := by
  intro t
  have hkeep : Keeps (fun w => w.2.1) (env.resolveImage image preset) := by
    intro w r hr
    have hchoose := keeps_choosePublication env image preset w r hr
    have hspec : Act.Spec (env.resolveImage image preset) (fun _ w => w.2.1 = some r)
        (fun _ w => w.2.1 = some r) w := by
      simp only [Env.resolveImage, Act.spec_bind, Act.spec_mapError]
      exact Act.spec_of_run (fun _ _ => hchoose) (fun _ _ => hchoose)
    exact hspec.state
  unfold Act.Spec publish
  have hkept : ∀ r, t.2.2.2.1 = some r → (env.resolveImage image preset t.2.2).2.2.1 = some r :=
    fun r hr => hkeep t.2.2 r hr
  generalize env.resolveImage image preset t.2.2 = run at hkept
  obtain ⟨result, w⟩ := run
  cases result with
  | ok out => exact hkept
  | error e =>
    cases e with
    | failed e =>
      refine ⟨hkept, fun f r hf hstop => ?_⟩
      obtain rfl := Fault.failed.inj hf
      cases hstop
    | unwound =>
      refine ⟨hkept, fun f r hf _ => ?_⟩
      cases hf

theorem honest_decodeHeld (view : Composition) (preset : PolicySet) (image : ι) (request : θ)
    (transform : Transform π κ ρ Ω) :
    Honest (decodeHeld env view preset image request transform) := by
  unfold decodeHeld
  refine (honest_checkView env view).bind fun _ => ?_
  refine (honest_onNative _ _ (env.native.keeps_decode image request)).bind fun decoded => ?_
  refine (honest_checkView env view).bind fun _ => Honest.get.bind fun _ => ?_
  refine (Honest.lift fun f hf => ?_).bind fun labelled => ?_
  · cases hview : decoded.inCollectionView view with
    | ok labelled => rw [hview] at hf; cases hf
    | error actual =>
      rw [hview] at hf
      obtain rfl := Fault.failed.inj (Except.error.inj hf)
      rfl
  · refine (honest_checkHeld env).bind fun _ => ?_
    refine (honest_onToken _ (transform.keeps labelled)).bind fun out => ?_
    exact (honest_checkHeld env).bind fun _ => honest_publish env preset out

theorem honest_describeHeld (image : ι) : Honest (describeHeld env image) := by
  unfold describeHeld
  refine (honest_onNative _ _ (env.native.keeps_describe image)).bind fun description => ?_
  refine Honest.get.bind fun _ => (Honest.lift fun f hf => ?_).bind fun _ => Honest.value _
  cases hvalid : env.validate description with
  | ok => rw [hvalid] at hf; cases hf
  | error e =>
    rw [hvalid] at hf
    obtain rfl := Fault.failed.inj (Except.error.inj hf)
    rfl

/-! ### One operation -/

/-- What an operation does to a collection and its token. -/
structure Settled (s : CheckedCollection N ρ × World ρ Ω)
    (result : Except (Fault (CollectionError κ ε ρ)) α)
    (s' : CheckedCollection N ρ × World ρ Ω) : Prop where
  view : s'.1.view = s.1.view
  /-- A stored reason stays. -/
  kept : ∀ r, s.2.2.1 = some r → s'.2.2.1 = some r
  /-- Without a native object, or with a reason stored, nothing is called. -/
  untouched : s.1.collection = none ∨ s.2.2.1 ≠ none →
    s'.2 = s.2 ∧ s'.1.collection = none ∧ ∃ e, result = .error (.failed e)
  /-- A stop or an unwinding drops the native object. -/
  dropped : s'.2.2.1 ≠ none ∨ result = .error .unwound → s'.1.collection = none
  /-- Nothing else does. -/
  usable : s.1.collection ≠ none → s'.2.2.1 = none → result ≠ .error .unwound →
    s'.1.collection ≠ none
  /-- A value comes from a collection that goes on. -/
  live : ∀ a, result = .ok a → s'.1.collection ≠ none ∧ s'.2.2.1 = none
  /-- Reasons are reported as they are stored. -/
  observed : (∀ r, s.1.observedStop = some r → s.2.2.1 = some r) →
    (∀ r, s'.1.observedStop = some r → s'.2.2.1 = some r) ∧
      ∀ e r, result = .error (.failed e) → e.observedStop = some r → s'.2.2.1 = some r

/-- The end of an operation that was live when it called its closure, with `t` reached. -/
theorem settled_settle {s : CheckedCollection N ρ × World ρ Ω} (hlive : s.2.2.1 = none)
    (hsome : s.1.collection ≠ none) (c : CheckedCollection N ρ) (hview : c.view = s.1.view)
    (hnone : c.collection = none) (hstop : c.observedStop = s.1.observedStop) (native : N)
    {result : Except (CollectionError κ ε ρ) α} {w : World ρ Ω}
    (hreport : ∀ e r, result = .error e → e.observedStop = some r → w.2.1 = some r) :
    Settled s (settle env c native result w).1 (settle env c native result w).2 := by
  have hidle : ¬(s.1.collection = none ∨ s.2.2.1 ≠ none) := by
    rintro (h | h)
    · exact hsome h
    · exact h hlive
  have hkeep := LatchedStop.keeps_check env.source w.2
  have hcheck := (LatchedStop.spec_check env.source w.2).run
  unfold settle
  generalize LatchedStop.check env.source w.2 = checked at hkeep hcheck
  obtain ⟨answer, token⟩ := checked
  cases answer with
  | ok =>
    -- the native object goes back
    have htoken : token.1 = none := hcheck.1 () rfl
    refine ⟨hview, fun r hr => ?_, fun h => absurd h hidle, ?_, fun _ _ _ => Option.some_ne_none _,
      fun _ _ => ⟨Option.some_ne_none _, htoken⟩, fun hobs => ⟨fun r hr => ?_, fun e r he hr => ?_⟩⟩
    · rw [hlive] at hr
      cases hr
    · rintro (h | h)
      · exact absurd htoken h
      · cases result <;> cases h
    · rw [show c.observedStop = some r from hr] at hstop
      have := hobs r hstop.symm
      rw [hlive] at this
      cases this
    · cases result with
      | ok a => cases he
      | error e' =>
        obtain rfl := Fault.failed.inj (Except.error.inj he)
        have hstored := hkeep r (hreport _ r rfl hr)
        rw [show (token.1 = some r) from hstored] at htoken
        cases htoken
  | error fault =>
    cases fault with
    | failed reason =>
      have htoken : token.1 = some reason := hcheck.2 _ rfl reason rfl
      have hreason : (stopResult c.report reason result).observedStop = some reason := by
        cases result <;> rfl
      refine ⟨hview, fun r hr => ?_, fun h => absurd h hidle, fun _ => hnone,
        fun _ h _ => ?_, (fun a ha => by cases ha), fun _ => ⟨fun r hr => ?_, fun e r he hr => ?_⟩⟩
      · rw [hlive] at hr
        cases hr
      · rw [show token.1 = none from h] at htoken
        cases htoken
      · exact htoken.trans hr
      · obtain rfl := Fault.failed.inj (Except.error.inj he)
        exact htoken.trans (hreason.symm.trans hr)
    | unwound =>
      refine ⟨hview, fun r hr => ?_, fun h => absurd h hidle, fun _ => hnone,
        fun _ _ h => absurd rfl h, (fun a ha => by cases ha),
        fun hobs => ⟨fun r hr => ?_, (fun e r he => by cases he)⟩⟩
      · rw [hlive] at hr
        cases hr
      · rw [show c.observedStop = some r from hr] at hstop
        have := hobs r hstop.symm
        rw [hlive] at this
        cases this

/-- One operation, whatever its closure. -/
theorem settled_run (operation : CheckedCollection N ρ → Request N κ ε ρ Ω α)
    (h : ∀ c, Honest (operation c)) (s : CheckedCollection N ρ × World ρ Ω) :
    Settled s (CheckedCollection.run env operation s).1
      (CheckedCollection.run env operation s).2 := by
  obtain ⟨⟨collection, view, preset, report, observedStop⟩, n, token⟩ := s
  have hcheck := (LatchedStop.spec_check env.source token).run
  unfold CheckedCollection.run
  cases collection with
  | none =>
    refine ⟨rfl, fun r hr => hr, fun _ => ⟨rfl, rfl, _, rfl⟩, fun _ => rfl, fun h => absurd rfl h,
      (fun a ha => by cases ha), fun hobs => ⟨hobs, fun e r he hr => ?_⟩⟩
    obtain rfl := Fault.failed.inj (Except.error.inj he)
    exact hobs r hr
  | some native =>
    dsimp only
    cases htoken : token.1 with
    | some reason =>
      -- stored already: the check asks nothing, and the native object is dropped
      rw [LatchedStop.check_of_stored env.source htoken]
      refine ⟨rfl, fun r hr => hr, fun _ => ⟨rfl, rfl, _, rfl⟩, fun _ => rfl, fun _ h => ?_,
        (fun a ha => by cases ha), fun _ => ⟨fun r hr => ?_, fun e r he hr => ?_⟩⟩
      · rw [show token.1 = none from h] at htoken
        cases htoken
      · exact htoken.trans hr
      · obtain rfl := Fault.failed.inj (Except.error.inj he)
        exact htoken.trans hr
    | none =>
      have hidle : ¬(some native = none ∨ token.1 ≠ none) := by
        rintro (h | h)
        · cases h
        · exact h htoken
      have hnever : ∀ r, token.1 = some r → False := by
        intro r hr
        rw [htoken] at hr
        cases hr
      generalize LatchedStop.check env.source token = checked at hcheck
      obtain ⟨answer, token'⟩ := checked
      cases answer with
      | error fault =>
        cases fault with
        | failed reason =>
          have hstored : token'.1 = some reason := hcheck.2 _ rfl reason rfl
          refine ⟨rfl, fun r hr => (hnever r hr).elim, fun h => absurd h hidle, fun _ => rfl,
            fun _ h _ => ?_, (fun a ha => by cases ha),
            fun _ => ⟨fun r hr => hstored.trans hr, fun e r he hr => ?_⟩⟩
          · rw [show token'.1 = none from h] at hstored
            cases hstored
          · obtain rfl := Fault.failed.inj (Except.error.inj he)
            exact hstored.trans hr
        | unwound =>
          exact ⟨rfl, fun r hr => (hnever r hr).elim, fun h => absurd h hidle, fun _ => rfl,
            fun _ _ h => absurd rfl h, (fun a ha => by cases ha),
            fun hobs => ⟨fun r hr => (hnever r (hobs r hr)).elim, (fun e r he => by cases he)⟩⟩
      | ok =>
        have hlive : token'.1 = none := hcheck.1 () rfl
        cases hadm : env.admission preset with
        | error u =>
          refine ⟨rfl, fun r hr => (hnever r hr).elim, fun h => absurd h hidle, ?_,
            fun _ _ _ => Option.some_ne_none _, (fun a ha => by cases ha),
            fun hobs => ⟨fun r hr => (hnever r (hobs r hr)).elim, fun e r he hr => ?_⟩⟩
          · rintro (h | h)
            · exact absurd hlive h
            · cases h
          · obtain rfl := Fault.failed.inj (Except.error.inj he)
            cases hr
        | ok =>
          dsimp only
          have hop := (h ⟨none, view, preset, report, observedStop⟩
            (native, report, n, token')).run
          generalize operation _ (native, report, n, token') = ran at hop
          obtain ⟨result, native', report', w⟩ := ran
          cases result with
          | ok a =>
            refine settled_settle env
              (s := ⟨⟨some native, view, preset, report, observedStop⟩, n, token⟩) htoken
              (Option.some_ne_none _) ⟨none, view, preset, report', observedStop⟩ rfl rfl rfl
              native' ?_
            intro e r he
            cases he
          | error fault =>
            cases fault with
            | failed e =>
              refine settled_settle env
                (s := ⟨⟨some native, view, preset, report, observedStop⟩, n, token⟩) htoken
                (Option.some_ne_none _) ⟨none, view, preset, report', observedStop⟩ rfl rfl rfl
                native' ?_
              intro e' r he hr
              obtain rfl := Except.error.inj he
              exact (hop.2 _ rfl).2 _ r rfl hr
            | unwound =>
              exact ⟨rfl, fun r hr => (hnever r hr).elim, fun h => absurd h hidle, fun _ => rfl,
                fun _ _ h => absurd rfl h, (fun a ha => by cases ha),
                fun hobs => ⟨fun r hr => (hnever r (hobs r hr)).elim, (fun e r he => by cases he)⟩⟩

/-- A value computed at a live state. -/
theorem Settled.value {s : CheckedCollection N ρ × World ρ Ω} (hsome : s.1.collection ≠ none)
    (hlive : s.2.2.1 = none) (a : α) :
    Settled s (.ok a : Except (Fault (CollectionError κ ε ρ)) α) s := by
  refine ⟨rfl, fun _ hr => hr, fun h => ?_, fun h => ?_, fun h _ _ => h,
    fun _ _ => ⟨hsome, hlive⟩, fun hobs => ⟨hobs, (fun e r he => by cases he)⟩⟩
  · rcases h with h | h
    · exact absurd h hsome
    · exact absurd hlive h
  · rcases h with h | h
    · exact absurd hlive h
    · cases h

/-- Two operations in a row. -/
theorem Settled.bind {x : Checked N κ ε ρ Ω β} {f : β → Checked N κ ε ρ Ω α}
    {s : CheckedCollection N ρ × World ρ Ω} (hx : Settled s (x s).1 (x s).2)
    (hf : ∀ b t, t.1.collection ≠ none → t.2.2.1 = none → Settled t (f b t).1 (f b t).2) :
    Settled s ((x >>= f) s).1 ((x >>= f) s).2 := by
  generalize hxs : x s = ran at hx
  obtain ⟨result, t⟩ := ran
  cases result with
  | error e =>
    rw [Act.bind_of_error hxs]
    refine ⟨hx.view, hx.kept, fun h => ?_, ?_, fun h h' h'' => ?_, (fun a ha => by cases ha),
      fun hobs => ⟨(hx.observed hobs).1, fun f r hfail hr => ?_⟩⟩
    · obtain ⟨hw, hc, f, hfail⟩ := hx.untouched h
      exact ⟨hw, hc, f, by rw [Except.error.inj hfail]⟩
    · rintro (h | h)
      · exact hx.dropped (.inl h)
      · exact hx.dropped (.inr (by rw [Except.error.inj h]))
    · exact hx.usable h h' fun hu => h'' (by rw [Except.error.inj hu])
    · exact (hx.observed hobs).2 f r (by rw [Except.error.inj hfail]) hr
  | ok b =>
    rw [Act.bind_of_ok hxs]
    obtain ⟨hsome, hlive⟩ := hx.live b rfl
    have hnext := hf b t hsome hlive
    refine ⟨hnext.view.trans hx.view, fun r hr => hnext.kept r (hx.kept r hr), fun h => ?_,
      hnext.dropped, fun _ => hnext.usable hsome, hnext.live,
      fun hobs => hnext.observed (hx.observed hobs).1⟩
    obtain ⟨-, -, e, he⟩ := hx.untouched h
    cases he

theorem Settled.map {x : Checked N κ ε ρ Ω β} (f : β → α) {s : CheckedCollection N ρ × World ρ Ω}
    (hx : Settled s (x s).1 (x s).2) :
    Settled s ((x >>= fun b => pure (f b)) s).1 ((x >>= fun b => pure (f b)) s).2 :=
  hx.bind fun b _ hsome hlive => Settled.value hsome hlive (f b)

/-! ### The operations -/

section
open CheckedCollection

theorem settled_decode (image : ι) (request : θ) (s : CheckedCollection N ρ × World ρ Ω) :
    Settled s (decode env image request s).1 (decode env image request s).2 :=
  settled_run env _ (fun c => honest_decodeHeld env c.view c.preset image request .identity) s

theorem settled_firstImage (request : θ) (s : CheckedCollection N ρ × World ρ Ω) :
    Settled s (firstImage env request s).1 (firstImage env request s).2 := by
  unfold firstImage
  refine Settled.bind (settled_run env _ (fun _ => honest_onNative _ _ env.native.keeps_images) s)
    fun cursor t _ _ => ?_
  refine Settled.bind (settled_run env _
    (fun _ => honest_onNative _ _ (env.native.keeps_next cursor)) t) fun r t hsome hlive => ?_
  obtain ⟨first, cursor'⟩ := r
  cases first with
  | none => exact Settled.value hsome hlive none
  | some image => exact (settled_decode env image request t).map some

/-- Every operation settles. -/
theorem settled_step (s : CheckedCollection N ρ × World ρ Ω) {op : Op ι θ χ π κ ρ Ω}
    (hop : op.isOperation = true) : Settled s (step env s op).1 (step env s op).2 := by
  cases op with
  | images =>
    exact (settled_run env _ (fun _ => honest_onNative _ _ env.native.keeps_images) s).map _
  | children image =>
    exact (settled_run env _
      (fun _ => honest_onNative _ _ (env.native.keeps_children image)) s).map _
  | next cursor =>
    exact (settled_run env _ (fun _ => honest_onNative _ _ (env.native.keeps_next cursor)) s).map _
  | describe image => exact (settled_run env _ (fun _ => honest_describeHeld env image) s).map _
  | decodeWith image request transform =>
    exact (settled_run env _
      (fun c => honest_decodeHeld env c.view c.preset image request transform) s).map _
  | decode image request => exact (settled_decode env image request s).map _
  | firstImage request => exact (settled_firstImage env request s).map _
  | withPolicySet | elsewhere => cases hop

end

/-! ### Published images -/

/-- The state that a native call leaves to the closure. -/
def Held.after (t : Held N ρ Ω) (s : N × Token ρ Ω) : Held N ρ Ω := (s.1, t.2.1, t.2.2.1, s.2)

theorem spec_onNative_ok {stage : CollectionStage} {cause : β → κ}
    {x : Act (N × Token ρ Ω) (Fault β) α} {Q : α → Held N ρ Ω → Prop} {t : Held N ρ Ω}
    (h : ∀ a, (x (t.1, t.2.2.2)).1 = .ok a → Q a (t.after (x (t.1, t.2.2.2)).2)) :
    Act.Spec (onNative (ε := ε) stage cause x) Q (fun _ _ => True) t := by
  simp only [onNative, Act.spec_bind, Act.spec_get, Act.spec_mapError, Act.spec_focus]
  exact Act.spec_of_run h fun _ _ => trivial

theorem spec_checkView_ok {view : Composition} {Q : Unit → Held N ρ Ω → Prop} {t : Held N ρ Ω}
    (h : (env.native.view (t.1, t.2.2.2)).1 = .ok view →
      Q () (t.after (env.native.view (t.1, t.2.2.2)).2)) :
    Act.Spec (checkView env view) Q (fun _ _ => True) t := by
  rw [checkView, Act.spec_bind]
  refine spec_onNative_ok fun actual hactual => ?_
  simp only [Act.spec_bind, Act.spec_get, Act.spec_require]
  refine ⟨fun hview => ?_, fun _ => trivial⟩
  obtain rfl := of_decide_eq_true hview
  exact h hactual

/-- How an output left a collection with this view: the native object reported the view before
and after it decoded the image, the image took the label, and the policy accepted the transform
of it. -/
def Published (view : Composition) (image : ι) (request : θ) (transform : Transform π κ ρ Ω)
    (out : Outcome π) : Prop :=
  ∃ s decoded labelled token preset w i,
    (env.native.view s).1 = .ok view ∧
    (env.native.decode image request (env.native.view s).2).1 = .ok decoded ∧
    (env.native.view (env.native.decode image request (env.native.view s).2).2).1 = .ok view ∧
    decoded.inCollectionView view = .ok labelled ∧
    (transform.apply labelled token).1 = .ok out.output ∧
    (env.choosePublication out.output preset w).1 = .ok (i, out.record)

theorem spec_publish (preset : PolicySet) (image : ImageOutput π) (t : Held N ρ Ω) :
    Act.Spec (publish env preset image) (fun out _ => out.output = image ∧
      ∃ w i, (env.choosePublication image preset w).1 = .ok (i, out.record))
      (fun _ _ => True) t := by
  refine Act.spec_of_run (fun out hout => ?_) (fun _ _ => trivial)
  have haccept : ∀ out, (env.resolveImage image preset t.2.2).1 = .ok out →
      out.output = image ∧ ∃ i, (env.choosePublication image preset t.2.2).1
        = .ok (i, out.record) := by
    intro out hout
    unfold Env.resolveImage at hout
    cases hchoose : env.choosePublication image preset t.2.2 with
    | mk result w =>
      cases result with
      | ok r =>
        rw [Act.bind_of_ok (b := r) (t := w) (by rw [Act.mapError, hchoose]; rfl)] at hout
        obtain rfl := Except.ok.inj hout
        exact ⟨rfl, r.1, rfl⟩
      | error e =>
        rw [Act.bind_of_error (e := PolicyFailure.fault e) (t := w)
          (by rw [Act.mapError, hchoose]; rfl)] at hout
        cases hout
  unfold publish at hout
  split at hout
  · next out' w hresolve =>
    obtain rfl := Except.ok.inj hout
    obtain ⟨himage, i, hi⟩ := haccept out' (by rw [hresolve])
    exact ⟨himage, _, i, hi⟩
  · cases hout
  · cases hout

theorem spec_decodeHeld (view : Composition) (preset : PolicySet) (image : ι) (request : θ)
    (transform : Transform π κ ρ Ω) (t : Held N ρ Ω) :
    Act.Spec (decodeHeld env view preset image request transform)
      (fun out _ => Published env view image request transform out) (fun _ _ => True) t := by
  rw [decodeHeld, Act.spec_bind]
  refine spec_checkView_ok env fun hbefore => ?_
  rw [Act.spec_bind]
  refine spec_onNative_ok fun decoded hdecoded => ?_
  rw [Act.spec_bind]
  refine spec_checkView_ok env fun hafter => ?_
  simp only [Act.spec_bind, Act.spec_get, Act.spec_lift]
  refine ⟨fun labelled hlabelled => ?_, fun _ _ => trivial⟩
  have hview : decoded.inCollectionView view = .ok labelled := by
    cases hl : decoded.inCollectionView view with
    | ok other =>
      rw [hl] at hlabelled
      rw [show other = labelled from Except.ok.inj hlabelled]
    | error e =>
      rw [hl] at hlabelled
      cases hlabelled
  refine Act.spec_of_run (fun _ _ => ?_) (fun _ _ => trivial)
  generalize (checkHeld env _).2 = t₁
  simp only [onToken, Act.spec_bind, Act.spec_get, Act.spec_mapError, Act.spec_focus]
  refine Act.spec_of_run (fun output houtput => ?_) (fun _ _ => trivial)
  refine Act.spec_of_run (fun _ _ => ?_) (fun _ _ => trivial)
  refine (spec_publish env preset output _).mono (fun out _ hout => ?_) (fun _ _ _ => trivial)
  obtain ⟨rfl, w, i, hi⟩ := hout
  exact ⟨_, decoded, labelled, _, preset, w, i, hbefore, hdecoded, hafter, hview, houtput, hi⟩

/-- What an operation hands out, its closure made. -/
theorem run_ok (operation : CheckedCollection N ρ → Request N κ ε ρ Ω α)
    {s : CheckedCollection N ρ × World ρ Ω} {a : α} {P : Prop}
    (h : ∀ c t, c.view = s.1.view → Act.Spec (operation c) (fun b _ => b = a → P)
      (fun _ _ => True) t)
    (ha : (CheckedCollection.run env operation s).1 = .ok a) : P := by
  unfold CheckedCollection.run at ha
  split at ha
  · cases ha
  · dsimp only at ha
    split at ha
    · cases ha
    · cases ha
    · split at ha
      · cases ha
      · split at ha
        · next b native' report w hrun =>
          have hb : b = a := by
            unfold settle at ha
            split at ha
            · exact Except.ok.inj ha
            · cases ha
            · cases ha
          have hspec := (h { s.1 with collection := none } _ rfl).run.1 b (by rw [hrun])
          exact hspec hb
        · unfold settle at ha
          split at ha <;> cases ha
        · cases ha

theorem ImageOutput.composition_of_inCollectionView {image labelled : ImageOutput π}
    {view : Composition} (h : image.inCollectionView view = .ok labelled) :
    labelled.composition = some view := by
  unfold ImageOutput.inCollectionView at h
  split at h
  · next actual hactual =>
    split at h
    · next heq =>
      rw [← Except.ok.inj h, hactual, heq]
    · cases h
  · rw [← Except.ok.inj h]

/-- An image that a step returned, and what it went through. -/
def Accepted (view : Composition) (op : Op ι θ χ π κ ρ Ω) (out : Outcome π) : Prop :=
  match op with
  | .decodeWith image request transform => Published env view image request transform out
  | .decode image request =>
    Published env view image request .identity out ∧ out.output.composition = some view
  | .firstImage request =>
    ∃ image, Published env view image request .identity out ∧ out.output.composition = some view
  | _ => False

/-- The image of an answer. -/
def Answer.image : Answer ι χ δ π → Option (Outcome π)
  | .output out => some out
  | .first out => out
  | _ => none

section
open CheckedCollection

theorem decodeWith_published {image : ι} {request : θ} {transform : Transform π κ ρ Ω}
    {s : CheckedCollection N ρ × World ρ Ω} {out : Outcome π}
    (h : (decodeWith env image request transform s).1 = .ok out) :
    Published env s.1.view image request transform out := by
  refine run_ok env _ (fun c t hview => ?_) h
  refine (spec_decodeHeld env c.view c.preset image request transform t).mono
    (fun b _ hpub hb => ?_) (fun _ _ _ => trivial)
  rw [← hview, ← hb]
  exact hpub

theorem decode_published {image : ι} {request : θ} {s : CheckedCollection N ρ × World ρ Ω}
    {out : Outcome π} (h : (decode env image request s).1 = .ok out) :
    Published env s.1.view image request .identity out ∧
      out.output.composition = some s.1.view := by
  have hpub := decodeWith_published env h
  refine ⟨hpub, ?_⟩
  obtain ⟨_, _, labelled, _, _, _, _, -, -, -, hlabel, happly, -⟩ := hpub
  rw [← show labelled = out.output from Except.ok.inj happly]
  exact ImageOutput.composition_of_inCollectionView hlabel

theorem firstImage_published {request : θ} {s : CheckedCollection N ρ × World ρ Ω}
    {out : Outcome π} (h : (firstImage env request s).1 = .ok (some out)) :
    ∃ image, Published env s.1.view image request .identity out ∧
      out.output.composition = some s.1.view := by
  obtain ⟨cursor, -, h⟩ := Act.ok_of_bind h
  have hview := (settled_run env _ (fun _ => honest_onNative (β := κ) .discovery id
    env.native.keeps_images) s).view
  obtain ⟨r, -, h⟩ := Act.ok_of_bind h
  have hview' := (settled_run env _ (fun _ => honest_onNative (β := κ) .discovery id
    (env.native.keeps_next cursor)) (images env s).2).view
  obtain ⟨first, cursor'⟩ := r
  cases first with
  | none => cases h
  | some image =>
    obtain ⟨out', hout, h⟩ := Act.ok_of_bind h
    obtain rfl := Option.some.inj (Except.ok.inj h)
    obtain ⟨hpub, hcomposition⟩ := decode_published env hout
    rw [show (next env cursor (images env s).2).2.1.view = s.1.view from hview'.trans hview]
      at hpub hcomposition
    exact ⟨image, hpub, hcomposition⟩

theorem accepted_step {s : CheckedCollection N ρ × World ρ Ω} {op : Op ι θ χ π κ ρ Ω}
    {a : Answer ι χ δ π} {out : Outcome π} (h : (step env s op).1 = .ok a)
    (ha : a.image = some out) : Accepted env s.1.view op out := by
  cases op with
  | images | children | next | describe =>
    obtain ⟨b, -, hb⟩ := Act.ok_of_bind h
    obtain rfl := Except.ok.inj hb
    cases ha
  | decodeWith image request transform =>
    obtain ⟨b, hrun, hb⟩ := Act.ok_of_bind h
    obtain rfl := Except.ok.inj hb
    obtain rfl := Option.some.inj ha
    exact decodeWith_published env hrun
  | decode image request =>
    obtain ⟨b, hrun, hb⟩ := Act.ok_of_bind h
    obtain rfl := Except.ok.inj hb
    obtain rfl := Option.some.inj ha
    exact decode_published env hrun
  | firstImage request =>
    obtain ⟨b, hrun, hb⟩ := Act.ok_of_bind h
    obtain rfl := Except.ok.inj hb
    obtain rfl : b = some out := ha
    exact firstImage_published env hrun
  | withPolicySet | elsewhere =>
    obtain rfl := Except.ok.inj h
    cases ha

end

/-! ### Runs -/

/-- What the steps of a run keep. -/
structure Consistent (view : Composition) (s : CheckedCollection N ρ × World ρ Ω) : Prop where
  view_eq : s.1.view = view
  observed : ∀ r, s.1.observedStop = some r → s.2.2.1 = some r

theorem step_view (s : CheckedCollection N ρ × World ρ Ω) (op : Op ι θ χ π κ ρ Ω) :
    (step env s op).2.1.view = s.1.view := by
  cases hop : op.isOperation with
  | true => exact (settled_step env s hop).view
  | false => cases op <;> first | rfl | cases hop

theorem step_kept (s : CheckedCollection N ρ × World ρ Ω) (op : Op ι θ χ π κ ρ Ω) {r : ρ}
    (hr : s.2.2.1 = some r) : (step env s op).2.2.2.1 = some r := by
  cases hop : op.isOperation with
  | true => exact (settled_step env s hop).kept r hr
  | false =>
    cases op with
    | withPolicySet preset => exact hr
    | elsewhere other => exact other.keeps s.2.2 r hr
    | _ => cases hop

/-- A native object that is gone stays gone. -/
theorem step_gone (s : CheckedCollection N ρ × World ρ Ω) (op : Op ι θ χ π κ ρ Ω)
    (h : s.1.collection = none) : (step env s op).2.1.collection = none := by
  cases hop : op.isOperation with
  | true => exact ((settled_step env s hop).untouched (.inl h)).2.1
  | false => cases op <;> first | exact h | cases hop

theorem step_reports (s : CheckedCollection N ρ × World ρ Ω) (op : Op ι θ χ π κ ρ Ω)
    (h : ∀ r, s.1.observedStop = some r → s.2.2.1 = some r) :
    (∀ r, (step env s op).2.1.observedStop = some r → (step env s op).2.2.2.1 = some r) ∧
      ∀ e r, (step env s op).1 = .error (.failed e) → e.observedStop = some r →
        (step env s op).2.2.2.1 = some r := by
  cases hop : op.isOperation with
  | true => exact (settled_step env s hop).observed h
  | false =>
    cases op with
    | withPolicySet preset => exact ⟨h, fun e r he => by cases he⟩
    | elsewhere other =>
      exact ⟨fun r hr => other.keeps s.2.2 r (h r hr), fun e r he => by cases he⟩
    | _ => cases hop

theorem consistent_step {view : Composition} {s : CheckedCollection N ρ × World ρ Ω}
    (h : Consistent view s) (op : Op ι θ χ π κ ρ Ω) : Consistent view (step env s op).2 :=
  ⟨(step_view env s op).trans h.view_eq, (step_reports env s op h.observed).1⟩

/-- An opened collection holds its native object and has reported nothing. -/
theorem open_ok {factory : Act (Token ρ Ω) (Fault κ) N} {w₀ w : World ρ Ω}
    {c : CheckedCollection N ρ}
    (h : CheckedCollection.open env factory w₀ = (.ok c, w)) :
    c.observedStop = none ∧ c.collection ≠ none := by
  obtain ⟨hc, -⟩ := Prod.mk.inj h
  dsimp only [CheckedCollection.open, Act.focus] at hc
  split at hc
  · cases hc
  · split at hc
    · cases hc
    · split at hc
      · cases hc
      · split at hc
        · cases hc
        · cases hc
        · cases hc
        · cases hc
        · split at hc
          · cases hc
          · obtain rfl := Except.ok.inj hc
            exact ⟨rfl, Option.some_ne_none _⟩

/-- A checked collection stops for good. Among any observers of the token, the first reason that
one is given is the one that every later check returns. In any run of an opened collection: a
stored reason stays and is the only one reported; an operation that ends with a reason stored, or
that unwinds, has dropped the native object; without a native object or with a reason stored, an
operation calls nothing and leaves no native object; any other failure leaves the collection
usable; and every image returned was decoded under the view fixed at open and accepted. -/
theorem collection_stops {factory : Act (Token ρ Ω) (Fault κ) N} {w₀ w : World ρ Ω}
    {c : CheckedCollection N ρ} (hopen : CheckedCollection.open env factory w₀ = (.ok c, w)) :
    (∀ {T : Type} [DecidableEq T] (l l' : Latch.State T ρ)
      (pre post : List (T × Option (Except ρ Unit))) (t : T) (r : ρ),
      Trace.Run Latch.Step l (pre ++ (t, some (.error r)) :: post) l' →
      l'.reason = some r ∧ ∀ e ∈ post, ∀ o, e.2 = some o → o = .error r) ∧
    ∀ (ops : List (Op ι θ χ π κ ρ Ω)) (op : Op ι θ χ π κ ρ Ω),
      let s := Runs.final (step env) (c, w) ops
      let result := (step env s op).1
      let s' := (step env s op).2
      (∀ r, s.2.2.1 = some r → ∀ post : List (Op ι θ χ π κ ρ Ω),
        (Runs.final (step env) s post).2.2.1 = some r ∧
        ∀ o ∈ Runs.outputs (step env) s post, ∀ e r', o = .error (.failed e) →
          e.observedStop = some r' → r' = r) ∧
      (∀ e r, result = .error (.failed e) → e.observedStop = some r → s'.2.2.1 = some r) ∧
      (s.1.collection = none → s'.1.collection = none) ∧
      (op.isOperation = true →
        (s'.2.2.1 ≠ none ∨ result = .error .unwound → s'.1.collection = none) ∧
        (s.1.collection = none ∨ s.2.2.1 ≠ none →
          s'.2 = s.2 ∧ s'.1.collection = none ∧ ∃ e, result = .error (.failed e)) ∧
        (s.1.collection ≠ none → s'.2.2.1 = none → result ≠ .error .unwound →
          s'.1.collection ≠ none)) ∧
      ∀ a out, result = .ok a → a.image = some out → Accepted env c.view op out := by
  refine ⟨fun _ _ _ _ _ _ h => Latch.first_reason h, fun ops op => ?_⟩
  obtain ⟨hfresh, -⟩ := open_ok env hopen
  have hinit : Consistent c.view (c, w) := by
    refine ⟨rfl, fun r hr => ?_⟩
    rw [show c.observedStop = some r from hr] at hfresh
    cases hfresh
  -- every state of the run is consistent
  have hrun : Consistent c.view (Runs.final (step env) (c, w) ops) :=
    Runs.final_of_preserved (A := fun _ => True) (P := Consistent c.view)
      (fun s i _ hs => consistent_step env hs i) (fun _ _ => trivial) hinit
  intro s result s'
  refine ⟨fun r hr post => ⟨?_, ?_⟩, (step_reports env s op hrun.observed).2,
    step_gone env s op, fun hop => ?_, fun a out ha himage => ?_⟩
  · exact Runs.final_of_preserved (A := fun _ => True) (P := fun t => t.2.2.1 = some r)
      (fun t i _ ht => step_kept env t i ht) (fun _ _ => trivial) hr
  · refine Runs.outputs_of_preserved (A := fun _ => True)
      (P := fun t => Consistent c.view t ∧ t.2.2.1 = some r)
      (fun t i _ ht => ⟨consistent_step env ht.1 i, step_kept env t i ht.2⟩)
      (fun t i _ ht e r' he hr' => ?_) (fun _ _ => trivial) ⟨hrun, hr⟩
    have hstored := (step_reports env t i ht.1.observed).2 e r' he hr'
    rw [step_kept env t i ht.2] at hstored
    exact (Option.some.inj hstored).symm
  · have hsettled := settled_step env s hop
    exact ⟨hsettled.dropped, hsettled.untouched, hsettled.usable⟩
  · have haccepted := accepted_step env ha himage
    rwa [hrun.view_eq] at haccepted

/-! ### A collection of one image -/

/-- A pulse that passes a number of checks, and then stops with 7. -/
def countdown : PulseSource ℕ ℕ where
  check s := if s.2 = 0 then (.error (.failed 7), s) else (.ok (), s.1, s.2 - 1)
  keeps s r h := by
    dsimp only
    split <;> exact h

/-- A native collection without state, whose images carry no label. -/
def oneImage : Env Unit Unit Unit Unit Unit Unit Unit Unit ℕ ℕ where
  usizeMax := 99
  native :=
    { view := pure .composited
      images := pure ()
      children := fun _ => pure ()
      next := fun _ => pure (some (), ())
      describe := fun _ => pure ()
      decode := fun _ _ => pure ⟨none, ()⟩
      keeps_view := fun _ _ h => h
      keeps_images := fun _ _ h => h
      keeps_children := fun _ _ _ h => h
      keeps_next := fun _ _ _ h => h
      keeps_describe := fun _ _ _ h => h
      keeps_decode := fun _ _ _ _ h => h }
  source := countdown
  resolver :=
    { requirements := none
      decide := fun _ _ => pure .usePreset
      keeps := fun _ _ _ _ h => h }
  validate _ := .ok ()

/-- Opened with a pulse that passes twice, the collection is stopped by its first operation. -/
theorem collection_stops_countdown :
    let c : CheckedCollection Unit ℕ := ⟨some (), .composited, {}, {}, none⟩
    (step oneImage (c, 1, none, 0) .images).2.2.2.1 = some 7 ∧
      (step oneImage (c, 1, none, 0) .images).2.1.collection = none := by
  intro c
  have hopen : CheckedCollection.open oneImage (pure ()) (1, none, 2) = (.ok c, 1, none, 0) := rfl
  have hstop : (step oneImage (c, 1, none, 0) .images).2.2.2.1 = some 7 := rfl
  obtain ⟨-, -, -, hop, -⟩ := (collection_stops oneImage hopen).2 [] .images
  refine ⟨hstop, (hop rfl).1 (.inl ?_)⟩
  rw [show (step oneImage (Runs.final (step oneImage) (c, 1, none, 0) []) .images).2.2.2.1
    = some 7 from hstop]
  exact Option.some_ne_none 7

/-- A stop that another holder of the token observes between operations leaves the native object
where it is until the next one, and a transform may return an image without the view. -/
theorem collection_holds_after_stop :
    let c : CheckedCollection Unit ℕ := ⟨some (), .composited, {}, {}, none⟩
    let other : Elsewhere ℕ ℕ :=
      ⟨LatchedStop.check countdown, LatchedStop.keeps_check countdown⟩
    let unlabel : Transform Unit Unit ℕ ℕ := ⟨fun image => pure { image with composition := none },
      fun _ _ _ h => h⟩
    CheckedCollection.open oneImage (pure ()) (1, none, 2) = (.ok c, 1, none, 0) ∧
      (step oneImage (c, 1, none, 0) (.elsewhere other)).2.2.2.1 = some 7 ∧
      (step oneImage (c, 1, none, 0) (.elsewhere other)).2.1.collection = some () ∧
      (CheckedCollection.decodeWith oneImage () () unlabel (c, 1, none, 9)).1.toOption.map
        (fun out => out.output.composition) = some none := by
  intro c other unlabel
  exact ⟨rfl, rfl, rfl, by decide +kernel⟩

end Zencodec.Operation
