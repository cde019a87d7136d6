/-
Packets: compressed access units with what the container recorded about them.

A packet is generic in what it holds for a payload: `PacketPayload` in an encoder's packet,
plain bytes in its `contents`. `mapPayloads` visits the payload, then the additions in
order, and `spec_mapPayloads` is its invariant rule.
-/
import Zencodec.Lib.Act
import Zencodec.Storage.Budget

open Zencodec.Storage

namespace Zencodec.Media

/-! ### Timing -/

structure TimeBase where
  num : ℕ
  den : ℕ
  deriving DecidableEq, Repr

structure Timestamp where
  ticks : ℤ
  base : TimeBase
  deriving DecidableEq, Repr

structure FrameDuration where
  numerator : ℕ
  denominator : ℕ
  deriving DecidableEq, Repr

/-- Media to drop from the start and from the end of a packet's output. -/
structure Discard where
  start : Option FrameDuration
  stop : Option FrameDuration
  deriving DecidableEq, Repr

inductive RandomAccess where
  | yes | no | unknown
  deriving DecidableEq, Repr

/-! ### Payloads -/

/-- A view of an admitted allocation of bytes, which carries the charge of the whole. -/
structure SharedStorage where
  data : List UInt8
  charge : ℕ
  start : ℕ
  stop : ℕ
  start_le : start ≤ stop
  stop_le : stop ≤ data.length
  deriving DecidableEq, Repr

def SharedStorage.len (s : SharedStorage) : ℕ := s.stop - s.start

def SharedStorage.asSlice (s : SharedStorage) : List UInt8 := (s.data.drop s.start).take s.len

/-- `SharedStorage::slice` by a range in the view's coordinates. -/
def SharedStorage.slice (s : SharedStorage) (start stop : ℕ) : Except StorageError SharedStorage :=
  if h : start ≤ stop ∧ stop ≤ s.len then
    .ok ⟨s.data, s.charge, s.start + start, s.start + stop,
      Nat.add_le_add_left h.1 _,
      le_trans (Nat.add_le_add_left h.2 _) (by
        have := s.start_le
        have := s.stop_le
        unfold SharedStorage.len
        omega)⟩
  else .error .range

/-- Where a packet's bytes live. -/
inductive PacketPayload where
  | owned (bytes : List UInt8)
  | shared (bytes : List UInt8) (start len : ℕ) (fits : start + len ≤ bytes.length)
  | accounted (view : SharedStorage)
  deriving DecidableEq, Repr

def PacketPayload.asBytes : PacketPayload → List UInt8
  | .owned bytes => bytes
  | .shared bytes start len _ => (bytes.drop start).take len
  | .accounted view => view.asSlice

def PacketPayload.len (p : PacketPayload) : ℕ := p.asBytes.length

theorem SharedStorage.asSlice_whole (data : List UInt8) (charge : ℕ) :
    asSlice ⟨data, charge, 0, data.length, Nat.zero_le _, le_rfl⟩ = data := by
  simp [asSlice, len]

/-- A slice in bounds sees the bytes of its range. -/
theorem SharedStorage.slice_of_le (s : SharedStorage) (start stop : ℕ) (h : start ≤ stop)
    (hstop : stop ≤ s.len) :
    ∃ v, s.slice start stop = .ok v ∧ v.asSlice = (s.asSlice.drop start).take (stop - start) := by
  refine ⟨_, dif_pos ⟨h, hstop⟩, ?_⟩
  show (s.data.drop (s.start + start)).take (s.start + stop - (s.start + start))
    = (((s.data.drop s.start).take s.len).drop start).take (stop - start)
  rw [List.drop_take, List.take_take, List.drop_drop]
  congr 1
  omega

/-! ### Packets -/

/-- Side data of a packet; `π` is what holds its bytes. -/
structure PacketAddition (π : Type) where
  id : ℕ
  payload : π
  deriving DecidableEq, Repr

/-- A compressed access unit; `π` is what holds its bytes. A taken packet has no payload. -/
structure Packet (π : Type) where
  payload : Option π
  track : ℕ := 0
  pts : Option Timestamp := none
  dts : Option Timestamp := none
  durationTicks : Option ℕ := none
  randomAccess : RandomAccess := .unknown
  configEpoch : ℕ := 0
  ordinal : Option ℕ := none
  inputOffset : Option ℕ := none
  discard : Option Discard := none
  additions : List (PacketAddition π) := []
  deriving DecidableEq, Repr

variable {π ρ σ ε : Type}

namespace Packet

def map (f : π → ρ) (p : Packet π) : Packet ρ :=
  { p with
    payload := p.payload.map f
    additions := p.additions.map fun a => ⟨a.id, f a.payload⟩ }

/-- The payload and the payloads of the additions, in the order of `map_payloads`. -/
def payloads (p : Packet π) : List π := p.payload.toList ++ p.additions.map (·.payload)

/-- Everything but the payloads. -/
def shape (p : Packet π) : Packet Unit := p.map fun _ => ()

/-- The packet with the bytes of its payloads. -/
def contents (p : Packet PacketPayload) : Packet (List UInt8) := p.map PacketPayload.asBytes

/-- `Packet::len`: a taken packet has none. -/
def len (p : Packet PacketPayload) : ℕ :=
  match p.payload with
  | some payload => payload.len
  | none => 0

def isEmpty (p : Packet PacketPayload) : Bool := p.len == 0

def mapAdditions (f : π → Act σ ε ρ) :
    List (PacketAddition π) → Act σ ε (List (PacketAddition ρ))
  | [] => pure []
  | a :: l => do
    let payload ← f a.payload
    let rest ← mapAdditions f l
    pure (⟨a.id, payload⟩ :: rest)

/-- `Packet::map_payloads`: the payload, then the additions, until one fails. -/
def mapPayloads (f : π → Act σ ε ρ) (p : Packet π) : Act σ ε (Packet ρ) := do
  let payload ← match p.payload with
    | some payload => do
      let payload ← f payload
      pure (some payload)
    | none => pure none
  let additions ← mapAdditions f p.additions
  pure { p with payload := payload, additions := additions }

/-! ### Shapes and payloads -/

theorem shape_map (f : π → ρ) (p : Packet π) : (p.map f).shape = p.shape := by
  simp [shape, map, Function.comp_def]

theorem payloads_map (f : π → ρ) (p : Packet π) : (p.map f).payloads = p.payloads.map f := by
  cases hp : p.payload <;> simp [payloads, map, hp, Function.comp_def]

theorem length_payloads_eq_of_shape {p : Packet π} {q : Packet ρ} (h : q.shape = p.shape) :
    q.payloads.length = p.payloads.length := by
  have hlen : ∀ {τ : Type} (r : Packet τ), r.payloads.length = r.shape.payloads.length := by
    intro τ r
    rw [shape, payloads_map, List.length_map]
  rw [hlen q, hlen p, h]

theorem additions_ext {l m : List (PacketAddition π)}
    (hid : l.map (fun a => (⟨a.id, ()⟩ : PacketAddition Unit)) = m.map fun a => ⟨a.id, ()⟩)
    (hpay : l.map (·.payload) = m.map (·.payload)) : l = m := by
  induction l generalizing m with
  | nil => cases m with
    | nil => rfl
    | cons b m => simp at hid
  | cons a l ih => cases m with
    | nil => simp at hid
    | cons b m =>
      simp only [List.map_cons, List.cons.injEq, PacketAddition.mk.injEq, and_true] at hid hpay
      obtain ⟨ai, ap⟩ := a
      obtain ⟨bi, bp⟩ := b
      obtain ⟨rfl, htl⟩ := hid
      obtain ⟨rfl, hptl⟩ := hpay
      rw [ih htl hptl]

/-- A packet is its shape and its payloads. -/
theorem ext_of_shape {p q : Packet π} (hshape : q.shape = p.shape)
    (hpay : q.payloads = p.payloads) : q = p := by
  obtain ⟨pp, _, _, _, _, _, _, _, _, _, pa⟩ := p
  obtain ⟨qp, _, _, _, _, _, _, _, _, _, qa⟩ := q
  simp only [shape, map, Packet.mk.injEq] at hshape
  obtain ⟨hsome, rfl, rfl, rfl, rfl, rfl, rfl, rfl, rfl, rfl, hids⟩ := hshape
  have hboth : qp = pp ∧ qa.map (·.payload) = pa.map (·.payload) := by
    -- the shapes agree on whether there is a main payload
    cases pp <;> cases qp <;> simp_all [payloads]
  obtain ⟨rfl, hadd⟩ := hboth
  rw [additions_ext hids hadd]

/-! ### The rule for `map_payloads` -/

/-- `I todo done` holds before the additions `todo`, when the payloads `done` are mapped. -/
theorem spec_mapAdditions {f : π → Act σ ε ρ} {E : ε → σ → Prop}
    (I : List π → List ρ → σ → Prop)
    (hstep : ∀ a todo done t, I (a :: todo) done t →
      Act.Spec (f a) (fun b => I todo (done ++ [b])) E t)
    {l : List (PacketAddition π)} {done : List ρ} {s : σ} (h : I (l.map (·.payload)) done s) :
    Act.Spec (mapAdditions f l)
      (fun m t => I [] (done ++ m.map (·.payload)) t ∧
        m.map (fun a => (⟨a.id, ()⟩ : PacketAddition Unit)) = l.map fun a => ⟨a.id, ()⟩) E s := by
  induction l generalizing done s with
  | nil => simpa [mapAdditions] using h
  | cons a l ih =>
    simp only [mapAdditions, Act.spec_bind, Act.spec_pure]
    refine (hstep _ _ _ _ h).mono (fun b t hb => ?_) (fun _ _ he => he)
    refine (ih hb).mono (fun m u hm => ?_) (fun _ _ he => he)
    simpa using hm

/-- The invariant rule of `map_payloads`: `I todo done` holds when the payloads `todo` are
left and `done` are mapped. -/
theorem spec_mapPayloads {f : π → Act σ ε ρ} {E : ε → σ → Prop}
    (I : List π → List ρ → σ → Prop)
    (hstep : ∀ a todo done t, I (a :: todo) done t →
      Act.Spec (f a) (fun b => I todo (done ++ [b])) E t)
    {p : Packet π} {s : σ} (h : I p.payloads [] s) :
    Act.Spec (p.mapPayloads f) (fun q t => I [] q.payloads t ∧ q.shape = p.shape) E s := by
  obtain ⟨payload, _, _, _, _, _, _, _, _, _, additions⟩ := p
  cases payload with
  | none =>
    simp only [mapPayloads, Act.spec_bind, Act.spec_pure]
    refine (spec_mapAdditions I hstep (show I _ [] _ from h)).mono (fun m t hm => ?_) (fun _ _ he => he)
    exact ⟨by simpa [payloads] using hm.1, by simp [shape, map, hm.2]⟩
  | some payload =>
    simp only [mapPayloads, Act.spec_bind, Act.spec_pure]
    refine (hstep _ _ _ _ h).mono (fun b t hb => ?_) (fun _ _ he => he)
    refine (spec_mapAdditions I hstep hb).mono (fun m u hm => ?_) (fun _ _ he => he)
    exact ⟨by simpa [payloads] using hm.1, by simp [shape, map, hm.2]⟩

end Packet

end Zencodec.Media
