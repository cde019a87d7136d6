/-
Staging: compressed packets held back until the encoder is done.

A `Staging` keeps the packets it is given in admitted memory, or keeps their metadata and
appends their bytes to a scratch file. The pulse, the allocator, the budget and the device
under the file are foreign objects: each answers as a function of the world `Ω`, so that
every answer and every failure is covered. The file itself holds what was written to it.
-/
import Zencodec.Incremental.Contract
import Zencodec.Machine
import Zencodec.Media.Packet

open Zencodec.Incremental Zencodec.Storage

namespace Zencodec.Media

/-! ### Foreign objects -/

/-- A `StorageBudget`: `bytes` admits and allocates, `release` is the drop of a charge. -/
structure StorageBudget (Ω : Type) where
  maxBytes : ℕ
  reservedBytes : Ω → ℕ
  bytes : ℕ → Act Ω StorageError Unit
  release : ℕ → Ω → Ω

/-- What the operating system answers for a file. A write or a read that fails says how many
bytes it moved first. -/
structure Device (Ω ε : Type) where
  seek : ℕ → Act Ω ε Unit
  write : List UInt8 → Ω → Option (ℕ × ε) × Ω
  read : ℕ → Ω → Option (ℕ × ε) × Ω
  flush : Act Ω ε Unit
  unexpectedEof : ε

inductive Refusal where
  | bytes | packets | additions | notAtEnd | overflow
  deriving DecidableEq, Repr

/-- Why an operation failed; `ε` is the type of I/O errors. `expect` is the panic of an
`expect`. -/
inductive Cause (ε : Type) where
  | refusal (r : Refusal)
  | cancelled (reason : StopReason)
  | storage (e : StorageError)
  | reserve
  | io (e : ε)
  | expect
  deriving DecidableEq, Repr

/-- A configured limit was hit: a scope of the store or the allowance of its budget. -/
def Cause.isLimit {ε : Type} : Cause ε → Bool
  | .refusal _ => true
  | .storage _ => true
  | _ => false

variable {Ω σ ε α : Type}

def check (pulse : Pulse Ω) : Act Ω (Cause ε) Unit := Act.mapError .cancelled (Act.foreign pulse.check)

/-! ### The scratch file -/

structure File (Ω ε : Type) where
  device : Device Ω ε
  content : List UInt8
  pos : ℕ

/-- The content after `bytes` are written at `pos`; a gap before `pos` reads as zeros. -/
def overwrite (content : List UInt8) (pos : ℕ) (bytes : List UInt8) : List UInt8 :=
  content.take pos ++ List.replicate (pos - content.length) 0 ++ bytes
    ++ content.drop (pos + bytes.length)

namespace File

/-- The file after a write of `bytes`. -/
def put (f : File Ω ε) (bytes : List UInt8) : File Ω ε :=
  { f with content := overwrite f.content f.pos bytes, pos := f.pos + bytes.length }

def seek (offset : ℕ) : Act (File Ω ε × Ω) ε Unit := fun (f, w) =>
  match f.device.seek offset w with
  | (.ok _, w) => (.ok (), { f with pos := offset }, w)
  | (.error e, w) => (.error e, f, w)

/-- `stream_position`. -/
def streamPosition : Act (File Ω ε × Ω) ε ℕ := fun (f, w) =>
  match f.device.seek f.pos w with
  | (.ok _, w) => (.ok f.pos, f, w)
  | (.error e, w) => (.error e, f, w)

/-- `seek(SeekFrom::End(0))`. -/
def seekEnd : Act (File Ω ε × Ω) ε ℕ := fun (f, w) =>
  match f.device.seek f.content.length w with
  | (.ok _, w) => (.ok f.content.length, { f with pos := f.content.length }, w)
  | (.error e, w) => (.error e, f, w)

/-- `write_all`, which may fail after some of the bytes. -/
def writeAll (bytes : List UInt8) : Act (File Ω ε × Ω) ε Unit := fun (f, w) =>
  match f.device.write bytes w with
  | (none, w) => (.ok (), f.put bytes, w)
  | (some (n, e), w) => (.error e, f.put (bytes.take n), w)

/-- `read_exact` of `n` bytes. -/
def readExact (n : ℕ) : Act (File Ω ε × Ω) ε (List UInt8) := fun (f, w) =>
  match f.device.read n w with
  | (some (k, e), w) => (.error e, { f with pos := f.pos + k }, w)
  | (none, w) =>
    if f.pos + n ≤ f.content.length then
      (.ok ((f.content.drop f.pos).take n), { f with pos := f.pos + n }, w)
    else (.error f.device.unexpectedEof, { f with pos := f.content.length }, w)

def flush : Act (File Ω ε × Ω) ε Unit := fun (f, w) =>
  match f.device.flush w with
  | (.ok _, w) => (.ok (), f, w)
  | (.error e, w) => (.error e, f, w)

end File

/-! ### The two stores -/

structure DiskLimits where
  maxBytes : ℕ
  maxPackets : ℕ
  maxAdditionsPerPacket : ℕ
  deriving DecidableEq, Repr

/-- A packet on disk: its metadata with empty payloads, and where its bytes are. -/
structure Entry where
  metadata : Packet PacketPayload
  offset : ℕ
  lengths : List ℕ
  bytes : ℕ
  deriving DecidableEq, Repr

structure Disk (Ω ε : Type) where
  file : File Ω ε
  limits : DiskLimits
  replay : StorageBudget Ω
  origin : ℕ
  entries : List Entry

inductive Store (Ω ε : Type) where
  | memory (budget : StorageBudget Ω) (packets : List (Packet PacketPayload))
  | disk (disk : Disk Ω ε)

structure Staging (Ω ε : Type) where
  store : Store Ω ε
  bytes : ℕ

/-- `x` on the scratch file of a disk store. -/
def onFile (x : Act (File Ω ε × Ω) (Cause ε) α) : Act (Disk Ω ε × Ω) (Cause ε) α :=
  Act.focus (fun t => (t.1.file, t.2)) (fun f t => ({ t.1 with file := f.1 }, f.2)) x

/-- `x` on the disk store `disk` of a staging. -/
def onDisk (disk : Disk Ω ε) (x : Act (Disk Ω ε × Ω) (Cause ε) α) :
    Act (Staging Ω ε × Ω) (Cause ε) α :=
  Act.focus (fun t => (disk, t.2)) (fun d t => ({ t.1 with store := .disk d.1 }, d.2)) x

/-! ### Memory -/

/-- One copy of `accounted`; the charges taken so far are kept in the state. -/
def accountedCopy (budget : StorageBudget Ω) (source : PacketPayload) :
    Act (List ℕ × Ω) (Cause ε) PacketPayload := do
  onWorld (Act.mapError .storage (budget.bytes source.len))
  Act.modify fun (charges, w) => (charges ++ [source.len], w)
  pure (.accounted ⟨source.asBytes, source.len, 0, source.asBytes.length, Nat.zero_le _, le_rfl⟩)

/-- `Packet::accounted`: copy every payload into admitted storage. A failure drops the
copies already made, which releases their charges. -/
def Packet.accounted (budget : StorageBudget Ω) (p : Packet PacketPayload) :
    Act Ω (Cause ε) (Packet PacketPayload) := do
  let (packet, _) ← Act.withLocal [] <|
    Act.onError (fun (charges, w) => ([], charges.foldl (fun w c => budget.release c w) w))
      (p.mapPayloads (accountedCopy budget))
  pure packet

/-! ### Disk -/

/-- The pieces of `slice::chunks(n)`, with at most `fuel` of them. -/
def chunksAux (n : ℕ) : ℕ → List UInt8 → List (List UInt8)
  | 0, _ => []
  | _, [] => []
  | fuel + 1, a :: l => (a :: l).take n :: chunksAux n fuel ((a :: l).drop n)

/-- `slice::chunks(n)`. -/
def chunks (n : ℕ) (l : List UInt8) : List (List UInt8) := chunksAux n l.length l

/-- `64 * 1024`. -/
def chunkSize : ℕ := 65536

/-- The write loop over one payload, which leaves an empty payload in its place; the lengths
written so far are kept in the state. -/
def spoolPayload (pulse : Pulse Ω) (payload : PacketPayload) :
    Act (List ℕ × File Ω ε × Ω) (Cause ε) PacketPayload := do
  Act.modify fun (lengths, t) => (lengths ++ [payload.len], t)
  onWorld <| Act.each (fun chunk => do
    onWorld (check pulse)
    Act.mapError .io (File.writeAll chunk)) (chunks chunkSize payload.asBytes)
  pure (.owned [])

/-- `payload.len()` and the additions', `None` when the sum leaves `usize`. -/
def Packet.stagedLen (usizeMax : ℕ) (p : Packet PacketPayload) : Option ℕ :=
  p.additions.foldlM (fun sum a =>
    if sum + a.payload.len ≤ usizeMax then some (sum + a.payload.len) else none) p.len

/-- `u64::checked_add`. -/
def checkedAdd (a b : ℕ) : Option ℕ := if a + b ≤ u64Max then some (a + b) else none

/-- The disk arm of `push`: `staged` bytes are in the file after its origin and `total` with
this packet, which has `bytes`. -/
def Disk.push (host : Host Ω) (staged total bytes : ℕ) (packet : Packet PacketPayload)
    (pulse : Pulse Ω) : Act (Disk Ω ε × Ω) (Cause ε) Unit := do
  let (disk, _) ← Act.get
  Act.require (decide (total ≤ disk.limits.maxBytes)) (.refusal .bytes)
  Act.require (decide (disk.entries.length < disk.limits.maxPackets)) (.refusal .packets)
  Act.require (decide (packet.additions.length ≤ disk.limits.maxAdditionsPerPacket))
    (.refusal .additions)
  let offset ← Act.getOr (checkedAdd disk.origin staged) (.refusal .overflow)
  let _ ← Act.getOr (checkedAdd disk.origin total) (.refusal .overflow)
  onWorld (host.reserve .reserve)
  onWorld (host.reserve .reserve)
  onFile (Act.mapError .io (File.seek offset))
  let (metadata, lengths) ← onFile (Act.withLocal [] (packet.mapPayloads (spoolPayload pulse)))
  Act.modify fun (disk, w) =>
    ({ disk with entries := disk.entries ++ [⟨metadata, offset, lengths, bytes⟩] }, w)

/-- The read loop of `next` into the buffers `rest`; what was read is returned. -/
def readChunks (pulse : Pulse Ω) :
    List (List UInt8) → Act (File Ω ε × Ω) (Cause ε) (List UInt8)
  | [] => pure []
  | chunk :: rest => do
    onWorld (check pulse)
    let bytes ← Act.mapError .io (File.readExact chunk.length)
    let more ← readChunks pulse rest
    pure (bytes ++ more)

/-- The closure of `next`: the view of the next length, with the lengths left and the offset
in the state. -/
def viewPayload (payload : SharedStorage) :
    Act ((List ℕ × ℕ) × Ω) (Cause ε) PacketPayload := do
  let ((lengths, offset), _) ← Act.get
  match lengths with
  | [] => Act.fail .expect
  | len :: lengths => do
    let view ← Act.lift ((payload.slice offset (offset + len)).mapError .storage)
    Act.modify fun (_, w) => ((lengths, offset + len), w)
    pure (.accounted view)

/-- `next` after the allocation: read the entry's bytes and cut them into its payloads. -/
def Entry.replay (entry : Entry) (pulse : Pulse Ω) :
    Act (File Ω ε × Ω) (Cause ε) (Packet PacketPayload) := do
  Act.mapError .io (File.seek entry.offset)
  let data ← readChunks pulse (chunks chunkSize (List.replicate entry.bytes 0))
  onWorld (check pulse)
  let payload : SharedStorage :=
    ⟨data, entry.bytes, 0, data.length, Nat.zero_le _, le_rfl⟩
  let (packet, _) ← onWorld <| Act.withLocal (entry.lengths, 0)
    (entry.metadata.mapPayloads fun _ => viewPayload payload)
  pure packet

/-- The disk arm of `next`: the entry is taken first. A failure after the allocation drops
it. -/
def Disk.next (pulse : Pulse Ω) :
    Act (Disk Ω ε × Ω) (Cause ε) (Option (Packet PacketPayload)) := do
  let (disk, _) ← Act.get
  match disk.entries with
  | [] => pure none
  | entry :: rest => do
    Act.modify fun (disk, w) => ({ disk with entries := rest }, w)
    onWorld (Act.mapError .storage (disk.replay.bytes entry.bytes))
    let packet ← Act.onError (fun (disk, w) => (disk, disk.replay.release entry.bytes w))
      (onFile (entry.replay pulse))
    pure (some packet)

/-! ### Staging -/

inductive StagingKind where
  | memory | disk
  deriving DecidableEq, Repr

structure StagingFacts where
  kind : StagingKind
  payloadBytes : ℕ
  payloadLimit : ℕ
  deriving DecidableEq, Repr

namespace Staging

/-- `Staging::memory`. -/
def memory (budget : StorageBudget Ω) : Staging Ω ε := ⟨.memory budget [], 0⟩

/-- `Staging::disk`: append to a file that stands at its end. -/
def disk (file : File Ω ε) (limits : DiskLimits) (replay : StorageBudget Ω) :
    Act Ω (Cause ε) (Staging Ω ε) := do
  let ((origin, stop), file) ← Act.withLocal file do
    let origin ← Act.mapError .io File.streamPosition
    let stop ← Act.mapError .io File.seekEnd
    pure (origin, stop)
  Act.require (origin == stop) (.refusal .notAtEnd)
  pure ⟨.disk ⟨file, limits, replay, origin, []⟩, 0⟩

def facts (s : Staging Ω ε) : StagingFacts :=
  match s.store with
  | .memory budget _ => ⟨.memory, s.bytes, budget.maxBytes⟩
  | .disk disk => ⟨.disk, s.bytes, disk.limits.maxBytes⟩

/-- `admitted_memory`. -/
def admittedMemory (s : Staging Ω ε) (w : Ω) : ℕ :=
  match s.store with
  | .memory budget _ => budget.reservedBytes w
  | .disk disk => disk.replay.reservedBytes w

def push (host : Host Ω) (packet : Packet PacketPayload) (pulse : Pulse Ω) :
    Act (Staging Ω ε × Ω) (Cause ε) Unit := do
  onWorld (check pulse)
  let bytes ← Act.getOr (packet.stagedLen host.usizeMax) (.refusal .overflow)
  let (staging, _) ← Act.get
  let total ← Act.getOr (checkedAdd staging.bytes bytes) (.refusal .overflow)
  match staging.store with
  | .memory budget packets => do
    onWorld (host.reserve .reserve)
    let packet ← onWorld (packet.accounted budget)
    Act.modify fun (s, w) => ({ s with store := .memory budget (packets ++ [packet]) }, w)
  | .disk disk =>
    onDisk disk (Disk.push host staging.bytes total bytes packet pulse)
  Act.modify fun (s, w) => ({ s with bytes := total }, w)
  onWorld (check pulse)

/-- `begin_replay`. -/
def beginReplay (pulse : Pulse Ω) : Act (Staging Ω ε × Ω) (Cause ε) Unit := do
  onWorld (check pulse)
  let (staging, _) ← Act.get
  match staging.store with
  | .memory _ _ => pure ()
  | .disk disk => onDisk disk (onFile (Act.mapError .io File.flush))
  onWorld (check pulse)

def next (pulse : Pulse Ω) : Act (Staging Ω ε × Ω) (Cause ε) (Option (Packet PacketPayload)) := do
  onWorld (check pulse)
  let (staging, _) ← Act.get
  match staging.store with
  | .memory _ [] => pure none
  | .memory budget (packet :: packets) => do
    Act.modify fun (s, w) => ({ s with store := .memory budget packets }, w)
    pure (some packet)
  | .disk disk => onDisk disk (Disk.next pulse)

end Staging

end Zencodec.Media
