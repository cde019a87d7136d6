/-
Overlap resolution.

`intoSorted` sweeps over the stretches of the candidates, gives every byte to the
candidate whose fate there is the strongest, and cuts each candidate to the runs it won.
A set of active stretches is kept as the list of their keys in order.
-/
import Zencodec.Lib.Sweep
import Zencodec.Tiff.Cand

open StableSort Tiling Sweep

namespace Zencodec

namespace Tiff

/-- Pieces one overlapping part may be split into. -/
def maxPieces : ℕ := 64

/-- The order of active stretches: strongest rank first, then the candidate inserted
first. -/
abbrev Key := ℕᵒᵈ ×ₗ ℕ ×ₗ ℕ

def Seg.key (sg : Seg) (k : ℕ) : Key := toLex (OrderDual.toDual sg.rank, toLex (sg.cand, k))

/-- The candidate of an active stretch. -/
def Key.cand (key : Key) : ℕ := (ofLex (ofLex key).2).1

@[simp] theorem key_cand (sg : Seg) (k : ℕ) : Key.cand (sg.key k) = sg.cand := rfl

/-! ### The sweep -/

/-- The state of the sweep; `live`, `won` and `beatenBy` are indexed by candidate. -/
structure Sweeping where
  active : List Key
  live : ℕ → ℕ
  won : ℕ → List (Span ℕ)
  beatenBy : ℕ → List ℕ
  top : Option ℕ
  added : List ℕ

def Sweeping.start : Sweeping where
  active := []
  live := fun _ => 0
  won := fun _ => []
  beatenBy := fun _ => []
  top := none
  added := []

/-- Record that `winner` took bytes `loser` covers. -/
def beaten (beatenBy : ℕ → List ℕ) (loser winner : ℕ) : ℕ → List ℕ :=
  let list := beatenBy loser
  if list.length ≤ maxNotes ∧ winner ∉ list then
    Function.update beatenBy loser (list ++ [winner])
  else beatenBy

/-- One stretch starts or ends. -/
def Sweeping.event (st : Sweeping) (e : Event ℕ Key) : Sweeping :=
  let c := Key.cand e.key
  if e.start then
    { st with
      active := e.apply st.active
      live := Function.update st.live c (st.live c + 1)
      added := st.added ++ [c] }
  else
    { st with
      active := e.apply st.active
      live := Function.update st.live c (st.live c - 1) }

/-- All events at `x` are done and the next one, if any, is at `next`: the strongest
active stretch wins the bytes in between. -/
def Sweeping.settle (st : Sweeping) (x : ℕ) (next : Option ℕ) : Sweeping :=
  match st.active.head?.map Key.cand with
  | none => { st with top := none, added := [] }
  | some wc =>
    let beatenBy := st.added.foldl
      (fun b c => if c ≠ wc then beaten b c wc else b) st.beatenBy
    let beatenBy := match st.top with
      | some p => if p ≠ wc ∧ 0 < st.live p then beaten beatenBy p wc else beatenBy
      | none => beatenBy
    let won := match next with
      | some next => Function.update st.won wc (extend (st.won wc) x next)
      | none => st.won
    { st with won := won, beatenBy := beatenBy, top := some wc, added := [] }

/-- Process the events; the stretch after a position is settled once its last event is
done. -/
def sweep : Sweeping → List (Event ℕ Key) → Sweeping
  | st, [] => st
  | st, e :: rest =>
    match rest.head? with
    | none => sweep ((st.event e).settle e.pos none) rest
    | some f =>
      if f.pos = e.pos then sweep (st.event e) rest
      else sweep ((st.event e).settle e.pos (some f.pos)) rest

/-- The stretches of all candidates, in order. -/
def allSegments (cands : List Cand) : List Seg :=
  cands.zipIdx.flatMap fun (c, i) => segments c c.range i

/-- The stretches with their keys. -/
def keyed (segs : List Seg) : List (Span ℕ × Key) :=
  segs.zipIdx.map fun (sg, k) => (sg.range, sg.key k)

/-! ### The parts -/

/-- The child lies in bytes other parts take. -/
def lostChild (mine : List (Span ℕ)) (ch : Cand) : Bool :=
  match (mine.dropWhile fun r => r.stop ≤ ch.range.start).head? with
  | none => true
  | some r => ch.range.stop ≤ r.start

/-- Each winner names the candidate `loser` it overlaps, and the children of it left in
bytes others won. -/
def noteLoser (st : Sweeping) (descs : ℕ → Option String) (cands : List Cand)
    (loser : ℕ) : List Cand :=
  match descs loser with
  | none => cands
  | some desc =>
    let winners := st.beatenBy loser
    let cands := winners.foldl
      (fun cs wc => cs.modify wc fun c => c.note s!"overlaps {desc}") cands
    let children := ((cands[loser]?).map Cand.children).getD []
    let lost := children.countP (lostChild (st.won loser))
    if 0 < lost then
      cands.modify (winners.headD 0) fun c => c.note
        s!"{lost} part(s) of {desc} lie in bytes other parts take and are not listed"
    else cands

/-- The part of `c` for the run `r` it won, the one with index `j` of `total`: `c` cut to
the run, or past the cap an unknown gap, since the decoder may still read its bytes. -/
def piece (total others : ℕ) (desc : String) (c : Cand) (r : Span ℕ) (j : ℕ) :
    Option Cand :=
  if maxPieces ≤ j then
    some (Cand.new r .gap .none .unknown
      s!"part of {desc}; not listed past {maxPieces} overlaps; the decoder may read it")
  else
    let more := if maxNotes < others then "+" else ""
    let listed := min total maxPieces
    let tail := if listed < total then "; the rest is not listed" else ""
    (clip c r false).map fun piece => piece.note
      s!"overlaps {max others 1}{more} other part(s); piece {j + 1} of {listed}{tail}"

/-- A candidate cut to the runs it won. -/
def pieces (won : List (Span ℕ)) (others : ℕ) (desc : String) (c : Cand) : List Cand :=
  if won = [c.range] then [c]
  else won.zipIdx.filterMap fun p => piece won.length others desc c p.1 p.2

/-- Add a candidate; insertion order breaks ties between equal fates. -/
def insert (placed : List Cand) (c : Cand) : List Cand :=
  if c.range.start < c.range.stop then placed ++ [c] else placed

/-- The sweep over all candidates. -/
def sweepAll (cands : List Cand) : Sweeping :=
  sweep .start (events (keyed (allSegments cands)))

/-- The names of the candidates that lost bytes. -/
def descs (cands : List Cand) (k : ℕ) : Option String :=
  if (sweepAll cands).beatenBy k = [] then none else cands[k]?.map describe

/-- The candidates with the remarks of the sweep. -/
def noted (cands : List Cand) : List Cand :=
  (List.range cands.length).foldl (noteLoser (sweepAll cands) (descs cands)) cands

/-- The parts of candidate `k`. -/
def piecesOf (cands : List Cand) (c : Cand) (k : ℕ) : List Cand :=
  pieces ((sweepAll cands).won k) ((sweepAll cands).beatenBy k).length
    ((descs cands k).getD (describe c)) c

/-- The parts, candidate by candidate. -/
def cutAll (cands : List Cand) : List Cand :=
  (noted cands).zipIdx.flatMap fun p => piecesOf cands p.1 p.2

/-- The parts in file order. -/
def intoSorted (cands : List Cand) : List Cand :=
  sortBy (fun c => c.range.start) (cutAll cands)

end Tiff

end Zencodec
