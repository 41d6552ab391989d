import Zpc.OmpBlocks
import Zpc.ThreadTeam
import Zpc.DoublingScan

/-!
# Scans and reductions of the OpenMP policy

Ranges are functions on positions, the distance between their ends kept apart. A
parallel region is a list of segments between barriers, over the shared output and
`localRes` and the private `res` and `tmp` of each thread.
-/
namespace Zpc
open ThreadTeam

variable {α : Type*}

namespace SequentialExecutionPolicy
/-- The loop of `inclusive_scan` with `n` entries left from position `i` on. -/
def inclusiveLoop (op : α → α → α) (first : ℕ → α) : ℕ → ℕ → α → (ℕ → α) → ℕ → α
  | 0, _, _, dFirst => dFirst
  | n + 1, i, prev, dFirst =>
    inclusiveLoop op first n (i+1) (op prev (first i)) (Function.update dFirst i (op prev (first i)))

def inclusiveScan (op : α → α → α) (first : ℕ → α) (dist : ℕ) (dFirst : ℕ → α) : ℕ → α :=
  if dist = 0 then dFirst
  else inclusiveLoop op first (dist-1) 1 (first 0) (Function.update dFirst 0 (first 0))

/-- The loop of `exclusive_scan`: position `i` of the input goes into position `i+1` of the output. -/
def exclusiveLoop (op : α → α → α) (first : ℕ → α) : ℕ → ℕ → α → (ℕ → α) → ℕ → α
  | 0, _, _, dFirst => dFirst
  | n + 1, i, init, dFirst =>
    exclusiveLoop op first n (i+1) (op init (first i)) (Function.update dFirst (i+1) (op init (first i)))

def exclusiveScan (op : α → α → α) (init : α) (first : ℕ → α) (dist : ℕ) (dFirst : ℕ → α) : ℕ → α :=
  if dist = 0 then dFirst
  else exclusiveLoop op first (dist-1) 0 init (Function.update dFirst 0 init)

def reduceLoop (op : α → α → α) (first : ℕ → α) : ℕ → ℕ → α → α
  | 0, _, init => init
  | n + 1, i, init => reduceLoop op first n (i+1) (op init (first i))

def reduce (op : α → α → α) (init : α) (first : ℕ → α) (dist : ℕ) (dFirst : ℕ → α) : ℕ → α :=
  Function.update dFirst 0 (reduceLoop op first dist 0 init)

end SequentialExecutionPolicy

namespace OmpExecutionPolicy
structure ScanState (α : Type*) where
  dFirst : ℕ → α
  localRes : ℕ → α
  res : ℕ → α
  tmp : ℕ → α

/-- `tmp = res`. -/
def setTmp : Segment (ScanState α) := fun tid => [fun s => { s with tmp := Function.update s.tmp tid (s.res tid) }]

/-- The first half of a round: combine with the entry of the thread that `partner` names, if any. -/
def readRound (op : α → α → α) (partner : ℕ → ℕ → Option ℕ) (stride : ℕ) : Segment (ScanState α) := fun tid =>
  match partner stride tid with
  | some u => [fun s => { s with tmp := Function.update s.tmp tid (op (s.tmp tid) (s.localRes u)) }]
  | none => []

def writeRound (partner : ℕ → ℕ → Option ℕ) (stride : ℕ) : Segment (ScanState α) := fun tid =>
  match partner stride tid with
  | some _ => [fun s => { s with localRes := Function.update s.localRes tid (s.tmp tid) }]
  | none => []

/-- The loop over strides with a barrier after each half of a round; `pending` is what the
threads run since the last barrier and `finish` what they run after the loop. -/
def rounds (op : α → α → α) (partner : ℕ → ℕ → Option ℕ) (finish : Segment (ScanState α)) (nths stride : ℕ)
    (pending : Segment (ScanState α)) : List (Segment (ScanState α)) :=
  if 0 < stride ∧ stride < nths then
    (fun tid => pending tid ++ readRound op partner stride tid) :: writeRound partner stride ::
      rounds op partner finish nths (stride*2) fun _ => []
  else [fun tid => pending tid ++ finish tid]
termination_by nths - stride

/-- In the scans a thread with work combines with the one a stride below it. -/
def below (dist nths stride tid : ℕ) : Option ℕ :=
  if stride ≤ tid ∧ st dist nths tid < ed dist nths tid then some (tid - stride) else none

/-- In the reduction every thread takes part and combines with the one a stride above it. -/
def above (nths stride tid : ℕ) : Option ℕ := if tid + stride < nths then some (tid + stride) else none

/-- The last part of the scans: every thread but the first applies the total of the blocks before its own. -/
def applyEarlier (op : α → α → α) (dist nths : ℕ) : Segment (ScanState α) := fun tid =>
  if tid ≠ 0 ∧ st dist nths tid < ed dist nths tid then
    (fun s => { s with tmp := Function.update s.tmp tid (s.localRes (tid-1)) }) ::
    (List.range' (st dist nths tid) (ed dist nths tid - st dist nths tid)).map fun offset s =>
      { s with dFirst := Function.update s.dFirst offset (op (s.dFirst offset) (s.tmp tid)) }
  else []

/-- `localRes[tid] = res`. -/
def publish (tid : ℕ) (s : ScanState α) : ScanState α :=
  { s with localRes := Function.update s.localRes tid (s.res tid) }

def inclusiveLocal (op : α → α → α) (first : ℕ → α) (dist nths : ℕ) : Segment (ScanState α) := fun tid =>
  if st dist nths tid < ed dist nths tid then
    (fun s => { s with
      res := Function.update s.res tid (first (st dist nths tid))
      dFirst := Function.update s.dFirst (st dist nths tid) (first (st dist nths tid)) }) ::
    (List.range' (st dist nths tid + 1) (ed dist nths tid - (st dist nths tid + 1))).map (fun offset s =>
      { s with
        res := Function.update s.res tid (op (s.res tid) (first offset))
        dFirst := Function.update s.dFirst offset (op (s.res tid) (first offset)) }) ++
    [publish tid]
  else []

def inclusiveScan (op : α → α → α) (first : ℕ → α) (dist nths : ℕ) : List (Segment (ScanState α)) :=
  inclusiveLocal op first dist nths ::
    rounds op (below dist nths) (applyEarlier op dist nths) nths 1 setTmp

def exclusiveLocal (op : α → α → α) (init : α) (first : ℕ → α) (dist nths : ℕ) : Segment (ScanState α) := fun tid =>
  if st dist nths tid < ed dist nths tid then
    (fun s => { s with
      dFirst := Function.update s.dFirst (st dist nths tid) init
      res := Function.update s.res tid (first (st dist nths tid)) }) ::
    (List.range' (st dist nths tid + 1) (ed dist nths tid - (st dist nths tid + 1))).map (fun offset s =>
      { s with
        dFirst := Function.update s.dFirst offset (s.res tid)
        res := Function.update s.res tid (op (s.res tid) (first offset)) }) ++
    [publish tid]
  else []

def exclusiveScan (op : α → α → α) (init : α) (first : ℕ → α) (dist nths : ℕ) : List (Segment (ScanState α)) :=
  exclusiveLocal op init first dist nths ::
    rounds op (below dist nths) (applyEarlier op dist nths) nths 1 setTmp

/-- Every thread starts from `init`, with or without work. -/
def reduceLocal (op : α → α → α) (init : α) (first : ℕ → α) (dist nths : ℕ) : Segment (ScanState α) := fun tid =>
  (fun s => { s with res := Function.update s.res tid init }) ::
    (List.range' (st dist nths tid) (ed dist nths tid - st dist nths tid)).map (fun offset s =>
      { s with res := Function.update s.res tid (op (s.res tid) (first offset)) }) ++
    [publish tid]

def storeResult : Segment (ScanState α) := fun tid =>
  if tid = 0 then [fun s => { s with dFirst := Function.update s.dFirst 0 (s.tmp tid) }] else []

def reduce (op : α → α → α) (init : α) (first : ℕ → α) (dist nths : ℕ) : List (Segment (ScanState α)) :=
  reduceLocal op init first dist nths :: rounds op (above nths) storeResult nths 1 setTmp

end OmpExecutionPolicy

end Zpc
