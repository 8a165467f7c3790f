import TraceHarbor.Trace.MethodEvent

/-!
# The Event Ring Buffer of `AppMethodBeat`

Main-thread entry and exit events are written at `sIndex`, which starts over at 0 when it reaches the end
of the buffer. `maskIndex` marks the current position with an `IndexRecord`; the records not yet released
are kept in a list sorted by index, and `checkPileup` invalidates records from the head of that list when
an event is written over their position.

`IndexRecord` objects are named by the order of their creation. The buffer size is a parameter
(`Constants.BUFFER_SIZE` in the program).
-/

namespace TraceHarbor.Trace

/-- `Constants.BUFFER_SIZE` -/
def constBufferSize : ℕ := 100 * 10000

/-- The values of `status`, in their order (`STATUS_DEFAULT` is `Int.MAX_VALUE`). -/
def statusDefault : Int := 2 ^ 31 - 1

def statusReady : Int := 1

def statusStopped : Int := -1

/-- `IndexRecord`, without the list link. -/
structure IndexRecord where
  index : Int
  isValid : Bool
  source : String
  deriving Repr, DecidableEq, Inhabited

/-- The companion-object state that the event hooks and the record operations touch. -/
structure Beat where
  status : Int
  sBuffer : ℕ → Long
  sIndex : ℕ
  sLastIndex : Int
  /-- the list behind `sIndexRecordHead` -/
  records : List ℕ
  /-- the `IndexRecord` objects created so far -/
  objects : ℕ → IndexRecord
  nextObject : ℕ

namespace Beat

variable (bufferSize : ℕ)

def init : Beat where
  status := statusDefault
  sBuffer := fun _ => 0#64
  sIndex := 0
  sLastIndex := -1
  records := []
  objects := fun _ => default
  nextObject := 0

/-- The loop of `checkPileup` over the list: the objects with the invalidated ones marked, and
what is left of the list. -/
def pileup (index : ℕ) (sLastIndex : Int) (objects : ℕ → IndexRecord) :
    List ℕ → (ℕ → IndexRecord) × List ℕ
  | [] => (objects, [])
  | r :: rest =>
    if (objects r).index = index ∨
        ((objects r).index = -1 ∧ sLastIndex = (bufferSize : Int) - 1) then
      pileup index sLastIndex (Function.update objects r { objects r with isValid := false }) rest
    else
      (objects, r :: rest)

def checkPileup (s : Beat) (index : ℕ) : Beat :=
  let p := pileup bufferSize index s.sLastIndex s.objects s.records
  { s with objects := p.1, records := p.2 }

/-- `mergeData`: store the event, invalidate overwritten records, remember the position. -/
def mergeDataAt (s : Beat) (methodId : Int) (index : ℕ) (isIn : Bool)
    (sCurrentDiffTime : Long) : Beat :=
  let s := { s with
    sBuffer := Function.update s.sBuffer index (mergeData methodId sCurrentDiffTime isIn) }
  { checkPileup bufferSize s index with sLastIndex := index }

/-- The common end of `i` and `o`: write at `sIndex`, starting over at the end of the buffer. -/
def record (s : Beat) (methodId : Int) (isIn : Bool) (sCurrentDiffTime : Long) : Beat :=
  let s := if s.sIndex < bufferSize then s else { s with sIndex := 0 }
  let s := mergeDataAt bufferSize s methodId s.sIndex isIn sCurrentDiffTime
  { s with sIndex := s.sIndex + 1 }

/-- `i(methodId)` on the main thread. -/
def i (s : Beat) (methodId : Int) (sCurrentDiffTime : Long) : Beat :=
  if s.status ≤ statusStopped then s
  else if methodIdMax ≤ methodId then s
  else
    -- the first event runs `realExecute`, which leaves the buffer and the records alone
    let s := if s.status = statusDefault then { s with status := statusReady } else s
    record bufferSize s methodId true sCurrentDiffTime

/-- `o(methodId)` on the main thread. -/
def o (s : Beat) (methodId : Int) (sCurrentDiffTime : Long) : Beat :=
  if s.status ≤ statusStopped then s
  else if methodIdMax ≤ methodId then s
  else record bufferSize s methodId false sCurrentDiffTime

/-- The loop of `maskIndex`: the new record goes before the first one whose index is not
smaller. -/
def insertRecord (objects : ℕ → IndexRecord) (r : ℕ) : List ℕ → List ℕ
  | [] => [r]
  | q :: rest =>
    if (objects r).index ≤ (objects q).index then r :: q :: rest
    else q :: insertRecord objects r rest

def maskIndex (s : Beat) (source : String) : Beat :=
  let r := s.nextObject
  let objects := Function.update s.objects r ⟨(s.sIndex : Int) - 1, true, source⟩
  { s with
    objects := objects
    records := insertRecord objects r s.records
    nextObject := r + 1 }

/-- `record.release()`: invalidate the record and unlink it if it is still in the list. -/
def release (s : Beat) (r : ℕ) : Beat :=
  { s with
    objects := Function.update s.objects r { s.objects r with isValid := false }
    records := s.records.erase r }

/-- `copyData(startRecord)`: the events from the record's position to the last one written, in two
parts if the buffer has started over in between. -/
def copyData (s : Beat) (startRecord : ℕ) : List Long :=
  if (s.objects startRecord).isValid then
    let start := (s.objects startRecord).index.toNat
    -- the end record is `IndexRecord(sIndex - 1)`
    let last := s.sIndex - 1
    if start < last then (List.range' start (last - start + 1)).map s.sBuffer
    else if last < start then
      (List.range' start (bufferSize - start)).map s.sBuffer ++
        (List.range (last + 1)).map s.sBuffer
    else []
  else []

end Beat

inductive BeatOp where
  | i (methodId : Int) (sCurrentDiffTime : Long)
  | o (methodId : Int) (sCurrentDiffTime : Long)
  | maskIndex (source : String)
  | release (record : ℕ)

def Beat.step (bufferSize : ℕ) (s : Beat) : BeatOp → Beat
  | .i methodId t => s.i bufferSize methodId t
  | .o methodId t => s.o bufferSize methodId t
  | .maskIndex source => s.maskIndex source
  | .release r => s.release r

end TraceHarbor.Trace
