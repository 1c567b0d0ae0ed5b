import MtcCa.Metrics.Registry

/-! The EMF exporter: what a flush takes from the registry, the events it makes of it, and the
lines it writes (`crates/metrics/src/emf.rs`). -/
namespace Metrics

def defaultEmfNamespace : String := "MtcCa"

structure EmfConfig where
  enabled : Bool
  namespaceName : String
  defaultDimensions : FiniteMap String String

/-- The value of a sample: a count since the last flush, a reading, or raw observations. -/
inductive SampleValue (F : Type) where
  | delta (n : ℕ)
  | number (x : F)
  | array (xs : List F)

structure Sample (F : Type) where
  name : String
  unit : Option String
  value : SampleValue F

/-- The samples by their label sets. -/
abbrev Groups (F : Type) : Type := FiniteMap Labels (List (Sample F))

/-- One log event: the metadata, and what becomes the other members of the root object. -/
structure EmfEvent (F : Type) where
  timestamp : UInt64
  namespaceName : String
  dimensions : List String
  metrics : List (String × Option String)
  defaultDimensions : List (String × String)
  labels : Labels
  samples : List (Sample F)

/-- The exporter's own state: the counter values that the last flush saw. -/
structure EmfEmitter where
  namespaceName : String
  defaultDimensions : FiniteMap String String
  lastCounters : FiniteMap String ℕ

def unitFor (name : String) : Option String := (specFor name).map (fun spec => spec.unit)

/-- The identity of a counter series across flushes. -/
def sampleKey (name : String) (labels : Labels) : String :=
  labels.foldl (fun key p =>
    key ++ "\x1f" ++ (ofLex p).1 ++ "=" ++ (ofLex p).2) name

/-- Where a line of a flush fails: in the JSON, of which the sink may then have some bytes, in the
newline, or nowhere. -/
inductive WriteResult where
  | complete
  | jsonFails (bytes : ℕ) (reason : String)
  | newlineFails (reason : String)
deriving DecidableEq

/-- What a write of one event puts into a sink: its JSON, or no more than some bytes of it. -/
inductive Piece (F : Type) where
  | whole (event : EmfEvent F)
  | part (event : EmfEvent F) (bytes : ℕ)

/-- What stands between two newlines of a sink. -/
abbrev Line (F : Type) : Type := List (Piece F)

/-- The first bytes of an event, if there are any. -/
def Line.torn {F : Type} (event : EmfEvent F) (bytes : ℕ) : Line F :=
  if bytes = 0 then [] else [.part event bytes]

/-- The event of a line that was completely written: its JSON and nothing else. -/
def Line.event? {F : Type} : Line F → Option (EmfEvent F)
  | [.whole event] => some event
  | _ => none

inductive MetricsError where
  | emf (reason : String)
  | io (reason : String)

namespace EmfEmitter

variable {F : Type}

def fromConfig (config : EmfConfig) : Option EmfEmitter :=
  if config.enabled then
    some ⟨if config.namespaceName = "" then defaultEmfNamespace else config.namespaceName,
      config.defaultDimensions, .empty⟩
  else none

/-- Appends a sample to the group of its labels. -/
def push (groups : Groups F) (labels : Labels) (sample : Sample F) : Groups F :=
  groups.insert labels ((groups.get? labels).getD [] ++ [sample])

/-- The sample of one reading. A counter's is what it has grown by since it was last seen, and
from then on it has been seen. -/
def addMetric (acc : FiniteMap String ℕ × Groups F) (m : Metric F) :
    FiniteMap String ℕ × Groups F :=
  let labels := m.labels.insertionSort (· ≤ ·)
  match m.value with
  | .counter current =>
    let key := sampleKey m.name labels
    let previous := (acc.1.get? key).getD 0
    let delta := current - previous
    (acc.1.insert key current, push acc.2 labels ⟨m.name, unitFor m.name, .delta delta⟩)
  | .gauge value => (acc.1, push acc.2 labels ⟨m.name, unitFor m.name, .number value⟩)

/-- The sample of one histogram, if there are observations. -/
def addRaw (groups : Groups F) (raw : String × List F) : Groups F :=
  if raw.2.isEmpty then groups
  else push groups [] ⟨raw.1, unitFor raw.1, .array raw.2⟩

def buildEvent (e : EmfEmitter) (timestamp : UInt64) (labels : Labels)
    (samples : List (Sample F)) : EmfEvent F where
  timestamp := timestamp
  namespaceName := e.namespaceName
  dimensions := FiniteMap.ascending
    (e.defaultDimensions.keys ∪ (labels.map (fun p => (ofLex p).1)).toFinset)
  metrics := samples.map (fun s => (s.name, s.unit))
  defaultDimensions := e.defaultDimensions.toList
  labels := labels
  samples := samples

/-- The events for everything recorded since the last flush. The counters have then been seen
and the observations are taken. -/
def flush (e : EmfEmitter) (r : Registry F) (timestamp : UInt64) :
    List (EmfEvent F) × EmfEmitter × Registry F :=
  let (lastCounters, groups) := r.gather.foldl addMetric (e.lastCounters, .empty)
  let (raw, r) := r.drain
  let groups := raw.foldl addRaw groups
  let e := { e with lastCounters := lastCounters }
  let nonEmpty := groups.toList.filter (fun p => ¬ p.2.isEmpty)
  (nonEmpty.map (fun p => e.buildEvent timestamp p.1 p.2), e, r)

/-- Writes the events as lines to a sink that has `tail` after its last newline, up to the first
that fails. Gives the lines that were ended by a newline, and what stands after the last. -/
def writeLines (writer : ℕ → WriteResult) :
    ℕ → Line F → List (EmfEvent F) → (List (Line F) × Line F) × Except MetricsError Unit
  | _, tail, [] => (([], tail), .ok ())
  | n, tail, event :: events =>
    match writer n with
    | .jsonFails bytes reason => (([], tail ++ Line.torn event bytes), .error (.emf reason))
    | .newlineFails reason => (([], tail ++ [.whole event]), .error (.io reason))
    | .complete =>
      let ((lines, last), result) := writeLines writer (n + 1) [] events
      (((tail ++ [.whole event]) :: lines, last), result)

/-- Flushes to a writer. The events are made before the first line is written. -/
def flushTo (e : EmfEmitter) (r : Registry F) (tail : Line F) (writer : ℕ → WriteResult)
    (timestamp : UInt64) :
    ((List (Line F) × Line F) × Except MetricsError Unit) × EmfEmitter × Registry F :=
  let (events, e, r) := e.flush r timestamp
  (writeLines writer 0 tail events, e, r)

end EmfEmitter

end Metrics
