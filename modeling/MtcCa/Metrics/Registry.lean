import MtcCa.Lib.FiniteMap

/-! The metric registry: counters, gauges and the raw observations of histograms
(`crates/metrics/src/registry.rs`, `crates/metrics/src/names.rs`). Counts are natural numbers;
other readings are of a type `F` that nothing is computed with. -/
namespace Metrics

/-- One metric of the table of names: its name and its unit. -/
structure MetricSpec where
  name : String
  unit : String

def specMetrics : List MetricSpec :=
  [⟨"issuance_latency_seconds", "Seconds"⟩, ⟨"batch_commit_latency_seconds", "Seconds"⟩,
    ⟨"hsm_signing_latency_seconds", "Seconds"⟩, ⟨"lease_renewals_total", "Count"⟩,
    ⟨"lease_renewals_failed_total", "Count"⟩, ⟨"epoch_advances_total", "Count"⟩,
    ⟨"batches_committed_total", "Count"⟩, ⟨"batches_abandoned_total", "Count"⟩,
    ⟨"entries_by_source_total", "Count"⟩, ⟨"tile_cache_hits_total", "Count"⟩,
    ⟨"tile_cache_misses_total", "Count"⟩, ⟨"crr_replication_lag_seconds", "Seconds"⟩,
    ⟨"ddb_replication_lag_seconds", "Seconds"⟩]

def specFor (name : String) : Option MetricSpec := specMetrics.find? (fun spec => spec.name = name)

/-- The label pairs of one metric. -/
abbrev Labels : Type := List (String ×ₗ String)

/-- One reading of a family. -/
inductive MetricValue (F : Type) where
  | counter (value : ℕ)
  | gauge (value : F)

structure Metric (F : Type) where
  name : String
  labels : Labels
  value : MetricValue F

/-- What is registered under one name. -/
inductive Family (F : Type) where
  | counter (value : ℕ)
  | labeledCounter (label : String) (values : FiniteMap String ℕ)
  | gauge (value : F)
  | histogram

/-- The readings of a family. Histograms are read from the raw observations instead. -/
def Family.metrics {F : Type} (name : String) : Family F → List (Metric F)
  | .counter value => [⟨name, [], .counter value⟩]
  | .labeledCounter label values =>
    values.toList.map (fun p => ⟨name, [toLex (label, p.1)], .counter p.2⟩)
  | .gauge value => [⟨name, [], .gauge value⟩]
  | .histogram => []

def maxRawObservations : ℕ := 100

structure Registry (F : Type) where
  families : FiniteMap String (Family F)
  rawHistograms : FiniteMap String (List F)

/-- Which names the metrics library accepts for metrics and for labels. -/
structure NameRules where
  validName : String → Bool
  validLabel : String → Bool

namespace Registry

variable {F : Type} (rules : NameRules) (r : Registry F)

def new : Registry F := ⟨.empty, .empty⟩

/-- The readings of all families, in the order of their names. -/
def gather : List (Metric F) := r.families.toList.flatMap (fun p => p.2.metrics p.1)

/-- A name can be registered once. -/
def register (name : String) (family : Family F) : Option (Registry F) :=
  if rules.validName name ∧ r.families.get? name = none then
    some { r with families := r.families.insert name family }
  else none

def counter (name : String) : Option (Registry F) := r.register rules name (.counter 0)

def labeledCounter (name label : String) : Option (Registry F) :=
  if rules.validLabel label then r.register rules name (.labeledCounter label .empty) else none

def gauge (name : String) (zero : F) : Option (Registry F) := r.register rules name (.gauge zero)

def histogram (name : String) : Option (Registry F) := do
  let r ← r.register rules name .histogram
  some { r with rawHistograms := r.rawHistograms.insert name [] }

/-- `Counter::inc_by`, through the handle of a counter. -/
def incBy (name : String) (n : ℕ) : Option (Registry F) :=
  match r.families.get? name with
  | some (.counter value) =>
    some { r with families := r.families.insert name (.counter (value + n)) }
  | _ => none

/-- `LabeledCounter::inc_by`, through the handle of a counter with a label. A label value starts
at zero. -/
def labeledIncBy (name label labelValue : String) (n : ℕ) : Option (Registry F) :=
  match r.families.get? name with
  | some (.labeledCounter label' values) =>
    if label = label' then
      let value := (values.get? labelValue).getD 0 + n
      let values := values.insert labelValue value
      some { r with families := r.families.insert name (.labeledCounter label values) }
    else none
  | _ => none

def gaugeSet (name : String) (value : F) : Option (Registry F) :=
  match r.families.get? name with
  | some (.gauge _) => some { r with families := r.families.insert name (.gauge value) }
  | _ => none

/-- Observations past the cap are dropped. -/
def observe (name : String) (value : F) : Option (Registry F) :=
  match r.rawHistograms.get? name with
  | some raw =>
    if raw.length < maxRawObservations then
      some { r with rawHistograms := r.rawHistograms.insert name (raw ++ [value]) }
    else some r
  | none => none

/-- Takes the raw observations of every histogram. -/
def drain : List (String × List F) × Registry F :=
  (r.rawHistograms.toList, { r with
    rawHistograms := r.rawHistograms.toList.foldl (fun m p => m.insert p.1 []) r.rawHistograms })

end Registry

end Metrics
