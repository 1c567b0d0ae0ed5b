import MtcCa.Cloud.Types
import MtcCa.Lib.Channel
import MtcCa.Lib.FiniteMap
import MtcCa.Lib.Saturating
import MtcCa.Lib.Transition
import MtcCa.Tree.Digest

/-! The intake queue and the batch builder (`crates/ca-service/src/batch/mod.rs`,
`crates/ca-service/src/batch/queue.rs`, `crates/ca-service/src/batch/builder.rs`). `next_batch`
is cut at its suspension points; a submission is one step, under the queue's lock. -/
namespace CaService

open Cloud (SystemTime Duration)
open Mtc (Index)
open Saturating

inductive IntakeError where
  | queueFull
  | notPrimary
  | shutdown
deriving DecidableEq

inductive BatchConfigError where
  | zeroBatchSize
deriving DecidableEq

structure BatchConfig where
  maxBatchSize : ℕ
  cadence : Duration
  pos : 0 < maxBatchSize

def BatchConfig.new (maxBatchSize : ℕ) (cadence : Duration) :
    Except BatchConfigError BatchConfig :=
  if h : maxBatchSize = 0 then .error .zeroBatchSize
  else .ok ⟨maxBatchSize, cadence, Nat.pos_of_ne_zero h⟩

/-- A submitted entry with the handle that answers its submitter. -/
structure BatchEntry (Entry : Type) where
  logEntry : Entry
  completion : ℕ

variable {Entry : Type}

/-- The answer a submitter is sent: its handle and the result of its submission. -/
abbrev Answer := ℕ × Except IntakeError Index

def BatchEntry.complete (entry : BatchEntry Entry) (index : Index) : Answer :=
  (entry.completion, .ok index)

def BatchEntry.fail (entry : BatchEntry Entry) (error : IntakeError) : Answer :=
  (entry.completion, .error error)

structure Batch (Entry : Type) where
  entries : List (BatchEntry Entry)

namespace Batch

def len (batch : Batch Entry) : ℕ := batch.entries.length

/-- Answers the entries with `start`, `start + 1` and so on, in their order. -/
def completeSequential (batch : Batch Entry) (start : Index) : List Answer :=
  batch.entries.zipIdx.map (fun p => p.1.complete (saturatingAdd start (saturate p.2)))

def failAll (batch : Batch Entry) (error : IntakeError) : List Answer :=
  batch.entries.map (fun entry => entry.fail error)

end Batch

/-- Where a call of `next_batch` is suspended. -/
inductive Phase (Entry : Type) where
  /-- No call is running. -/
  | idle
  | awaitingFirst
  | accumulating (entries : List (BatchEntry Entry)) (deadline : Option SystemTime)

/-- What a resumed call does: it goes on to the next suspension point, or returns. -/
abbrev Resumed (Entry : Type) := Phase Entry × Option (Option (Batch Entry))

/-- The largest instant has the largest `i64` seconds. -/
def checkedAdd (now : SystemTime) (d : Duration) : Option SystemTime :=
  if now.nanos + d.nanos < 2 ^ 63 * 10 ^ 9 then some ⟨now.nanos + d.nanos⟩ else none

theorem checkedAdd_eq_some {now t : SystemTime} {d : Duration} (h : checkedAdd now d = some t) :
    t = ⟨now.nanos + d.nanos⟩ := by
  unfold checkedAdd at h
  split at h <;> cases h
  rfl

namespace BatchBuilder

variable (config : BatchConfig)

/-- The head of the accumulation loop. -/
def accumulate (entries : List (BatchEntry Entry)) (deadline : Option SystemTime) :
    Resumed Entry :=
  if entries.length < config.maxBatchSize then (.accumulating entries deadline, none)
  else (.idle, some (some ⟨entries⟩))

def onFirst (now : SystemTime) (first : Option (BatchEntry Entry)) : Resumed Entry :=
  match first with
  | none => (.idle, some none)
  | some first => accumulate config [first] (checkedAdd now config.cadence)

/-- The body of the loop: `received` is absent at the end of the stream and at the deadline. -/
def onReceived (entries : List (BatchEntry Entry)) (deadline : Option SystemTime)
    (received : Option (BatchEntry Entry)) : Resumed Entry :=
  match received with
  | some entry => accumulate config (entries ++ [entry]) deadline
  | none => (.idle, some (some ⟨entries⟩))

end BatchBuilder

/-- The sending half held by the queue until shutdown. -/
structure Sender where
deriving DecidableEq

/-- The queue, the channel, the builder, the batches its caller owns and the answers sent. -/
structure World (Entry : Type) where
  config : BatchConfig
  sender : Option Sender
  channel : Channel (BatchEntry Entry)
  phase : Phase Entry
  nextCompletion : ℕ
  outstanding : List (Batch Entry)
  answers : FiniteMap ℕ (Except IntakeError Index)

/-- A fresh pair of queue and builder. -/
def channel (config : BatchConfig) : World Entry where
  config := config
  sender := some {}
  channel := .new config.maxBatchSize
  phase := .idle
  nextCompletion := 0
  outstanding := []
  answers := FiniteMap.empty

namespace World

def shutdown (w : World Entry) : World Entry := { w with sender := none }

def tryEnqueue (w : World Entry) (item : BatchEntry Entry) :
    Except IntakeError Unit × World Entry :=
  match w.sender with
  | none => (.error .shutdown, w)
  | some _ =>
    let (sent, channel) := w.channel.trySend item
    let result := sent.mapError (fun
      | .full => IntakeError.queueFull
      | .closed => IntakeError.shutdown)
    (result, { w with channel := channel })

/-- A submission makes a fresh handle and tries to enqueue. -/
def submitEntry (w : World Entry) (entry : Entry) :
    BatchEntry Entry × Except IntakeError Unit × World Entry :=
  let item := ⟨entry, w.nextCompletion⟩
  (item, { w with nextCompletion := w.nextCompletion + 1 }.tryEnqueue item)

/-- Sends answers to the submitters that wait for them. -/
def answer (w : World Entry) (answers : List Answer) : World Entry :=
  { w with answers := answers.foldl (fun m p => m.insert p.1 p.2) w.answers }

end World

/-- The batch a call returned, if it returned one. -/
def returned : Option (Option (Batch Entry)) → List (Batch Entry)
  | some (some batch) => [batch]
  | _ => []

inductive Event (Entry : Type) where
  | submit (item : BatchEntry Entry) (result : Except IntakeError Unit)
  | shutdown
  | nextBatch
  | resume (out : Option (Option (Batch Entry)))
  | completeSequential (batch : Batch Entry) (start : Index)
  | failAll (batch : Batch Entry) (error : IntakeError)

/-- The world after a call of `next_batch` was resumed. -/
def World.resumed (w : World Entry) (channel : Channel (BatchEntry Entry)) (r : Resumed Entry) :
    World Entry :=
  { w with
    channel := channel
    phase := r.1
    outstanding := w.outstanding ++ returned r.2 }

inductive Step (w : World Entry) : Event Entry → World Entry → Prop where
  | submit {entry : Entry} :
      Step w (.submit (w.submitEntry entry).1 (w.submitEntry entry).2.1) (w.submitEntry entry).2.2
  | shutdown : Step w .shutdown w.shutdown
  | nextBatch : w.phase = .idle → Step w .nextBatch { w with phase := .awaitingFirst }
  | first {received : Option (BatchEntry Entry)} {channel : Channel (BatchEntry Entry)}
      {now : SystemTime} : w.phase = .awaitingFirst →
      w.channel.recv w.sender.isNone = some (received, channel) →
      Step w (.resume (BatchBuilder.onFirst w.config now received).2)
        (w.resumed channel (BatchBuilder.onFirst w.config now received))
  | received {entries : List (BatchEntry Entry)} {deadline : Option SystemTime}
      {received : Option (BatchEntry Entry)} {channel : Channel (BatchEntry Entry)} :
      w.phase = .accumulating entries deadline →
      w.channel.recv w.sender.isNone = some (received, channel) →
      Step w (.resume (BatchBuilder.onReceived w.config entries deadline received).2)
        (w.resumed channel (BatchBuilder.onReceived w.config entries deadline received))
  | timeout {entries : List (BatchEntry Entry)} {deadline : SystemTime} :
      w.phase = .accumulating entries (some deadline) →
      Step w (.resume (BatchBuilder.onReceived w.config entries (some deadline) none).2)
        (w.resumed w.channel (BatchBuilder.onReceived w.config entries (some deadline) none))
  | completeSequential {batch : Batch Entry} {before after : List (Batch Entry)} {start : Index} :
      w.outstanding = before ++ batch :: after →
      Step w (.completeSequential batch start)
        ({ w with outstanding := before ++ after }.answer (batch.completeSequential start))
  | failAll {batch : Batch Entry} {before after : List (Batch Entry)} {error : IntakeError} :
      w.outstanding = before ++ batch :: after →
      Step w (.failAll batch error)
        ({ w with outstanding := before ++ after }.answer (batch.failAll error))

end CaService
