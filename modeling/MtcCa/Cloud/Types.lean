import Mathlib

/-! The vocabulary the storage backends share: errors, instants and objects
(`crates/cloud-types/src/errors.rs`, `crates/cloud-types/src/object_store.rs`,
`crates/cloud-types/src/object_lock.rs`). -/
namespace Cloud

inductive CloudError where
  | notFound (key : String)
  | alreadyExists (key : String)
  | conditionFailed (reason : String)
  | retentionViolation (reason : String)
  | transport (retryable : Bool) (reason : String)
deriving DecidableEq

/-- A clock reading, in nanoseconds from the Unix epoch. -/
structure SystemTime where
  nanos : ℤ
deriving DecidableEq

theorem SystemTime.nanos_injective : Function.Injective SystemTime.nanos := by
  rintro ⟨a⟩ ⟨b⟩ rfl
  rfl

instance : LinearOrder SystemTime := LinearOrder.lift' SystemTime.nanos SystemTime.nanos_injective

/-- The `:?` rendering of an instant. -/
def SystemTime.debug (t : SystemTime) : String :=
  "SystemTime \x7b tv_sec: " ++ toString (t.nanos / 10 ^ 9) ++ ", tv_nsec: " ++
    toString (t.nanos % 10 ^ 9) ++ " \x7d"

/-- A span of time, in nanoseconds. -/
structure Duration where
  nanos : ℕ
deriving DecidableEq

/-- The contents of one object: a byte slice, whose length fits an `i64`. -/
structure Blob where
  bytes : List UInt8
  length_lt : bytes.length < 2 ^ 63
deriving DecidableEq

/-- Overwrite policy of a put. -/
inductive PutMode where
  | ifNotExists
  | overwrite
deriving DecidableEq

structure PutOptions where
  mode : PutMode
deriving DecidableEq

structure ObjectMetadata where
  sizeBytes : UInt64
  lastModified : SystemTime
deriving DecidableEq

structure ObjectInfo where
  key : String
  sizeBytes : UInt64
  lastModified : SystemTime
deriving DecidableEq

/-- Plain string-prefix matching. -/
def startsWith (key keyPrefix : String) : Bool := keyPrefix.toList.isPrefixOf key.toList

/-- A call of one of the methods of `ObjectStore` and `ObjectLock`. -/
inductive ObjectCall where
  | put (key : String) (data : Blob) (opts : PutOptions)
  | get (key : String)
  | head (key : String)
  | list (keyPrefix : String)
  | delete (key : String)
  | putWithRetention (key : String) (data : Blob) (retainUntil : SystemTime)
  | extendRetention (key : String) (newRetainUntil : SystemTime)
  | getRetention (key : String)
deriving DecidableEq

/-- What a successful call returns. -/
inductive ObjectReply where
  | done
  | data (data : Blob)
  | metadata (m : ObjectMetadata)
  | listing (l : List ObjectInfo)
  | instant (t : SystemTime)
deriving DecidableEq

end Cloud
