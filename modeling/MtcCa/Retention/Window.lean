import MtcCa.Cloud.ObjectRetention
import MtcCa.Retention.Policy

/-! What is written under a retention policy stays for the window the configuration asks for
(`crates/retention/src/policy.rs`, `crates/cloud-memory/src/object_lock.rs`). -/
namespace Retention

open CaService (checkedAdd)
open Cloud Cloud.MemoryObjectStore
open Transition

variable {config : RetentionPolicyConfig} {policy : RetentionPolicy} {cls : ObjectClass}
  {writeTime T checked stamped : SystemTime} {objects objects' : Objects} {object : StoredObject}
  {key : String} {data : Blob} {c : ObjectCall} {r : Except CloudError ObjectReply}
  {w w' : World} {ev : Event} {events : List Event}

/-- The call moved the retention of the key. -/
def Extends (key : String) (ev : Event) : Prop :=
  ∃ T, ev.call = .extendRetention key T ∧ ev.reply = .ok .done

end Retention
