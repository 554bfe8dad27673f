import ChatMemory.Resource.Basic
import ChatMemory.Store.Basic

/-!
# Resources in the store

A change to a resource that does not exist creates it.
-/

namespace ChatMemory.Store

variable (s : Store)

/-- The record of a resource. -/
def fetchResource (id : String) : Action (Option Resource) := do
  let key := s.keys.resource id
  match ← Action.ask (.get .resources key) "STORAGE_KV_GET_RESOURCE_FAILED" (.resource id) with
  | none => return none
  | some record =>
    match Resource.ofJson record with
    | .ok resource => return some resource
    | .error cause => .fail (.corrupt key cause)

/-- Writes the record of a resource. -/
def writeResource (r : Resource) (key : String) : Action Unit :=
  Action.ask (.put .resources key r.toJson) "STORAGE_KV_PUT_RESOURCE_FAILED" (.resource r.id)

/-- The resource of an id; nothing if it cannot be read. -/
def getResource (id : String) : Action (Option Resource) := (s.fetchResource id).orEmpty none

/-- Stores a resource, replacing any of the same id. -/
def saveResource (r : Resource) : Action Resource := do
  check (Identifier.violations "id" r.id)
  let key := s.keys.resource r.id
  Action.exclusively key (writeResource r key)
  return r

/-- Replaces the memory of a resource if any is given, and merges metadata into it. -/
def updateResource (now : Instant) (id : String) (memory : Option String)
    (patch : Option Object) : Action Resource := do
  check (Identifier.violations "resourceId" id)
  let key := s.keys.resource id
  Action.exclusively key do
    let before := (← s.fetchResource id).getD (.create now id)
    let after := before.revise now memory patch
    writeResource after key
    return after

end ChatMemory.Store
