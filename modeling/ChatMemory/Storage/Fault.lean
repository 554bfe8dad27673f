import ChatMemory.Storage.Action

/-!
# Faults by rule

A fault rule names calls of the adapter that are to fail: by the kind of call, the table, the key or
any of them together. What a rule leaves open matches every call.
-/

namespace ChatMemory

/-- A rule for calls that fail. -/
structure FaultRule where
  op : Option String
  table : Option String
  key : Option String
deriving DecidableEq

namespace FaultRule

/-- Whether a part of a rule is open or has the given value. -/
def admits (part : Option String) (value : String) : Bool :=
  match part with
  | none => true
  | some v => v = value

def covers (rule : FaultRule) (r : Request) : Bool :=
  admits rule.op r.op && admits rule.table r.table.name && admits rule.key r.key

/-- The failure of a call that a rule covers. -/
def failure (r : Request) : KvError := .backend ("injected " ++ r.op ++ " failure")

/-- The faults of some rules. -/
def faults (rules : List FaultRule) : Faults := fun _ r =>
  if rules.any (·.covers r) then some (failure r) else none

end FaultRule

end ChatMemory
