import CallForms.Form.Walk

/-!
A visitor that writes down its own walk.

Destinations are buckets. Every call is logged in the bucket it is handed, and a recorder may open
a fresh bucket for the children of chosen nodes, so the buckets nest as the chosen nodes do. A
recorder can also be told to fail at a stop, to show what a walk leaves behind when it ends early.
-/

namespace CallForms

def Phase.label : Phase → String
  | enter => "enter"
  | leave => "exit"

def Stop.describe (stop : Stop) : String :=
  stop.phase.label ++ " " ++ stop.visit.item.describe ++ " <- " ++
    match stop.visit.parent with
    | none => "-"
    | some parent => parent.describe

structure Bucket where
  log : Array Stop := #[]
  opened : Array Bucket := #[]

namespace Bucket

def write (b : Bucket) (stop : Stop) : Bucket :=
  { b with log := b.log.push stop }

def add (b inner : Bucket) : Bucket :=
  { b with opened := b.opened.push inner }

end Bucket

structure Recorder where
  /-- Whether a node's children are recorded in a bucket of their own. -/
  opens : Item → Bool
  /-- The error to fail with at a stop, given how many stops there were, this one included. -/
  failure? : Stop → Nat → Option WalkError := fun _ _ => none

/-- Recording counts the stops in the visitor's state. -/
def Recorder.visitor (r : Recorder) : Visitor Nat Bucket where
  enter visit stops bucket :=
    let stop : Stop := ⟨.enter, visit⟩
    let written := bucket.write stop
    match r.failure? stop (stops + 1) with
    | some e => (stops + 1, .failed written e)
    | none =>
        if r.opens visit.item then
          (stops + 1, .opened {} written.add)
        else
          (stops + 1, .opened written id)
  leave visit stops bucket :=
    let stop : Stop := ⟨.leave, visit⟩
    (stops + 1, bucket.write stop, r.failure? stop (stops + 1))

/-- When a recorder is to fail: at a stop that meets every condition that is given. -/
structure FailureRule where
  phase? : Option Phase := none
  kind? : Option NodeKind := none
  payload? : Option String := none
  stopNumber? : Option Nat := none
  error : String → WalkError

/-- Whether a condition, if there is one, asks for this value. -/
def FailureRule.allows {α : Type} [BEq α] (condition : Option α) (value : Option α) : Bool :=
  condition.isNone || condition == value

def FailureRule.failure? (rule : FailureRule) (stop : Stop) (stopNumber : Nat) : Option WalkError :=
  let item := stop.visit.item
  if allows rule.phase? (some stop.phase) && allows rule.kind? (some item.kind)
      && allows rule.payload? item.payload? && allows rule.stopNumber? (some stopNumber) then
    some (rule.error item.kind.label)
  else
    none

end CallForms
