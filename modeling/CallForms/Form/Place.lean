import CallForms.Form.Contraction

/-!
Places in a program, and the buckets that a recorder fills, said place by place.

Two equal forms of a program are one item, but they stand at two places. A place knows the places
above it, so it can be said which node opened the bucket that a stop is recorded in: of the chosen
nodes above the place the nearest.
-/

namespace CallForms

/-- A node of a program together with the way to it from the program. -/
inductive Place where
  | program (p : Program)
  | child (parent : Place) (index : Nat) (form : Form)
  deriving DecidableEq

namespace Place

def item : Place → Item
  | program p => .program p
  | child _ _ form => .form form

/-- The places above this one, the nearest first. -/
def above : Place → List Place
  | program _ => []
  | child parent _ _ => parent :: parent.above

def visit (place : Place) : Visit :=
  ⟨place.item, place.above.head?.map item⟩

/-- The nearest of the chosen nodes above the place. -/
def opener? (opens : Item → Bool) (place : Place) : Option Place :=
  place.above.find? fun other => opens other.item

end Place

/-- A stop of a tour together with the place of its node. -/
structure PlacedStop where
  phase : Phase
  place : Place
  deriving DecidableEq

namespace PlacedStop

def stop (s : PlacedStop) : Stop :=
  ⟨s.phase, s.place.visit⟩

/-- The stops whose nearest chosen node is the given one, or that have none. -/
def inScope (opens : Item → Bool) (scope : Option Place) (stops : List PlacedStop) :
    List PlacedStop :=
  stops.filter fun s => s.place.opener? opens = scope

/-- The chosen nodes that are entered at these stops. -/
def openers (opens : Item → Bool) (stops : List PlacedStop) : List Place :=
  (stops.filter fun s => s.phase = .enter && opens s.place.item).map place

end PlacedStop

namespace Form

mutual

/-- The stops at a form and below it, each with its place. -/
def placedStops (parent : Place) (index : Nat) : Form → List PlacedStop
  | number value =>
      [⟨.enter, .child parent index (number value)⟩, ⟨.leave, .child parent index (number value)⟩]
  | string value =>
      [⟨.enter, .child parent index (string value)⟩, ⟨.leave, .child parent index (string value)⟩]
  | call name params =>
      ⟨.enter, .child parent index (call name params)⟩ ::
        (placedStopsAll (.child parent index (call name params)) 0 params ++
          [⟨.leave, .child parent index (call name params)⟩])

def placedStopsAll (parent : Place) : (index : Nat) → List Form → List PlacedStop
  | _, [] => []
  | index, form :: rest =>
      form.placedStops parent index ++ placedStopsAll parent (index + 1) rest

end

end Form

/-- The stops below a place. -/
def Place.stopsBelow (place : Place) : List PlacedStop :=
  Form.placedStopsAll place 0 place.item.children

def Program.placedTour (p : Program) : List PlacedStop :=
  ⟨.enter, .program p⟩ :: (Place.stopsBelow (.program p) ++ [⟨.leave, .program p⟩])

namespace Bucket

mutual

/-- The bucket holds what it should of the tour: the stops of its scope in their order, and one
bucket for each of the chosen nodes among them, in their order and each of them as it should be. -/
inductive Records (opens : Item → Bool) (tour : List PlacedStop) :
    Option Place → Bucket → Prop where
  | intro {scope : Option Place} {bucket : Bucket} :
      bucket.log.toList = (PlacedStop.inScope opens scope tour).map PlacedStop.stop →
      RecordsAll opens tour (PlacedStop.openers opens (PlacedStop.inScope opens scope tour))
        bucket.opened.toList →
      Records opens tour scope bucket

inductive RecordsAll (opens : Item → Bool) (tour : List PlacedStop) :
    List Place → List Bucket → Prop where
  | nil : RecordsAll opens tour [] []
  | cons {place : Place} {places : List Place} {bucket : Bucket} {buckets : List Bucket} :
      Records opens tour (some place) bucket → RecordsAll opens tour places buckets →
      RecordsAll opens tour (place :: places) (bucket :: buckets)

end

mutual

/-- How many stops are logged in a bucket and in the buckets inside it. -/
def size : Bucket → Nat
  | ⟨log, opened⟩ => log.size + sizeArray opened

def sizeArray : Array Bucket → Nat
  | ⟨buckets⟩ => sizeAll buckets

def sizeAll : List Bucket → Nat
  | [] => 0
  | bucket :: rest => bucket.size + sizeAll rest

end

end Bucket

end CallForms
