import CallForms.Form.Record

/-!
The buckets that a recorder fills, said without a walk.

Nodes that open no bucket are contracted: what is recorded below them counts as recorded beside
them.
-/

namespace CallForms

/-- What part of a program leaves in the bucket it is recorded in. -/
structure Recording where
  log : List Stop := []
  opened : List Bucket := []

namespace Recording

def append (r s : Recording) : Recording :=
  ⟨r.log ++ s.log, r.opened ++ s.opened⟩

def toBucket (r : Recording) : Bucket :=
  ⟨r.log.toArray, r.opened.toArray⟩

/-- Adds the node itself to what its children leave. -/
def around (opens : Bool) (visit : Visit) (children : Recording) : Recording :=
  if opens then
    ⟨[⟨.enter, visit⟩, ⟨.leave, visit⟩], [children.toBucket]⟩
  else
    ⟨⟨.enter, visit⟩ :: (children.log ++ [⟨.leave, visit⟩]), children.opened⟩

end Recording

namespace Form

mutual

def recording (opens : Item → Bool) (parent : Item) : Form → Recording
  | number value =>
      .around (opens (.form (number value))) ⟨.form (number value), some parent⟩ {}
  | string value =>
      .around (opens (.form (string value))) ⟨.form (string value), some parent⟩ {}
  | call name params =>
      .around (opens (.form (call name params))) ⟨.form (call name params), some parent⟩
        (recordingAll opens (.form (call name params)) params)

def recordingAll (opens : Item → Bool) (parent : Item) : List Form → Recording
  | [] => {}
  | form :: rest => (form.recording opens parent).append (recordingAll opens parent rest)

end

end Form

def Program.recording (opens : Item → Bool) (p : Program) : Recording :=
  .around (opens (.program p)) p.visit (Form.recordingAll opens (.program p) p.body)

end CallForms
