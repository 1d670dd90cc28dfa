import CallForms.Code.Lowering
import CallForms.Code.Rendering
import CallForms.Form.Reading

/-!
Compiling a text: scan, read, lower, render.

A compilation tells what happened on the way as a list of events. Each stage adds its events
before the next one starts, and a stage that fails keeps the events from before its failure.
-/

namespace CallForms

inductive CompileError where
  | lex (cause : LexError)
  | parse (cause : ParseError)
  | walk (cause : WalkError)
  | render (cause : RenderError)
  deriving DecidableEq, Repr

def CompileError.message : CompileError → String
  | lex cause => "lex error: " ++ cause.message
  | parse cause => "parse error: " ++ cause.message
  | walk cause => "traverse error: " ++ cause.message
  | render cause => "codegen error: " ++ cause.message

inductive Event where
  | token (t : Token)
  | scanned (tokens : Nat)
  /-- The reader accepted the name of a call. -/
  | callRead (name : String)
  | read (forms : Nat)
  | callLowered (call : LoweredCall)
  | lowered (statements : Nat)
  | rendered (bytes : Nat)
  deriving DecidableEq, Repr

inductive EventLevel where
  | debug
  | trace
  deriving DecidableEq, Repr

def EventLevel.label : EventLevel → String
  | debug => "DEBUG"
  | trace => "TRACE"

namespace Event

/-- The end of a stage is worth a `debug` event, a single step within it a `trace` event. -/
def level : Event → EventLevel
  | token _ | callRead _ | callLowered _ => .trace
  | scanned _ | read _ | lowered _ | rendered _ => .debug

def message : Event → String
  | token _ => "token"
  | scanned _ => "lexed"
  | callRead _ | callLowered _ => "call"
  | read _ => "parsed"
  | lowered _ => "transformed"
  | rendered _ => "generated"

end Event

inductive FieldValue where
  | text (value : String)
  | count (value : Nat)
  | flag (value : Bool)
  deriving DecidableEq, Repr

namespace Event

def fields : Event → List (String × FieldValue)
  | token t => [("kind", .text t.kind.label), ("value", .text t.value)]
  | scanned tokens => [("tokens", .count tokens)]
  | callRead name => [("name", .text name)]
  | read forms => [("forms", .count forms)]
  | callLowered call => [("name", .text call.name), ("top_level", .flag call.topLevel)]
  | lowered statements => [("statements", .count statements)]
  | rendered bytes => [("bytes", .count bytes)]

end Event

structure Compilation where
  events : List Event
  result : Except CompileError String

namespace Compilation

/-- Puts the events of an earlier stage in front. -/
def after (earlier : List Event) (c : Compilation) : Compilation :=
  { c with events := earlier ++ c.events }

def ofListing (config : Config) (listing : Listing) : Compilation :=
  after [.lowered listing.body.length]
    (match listing.render config.toLayout with
    | .error e => ⟨[], .error (.render e)⟩
    | .ok text => ⟨[.rendered text.utf8ByteSize], .ok text⟩)

def ofProgram (config : Config) (program : Program) : Compilation :=
  let lowering := program.lowering
  after (.read program.body.length :: lowering.calls.map .callLowered)
    (match lowering.result with
    | .error e => ⟨[], .error (.walk e)⟩
    | .ok listing => ofListing config listing)

def ofTokens (config : Config) (tokens : List Token) : Compilation :=
  let parse := Program.parse config.strictCallee tokens
  after (.scanned tokens.length :: parse.names.map .callRead)
    (match parse.result with
    | .error e => ⟨[], .error (.parse e)⟩
    | .ok program => ofProgram config program)

def ofText (config : Config) (text : String) : Compilation :=
  let scan := Scan.ofText text
  after (scan.tokens.map .token)
    (match scan.result with
    | .error e => ⟨[], .error (.lex e)⟩
    | .ok tokens => ofTokens config tokens)

/-- The events that a subscriber at this level receives. -/
def eventsAt (c : Compilation) : EventLevel → List Event
  | .trace => c.events
  | .debug => c.events.filter fun event => event.level = .debug

end Compilation

/-- The code that a text compiles to. -/
def compile (config : Config) (text : String) : Except CompileError String :=
  (Compilation.ofText config text).result

end CallForms
