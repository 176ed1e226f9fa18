import MessageSchema.Bundle.Reader
import MessageSchema.Bundle.Printer
import MessageSchema.Bundle.Fingerprint

/-!
A session works on one bundle, command by command. It remembers the options of reading and the
text that was printed last; a command that fails leaves the bundle as it is.
-/
namespace MessageSchema

structure Session where
  bundle : Bundle := []
  options : ReadOptions := {}
  lastText : String := ""

namespace Session

inductive Command where
  | setDialect (name : String)
  | keepTypeNames (keep : Bool)
  | parse (text : String)
  | append (text : String)
  | reparse
  | settle
  | resolve
  | fingerprint
  | fingerprintOf (name : String)
  | print
  | summarize
  | push (d : Definition)
  | remove (position : Nat)
  | makeRoot (position : Nat)
  | rename (position : Nat) (name : Option String)
  | pushField (position : Nat) (f : Field)

inductive Answer where
  | options (options : ReadOptions)
  | bundle (b : Bundle)
  | settled (b : Bundle) (failure : Option SchemaError)
  | text (text : String)
  | summaries (summaries : List Definition.Summary)
  | failure (e : SchemaError)

def toFront (position : Nat) (b : Bundle) : Bundle :=
  match b[position]? with
  | some d => d :: b.eraseIdx position
  | none => b

def setOptions (options : ReadOptions) (s : Session) : Answer × Session :=
  (.options options, { s with options })

def setBundle (b : Bundle) (s : Session) : Answer × Session := (.bundle b, { s with bundle := b })

def tryBundle (attempt : Except SchemaError Bundle) (s : Session) : Answer × Session :=
  match attempt with
  | .ok b => s.setBundle b
  | .error e => (.failure e, s)

def tell (outcome : Except SchemaError String) (s : Session) : Answer × Session :=
  match outcome with
  | .ok text => (.text text, s)
  | .error e => (.failure e, s)

def step (s : Session) : Command → Answer × Session
  | .setDialect name => s.setOptions { s.options with dialect := .ofName name }
  | .keepTypeNames keep => s.setOptions { s.options with keepsTypeNames := keep }
  | .parse text => s.tryBundle (Bundle.parse s.options text)
  | .append text => s.tryBundle ((Bundle.parse s.options text).map (s.bundle ++ ·))
  | .reparse => s.tryBundle (Bundle.parse s.options s.lastText)
  | .settle =>
    let (b, failure) := s.bundle.settle
    (.settled b failure, { s with bundle := b })
  | .resolve => s.tryBundle s.bundle.resolve
  | .fingerprint => s.tell s.bundle.fingerprint
  | .fingerprintOf name => s.tell (s.bundle.fingerprintOf name)
  | .print => (.text s.bundle.print, { s with lastText := s.bundle.print })
  | .summarize => (.summaries (s.bundle.map Definition.summary), s)
  | .push d => s.setBundle (s.bundle ++ [d])
  | .remove position => s.setBundle (s.bundle.eraseIdx position)
  | .makeRoot position => s.setBundle (toFront position s.bundle)
  | .rename position name => s.setBundle (s.bundle.modify position fun d => { d with name })
  | .pushField position f =>
    s.setBundle (s.bundle.modify position fun d => { d with fields := d.fields ++ [f] })

def run (s : Session) : List Command → List Answer
  | [] => []
  | command :: commands =>
    let (answer, next) := s.step command
    answer :: next.run commands

end Session
end MessageSchema
