import ConceptResolution.Search.Diagnostic
import ConceptResolution.Syntax.Error

namespace ConceptResolution

structure SourceLine where
  file : String
  /-- Counted from zero. -/
  index : Nat
  text : String

inductive FaultKind where
  | syntactic
  | resolution
  | io

def FaultKind.text : FaultKind → String
  | .syntactic => "parse error"
  | .resolution => "resolution error"
  | .io => "i/o error"

inductive Fault where
  | malformed (e : SyntaxError) (source : SourceLine)
  /-- There may be no diagnostics at all. -/
  | unresolved (diagnostics : List Diagnostic) (source : SourceLine)
  | argumentCount (expected found : Nat) (source : SourceLine)
  | noMethod (witness : Ty) (method : String) (concept : Ty) (source : SourceLine)
  | failedQueries (n : Nat)
  | unreadable (reason : String)

namespace Fault

def diagnosticsText (diagnostics : List Diagnostic) : String :=
  if diagnostics.isEmpty then "could not infer the witness arguments"
  else "\n".intercalate (diagnostics.map Diagnostic.message)

def headline (kind : FaultKind) (message : String) (source : Option SourceLine) : String :=
  let place := match source with
    | some s => " (" ++ s.file ++ ":" ++ toString (s.index + 1) ++ ")"
    | none => ""
  kind.text ++ ": " ++ message ++ place

def kind : Fault → FaultKind
  | malformed _ _ => .syntactic
  | unresolved _ _ | argumentCount _ _ _ | noMethod _ _ _ _ | failedQueries _ => .resolution
  | unreadable _ => .io

def message : Fault → String
  | malformed e _ => e.message
  | unresolved diagnostics _ => diagnosticsText diagnostics
  | argumentCount expected found _ =>
    "expected " ++ toString expected ++ " ordinary argument(s), found " ++ toString found
  | noMethod witness method concept _ =>
    "`" ++ witness.text ++ "` has no method `" ++ method ++ "` for `" ++ concept.text ++ "`"
  | failedQueries n => toString n ++ " quer(ies) failed"
  | unreadable reason => reason

def source? : Fault → Option SourceLine
  | malformed _ s | unresolved _ s | argumentCount _ _ s | noMethod _ _ _ s => some s
  | failedQueries _ | unreadable _ => none

def text (f : Fault) : String :=
  headline f.kind f.message f.source?

end Fault

end ConceptResolution
