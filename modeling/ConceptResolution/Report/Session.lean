import ConceptResolution.Document.Answer
import ConceptResolution.Report.Emission

namespace ConceptResolution

inductive LogLevel where
  | off
  | error
  | warn
  | info
  | debug
  | trace
  deriving DecidableEq

namespace LogLevel

def ofText? : String → Option LogLevel
  | "off" => some off
  | "error" => some error
  | "warn" => some warn
  | "info" => some info
  | "debug" => some debug
  | "trace" => some trace
  | _ => none

def showsSummary : LogLevel → Bool
  | off | error | warn => false
  | info | debug | trace => true

end LogLevel

structure Settings where
  options : Options
  logLevel : LogLevel
  colors : Bool

/-- All that a run prints. What goes wrong with queries comes before the summary, and the verdict on
the run after it. -/
structure Transcript where
  answers : List String
  failures : List String
  summary : Option String
  verdict : Option String
  exitCode : Nat

namespace Transcript

def aborted (settings : Settings) (f : Fault) : Transcript :=
  ⟨[], [], none, some (f.emission settings.colors), 1⟩

def answerLine (q : Query) (answer : String) : String :=
  String.ofList (Text.trim q.source.text.toList) ++ " => " ++ answer

def summaryText (colors : Bool) (resolved total : Nat) : String :=
  let level := Style.blue.paint colors "info:"
  level ++ " Resolved " ++ toString resolved ++ " of " ++ toString total ++ " queries"

def ofDocument (settings : Settings) (d : Document) : Transcript :=
  let results := d.queries.map fun q => (q, d.answer settings.options q)
  let answers := results.filterMap fun r => r.2.toOption.map (answerLine r.1)
  let faults := results.filterMap fun r =>
    match r.2 with
    | .ok _ => none
    | .error f => some f
  { answers
    failures := faults.map (Fault.emission settings.colors)
    summary :=
      if settings.logLevel.showsSummary then
        some (summaryText settings.colors answers.length d.queries.length)
      else none
    verdict :=
      if faults.isEmpty then none
      else some ((Fault.failedQueries faults.length).emission settings.colors)
    exitCode := if faults.isEmpty then 0 else 1 }

def ofFile (settings : Settings) (file : String) (contents : Except String ByteArray) :
    Transcript :=
  match contents with
  | .error reason => aborted settings (.unreadable reason)
  | .ok bytes =>
    match String.fromUTF8? bytes with
    | none => aborted settings (.unreadable "stream did not contain valid UTF-8")
    | some text =>
      match Document.read file text with
      | .error f => aborted settings f
      | .ok d => ofDocument settings d

end Transcript

end ConceptResolution
