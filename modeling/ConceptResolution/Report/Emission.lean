import ConceptResolution.Document.Fault
import ConceptResolution.Report.Style

namespace ConceptResolution

namespace Fault

def dropRepeats : List String → List String
  | [] => []
  | [l] => [l]
  | l :: m :: ls => if l = m then dropRepeats (m :: ls) else l :: dropRepeats (m :: ls)

private def blanks (n : Nat) : String :=
  String.ofList (List.replicate n ' ')

def messageBlock (indent : Nat) (message : String) : String :=
  match dropRepeats ((Text.lines message.toList).map String.ofList) with
  | [] => ""
  | l :: ls => "\n".intercalate (l :: ls.map fun m => blanks indent ++ m)

/-- The lines that show a source line and underline it, blanks at its ends apart. Widths are in
bytes. -/
def excerpt (colors : Bool) (source : SourceLine) : List String :=
  let number := toString (source.index + 1)
  let margin := blanks (number.length + 1)
  let bar := Style.bold.paint colors "|"
  let line := source.text.toList
  let body := Text.trimStart line
  let indent := blanks (Text.byteLength line - Text.byteLength body)
  let marks := String.ofList (List.replicate (max 1 (Text.byteLength (Text.trimEnd body))) '^')
  [ blanks number.length ++ Style.bold.paint colors "-->" ++ " " ++ source.file ++ ":" ++ number,
    margin ++ bar,
    Style.bold.paint colors number ++ " " ++ bar ++ " " ++ source.text,
    margin ++ bar ++ " " ++ indent ++ Style.boldRed.paint colors marks ]

def emission (colors : Bool) (f : Fault) : String :=
  let kind := f.kind.text ++ ":"
  let block := messageBlock (kind.length + 1) f.message
  let first := Style.boldRed.paint colors kind ++ " " ++ Style.bold.paint colors block
  let about := match f.source? with
    | some source => excerpt colors source
    | none => []
  String.join ((first :: about ++ [""]).map fun l => l ++ "\n")

end Fault

end ConceptResolution
