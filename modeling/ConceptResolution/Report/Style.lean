namespace ConceptResolution

inductive Style where
  | bold
  | boldRed
  | blue

namespace Style

def resetCode : List Char := "\x1b[0m".toList

def code : Style → List Char
  | bold => "\x1b[1m".toList
  | boldRed => "\x1b[1;31m".toList
  | blue => "\x1b[34m".toList

/-- Repeat the style's code after each reset, which would end the style early. -/
def renew (style : Style) : List Char → List Char
  | [] => []
  | c :: cs =>
    if resetCode.isPrefixOf (c :: cs) then
      resetCode ++ style.code ++ renew style (cs.drop (resetCode.length - 1))
    else c :: renew style cs
termination_by cs => cs.length
decreasing_by
  · simp only [List.length_drop, List.length_cons]
    omega
  · simp

/-- Text in a style, or plain where colors are off. -/
def paint (colors : Bool) (style : Style) (text : String) : String :=
  if colors then String.ofList (style.code ++ renew style text.toList ++ resetCode) else text

end Style

end ConceptResolution
