import ConceptResolution.Subst.Basic
import ConceptResolution.Ty.Print

namespace ConceptResolution

namespace Subst

private def bindingText (b : TyVar × Ty) : String :=
  b.1.name ++ ": " ++ b.2.text

/-- On one line: `{ 'a: bool, 'b: int }`. -/
def text (s : Subst) : String :=
  if s.bindings.isEmpty then "\x7b\x7d"
  else "\x7b " ++ ", ".intercalate (s.sorted.map bindingText) ++ " \x7d"

def blockText (s : Subst) : String :=
  if s.bindings.isEmpty then "\x7b\x7d"
  else "\x7b\n" ++ String.join (s.sorted.map fun b => "  " ++ bindingText b ++ "\n") ++ "\x7d"

end Subst

end ConceptResolution
