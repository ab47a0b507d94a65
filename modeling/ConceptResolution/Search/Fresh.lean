import ConceptResolution.Ty.Basic

namespace ConceptResolution

/-- The number of the next fresh variable. -/
structure VarSupply where
  next : Nat

namespace VarSupply

/-- What a fresh variable keeps of the name it stands for: quotes and question marks in front and
digits at the end are dropped, so that numbers do not pile up. -/
def stem (hint : TyVar) : List Char :=
  let name := hint.name.toList.dropWhile fun c => c == '\'' || c == '?'
  (name.reverse.dropWhile Char.isDigit).reverse

/-- A variable named after a hint: the third one for `'t` is `?t2`. -/
def mint (supply : VarSupply) (hint : TyVar) : TyVar × VarSupply :=
  (⟨String.ofList ('?' :: (stem hint ++ Nat.toDigits 10 supply.next))⟩, ⟨supply.next + 1⟩)

def mintAll (supply : VarSupply) : List TyVar → List TyVar × VarSupply
  | [] => ([], supply)
  | hint :: hints =>
    let (v, supply) := supply.mint hint
    let (vs, supply) := supply.mintAll hints
    (v :: vs, supply)

end VarSupply

end ConceptResolution
