import ConceptResolution.Index
import ConceptResolution.Ty.Basic

namespace ConceptResolution

open Fingerprint

instance : Fingerprint TyVar where
  fingerprint v := mixText 0 v.name

namespace Ty

mutual

def mixInto : Nat → Ty → Nat
  | h, .const name => mixText (mix h 1) name
  | h, .var v => mixText (mix h 2) v.name
  | h, .fn ps r => mixInto (mixAllInto (mix h 3) ps) r
  | h, .app head ts => mixAllInto (mixText (mix h 4) head) ts
  | h, .tuple ts => mixAllInto (mix h 5) ts

def mixAllInto : Nat → List Ty → Nat
  | h, [] => mix h 6
  | h, t :: ts => mixAllInto (mixInto h t) ts

end

end Ty

instance : Fingerprint Ty where
  fingerprint := Ty.mixInto 0

end ConceptResolution
