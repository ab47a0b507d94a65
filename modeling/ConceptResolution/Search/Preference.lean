import ConceptResolution.Search.Matching

namespace ConceptResolution

/-- Nowhere less, and more somewhere. -/
def dominates (pairs : List (Nat × Nat)) : Bool :=
  (pairs.all fun p => p.2 ≤ p.1) && (pairs.any fun p => p.2 < p.1)

namespace Site

variable (site : Site)

def mayDisplace (you me : Viable) : Bool :=
  you.candidate.source.overlap.overlapping || me.candidate.source.overlap.overlappable

def providedAt (v : Viable) : List Ty :=
  v.subst.applyAll (site.model.expand v.candidate.provides)

def moreCapable (you me : Viable) : Bool :=
  let yours := site.providedAt you
  let mine := site.providedAt me
  mine.all yours.contains && !yours.all mine.contains

/-- Pairs of arguments in the same place of concepts that both candidates declare, with the same
head and number of parts. -/
def sharedArgs (you me : Instantiated) : List (Ty × Ty) :=
  let mine := site.model.expand me.provides
  (site.model.expand you.provides).flatMap fun y =>
    mine.flatMap fun m =>
      if y.head? = m.head? ∧ y.arity = m.arity then y.args.zip m.args else []

def moreSpecific (you me : Viable) : Bool :=
  dominates ((site.sharedArgs you.candidate me.candidate).map fun p =>
    (p.1.specificity, p.2.specificity))

/-- How many witness parameters of a candidate constrain the type parameter given as an argument. -/
def mentions (i : Instantiated) (arg : Ty) : Nat :=
  match arg with
  | .var v =>
    if i.params.any fun p => p.var == v then
      i.params.countP fun p => p.isWitness && (site.model.expand p.constraints).any (Ty.mentions v)
    else 0
  | _ => 0

/-- Has more witnesses for the types it is declared at. -/
def mentionsMore (you me : Viable) : Bool :=
  dominates ((site.sharedArgs you.candidate me.candidate).map fun p =>
    (site.mentions you.candidate p.1, site.mentions me.candidate p.2))

def displaces (you me : Viable) : Bool :=
  mayDisplace you me &&
    (site.moreCapable you me || site.moreSpecific you me ||
      (site.options.preferMentions && site.mentionsMore you me))

/-- The candidates that no other one displaces, or all of them where each is displaced. -/
def preferred (candidates : List Viable) : List Viable :=
  let numbered := candidates.zipIdx
  let displaced (me : Viable × Nat) :=
    numbered.any fun you => you.2 != me.2 && site.displaces you.1 me.1
  let kept := numbered.filter fun me => !displaced me
  if kept.isEmpty then candidates else kept.map Prod.fst

end Site

end ConceptResolution
