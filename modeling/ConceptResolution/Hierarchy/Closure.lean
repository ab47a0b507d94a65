import ConceptResolution.Declaration.Registry
import ConceptResolution.Roster
import ConceptResolution.Ty.Fingerprint
import ConceptResolution.Unification

/-!
The concept hierarchy: superconcepts reached in any number of steps. There may be infinitely many of
them (a concept `Grow['a]` below `Grow[list['a]]`); the search for them has no end then.
-/

namespace ConceptResolution

/-- What a search for witnesses consults. -/
structure ConceptModel where
  concept? : String → Option Concept
  instance? : String → Option Instance
  instances : List Instance
  /-- The concepts a type declares to satisfy, without their superconcepts. -/
  declared : Ty → List Ty

/-- Superconcepts found so far, and the concepts whose own superconcepts are still to be looked up,
the next one first. -/
structure SuperSearch where
  found : Roster Ty
  pending : List Ty

namespace ConceptModel

variable (M : ConceptModel)

def conceptOf? (applied : Ty) : Option Concept :=
  applied.head?.bind M.concept?

def instanceOf? (applied : Ty) : Option Instance :=
  applied.head?.bind M.instance?

/-- The superconcepts that the declaration of a concept names, at an application of it. -/
def supers (concept : Ty) : List Ty :=
  match M.conceptOf? concept with
  | some c => c.supersAt concept
  | none => []

end ConceptModel

namespace SuperSearch

/-- Take note of a superconcept unless it is known. -/
def visit (root : Ty) (s : SuperSearch) (concept : Ty) : SuperSearch :=
  if h : concept = root ∨ concept ∈ s.found then s
  else ⟨s.found.insertNew concept fun hmem => h (.inr hmem), concept :: s.pending⟩

/-- Look up the superconcepts of the next pending concept. -/
def step (M : ConceptModel) (root : Ty) (s : SuperSearch) : SuperSearch :=
  match s.pending with
  | [] => s
  | concept :: rest => (M.supers concept).foldl (visit root) ⟨s.found, rest⟩

def run (M : ConceptModel) (root : Ty) : Nat → SuperSearch → SuperSearch
  | 0, s => s
  | n + 1, s => if s.pending.isEmpty then s else run M root n (s.step M root)

theorem run_succ (M : ConceptModel) (root : Ty) (n : Nat) (s : SuperSearch) :
    run M root (n + 1) s = (run M root n s).step M root := by
  induction n generalizing s with
  | zero =>
      rw [run, run, run]
      split
      · next hend => rw [step, List.isEmpty_iff.1 hend]
      · rfl
  | succ n ih =>
      rw [run, ih, run]
      split
      · next hend => rw [step, List.isEmpty_iff.1 hend]
      · rfl

/-- What a search comes to after some number of visits. -/
def Stage (M : ConceptModel) (root : Ty) (s : SuperSearch) : Type :=
  { t : SuperSearch // ∃ n, run M root n s = t }

def advance {M : ConceptModel} {root : Ty} {s : SuperSearch} (t : Stage M root s) :
    Id (Stage M root s ⊕ Option { t : Stage M root s // t.1.pending = [] }) :=
  match h : t.1.pending with
  | [] => .inr (some ⟨t, h⟩)
  | _ :: _ => .inl ⟨t.1.step M root, t.2.elim fun n hn => ⟨n + 1, hn ▸ run_succ M root n s⟩⟩

/-- Visit concepts until none is pending.

Of a loop that never ends no more is known than the type of its result, so the type says what a
result has to be. The first visits are counted: unlike the loop, they can be computed in a proof. -/
def finish (M : ConceptModel) (root : Ty) (s : SuperSearch) : Option SuperSearch :=
  let started : Stage M root s := ⟨run M root 4096 s, 4096, rfl⟩
  if started.1.pending.isEmpty then some started.1
  else (repeatM advance started).run.map fun t => t.1.1

end SuperSearch

namespace ConceptModel

variable (M : ConceptModel)

/-- The search for superconcepts after so many visits. -/
def superSearch (visits : Nat) (concept : Ty) : SuperSearch :=
  SuperSearch.run M concept visits ⟨.empty, [concept]⟩

/-- The superconcepts of a concept in any number of steps, itself excluded, in the order of the
search. -/
def superClosure (concept : Ty) : List Ty :=
  match SuperSearch.finish M concept ⟨.empty, [concept]⟩ with
  | some s => s.found.toList
  | none => []

/-- Concepts with all their superconcepts, each once, in order of first occurrence. -/
def expand (concepts : List Ty) : List Ty :=
  (Roster.ofList (concepts.flatMap fun c => c :: M.superClosure c)).toList

/-- Whether satisfying one concept already satisfies the other. -/
def implies (sub sup : Ty) : Bool :=
  (M.superClosure sub).contains sup

end ConceptModel

/-- The concepts that the patterns matching a type declare for it. The variables of the type itself
stand still in the match. -/
def Registry.declared (r : Registry) (t : Ty) : List Ty :=
  r.typeConcepts.filterMap fun entry =>
    match unify t.vars entry.1 t .empty with
    | .ok s => some (s.apply entry.2)
    | .error _ => none

def Registry.model (r : Registry) : ConceptModel where
  concept? := (indexByName Concept.name r.concepts).find?
  instance? := (indexByName Instance.name r.instances).find?
  instances := r.instances
  declared := r.declared

theorem Registry.model_concept? (r : Registry) : r.model.concept? = r.concept? :=
  funext (find?_indexByName Concept.name r.concepts)

theorem Registry.model_instance? (r : Registry) : r.model.instance? = r.instance? :=
  funext (find?_indexByName Instance.name r.instances)

end ConceptResolution
