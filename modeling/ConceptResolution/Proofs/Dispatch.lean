import ConceptResolution.Hierarchy.Dispatch
import ConceptResolution.Proofs.Covers

namespace ConceptResolution

namespace ConceptModel

variable (M : ConceptModel)

def Declares (concept : Ty) (method : String) : Prop :=
  ∃ decl, M.conceptOf? concept = some decl ∧ method ∈ decl.methods

def HasDefault (concept : Ty) (method : String) : Prop :=
  ∃ decl, M.conceptOf? concept = some decl ∧ method ∈ decl.defaults

def Implements (witness : Ty) (method : String) : Prop :=
  ∃ i, M.instanceOf? witness = some i ∧ method ∈ i.methods

structure FirstDefault (concepts : List Ty) (method : String) (owner : Ty) : Prop where
  hasDefault : M.HasDefault owner method
  first : ∃ earlier later, concepts = earlier ++ owner :: later ∧
    ∀ c ∈ earlier, ¬M.HasDefault c method

variable {M} {witness concept owner : Ty} {method : String}

theorem declaresMethod_iff :
    M.declaresMethod method concept = true ↔ M.Declares concept method := by
  simp [declaresMethod, Declares, Option.any_eq_true]

theorem declaresDefault_iff :
    M.declaresDefault method concept = true ↔ M.HasDefault concept method := by
  simp [declaresDefault, HasDefault, Option.any_eq_true]

theorem implementsMethod_iff :
    M.implementsMethod method witness = true ↔ M.Implements witness method := by
  simp [implementsMethod, Implements, Option.any_eq_true]

theorem firstDefault_of_find? {concepts : List Ty}
    (h : concepts.find? (M.declaresDefault method) = some owner) :
    M.FirstDefault concepts method owner := by
  obtain ⟨howner, earlier, later, hsplit, hearlier⟩ := List.find?_eq_some_iff_append.1 h
  refine ⟨declaresDefault_iff.1 howner, earlier, later, hsplit, fun c hc hdefault => ?_⟩
  have hnot := hearlier c hc
  rw [declaresDefault_iff.2 hdefault] at hnot
  cases hnot

theorem Implements.ne_var (h : M.Implements witness method) (v : TyVar) : witness ≠ .var v := by
  rintro rfl
  obtain ⟨i, hi, -⟩ := h
  cases hi

theorem dispatch?_var (v : TyVar) :
    M.dispatch? (.var v) concept method =
      if (concept :: M.superClosure concept).any (M.declaresMethod method) then
        some (.receiver v method)
      else none :=
  rfl

theorem dispatch?_of_ne_var (h : ∀ v, witness ≠ .var v) :
    M.dispatch? witness concept method =
      if M.implementsMethod method witness then some (.direct witness method)
      else ((concept :: M.superClosure concept).find? (M.declaresDefault method)).map
        fun owner => .default owner witness method := by
  cases witness with
  | var v => exact absurd rfl (h v)
  | _ => rfl

theorem Finitary.dispatch?_var_eq_none_iff (hM : M.Finitary) (v : TyVar) :
    M.dispatch? (.var v) concept method = none ↔
      ∀ c, M.Reaches concept c → ¬M.Declares c method := by
  rw [dispatch?_var]
  simp only [← hM.mem_closure_iff, ← declaresMethod_iff]
  split
  · next h =>
    obtain ⟨c, hc, hdeclares⟩ := List.any_eq_true.1 h
    exact ⟨nofun, fun hnone => absurd hdeclares (hnone c hc)⟩
  · next h =>
      exact ⟨fun _ c hc hdeclares => h (List.any_eq_true.2 ⟨c, hc, hdeclares⟩), fun _ => rfl⟩

theorem Finitary.dispatch?_eq_none_iff (hM : M.Finitary) (h : ∀ v, witness ≠ .var v) :
    M.dispatch? witness concept method = none ↔
      ¬M.Implements witness method ∧ ∀ c, M.Reaches concept c → ¬M.HasDefault c method := by
  rw [dispatch?_of_ne_var h]
  simp only [← hM.mem_closure_iff, ← declaresDefault_iff, ← implementsMethod_iff]
  split
  · next himplements => simp [himplements]
  · next himplements =>
    rw [Option.map_eq_none_iff, List.find?_eq_none]
    simp [himplements]

theorem dispatch?_of_implements (h : M.Implements witness method) :
    M.dispatch? witness concept method = some (.direct witness method) := by
  rw [dispatch?_of_ne_var h.ne_var, if_pos (implementsMethod_iff.2 h)]

theorem of_dispatch?_eq_default {w : Ty} {m : String}
    (h : M.dispatch? witness concept method = some (.default owner w m)) :
    w = witness ∧ m = method ∧ ¬M.Implements witness method ∧
      M.FirstDefault (concept :: M.superClosure concept) method owner := by
  have hne : ∀ v, witness ≠ .var v := by
    rintro v rfl
    rw [dispatch?_var] at h
    split at h <;> cases h
  rw [dispatch?_of_ne_var hne] at h
  split at h
  · cases h
  · next himplements =>
    obtain ⟨c, hc, hplan⟩ := Option.map_eq_some_iff.1 h
    cases hplan
    exact ⟨rfl, rfl, fun h => himplements (implementsMethod_iff.2 h), firstDefault_of_find? hc⟩

theorem FirstDefault.mem {concepts : List Ty} (h : M.FirstDefault concepts method owner) :
    owner ∈ concepts := by
  obtain ⟨earlier, later, rfl, -⟩ := h.first
  exact List.mem_append_right _ List.mem_cons_self

end ConceptModel

open ConceptModel

/-- There is no plan exactly where nothing supplies the method: for a parameter, none of the concept
and its superconcepts that declares it, and for any other witness no instance that implements it and
none of these concepts that has a default body. What an instance implements goes before every
default body, and a default body is the one of the first concept that has any, which is a concept
that the witness satisfies if it satisfies the concept of the call. -/
theorem dispatch_exact {M : ConceptModel} (hM : M.Finitary) (witness concept : Ty)
    (method : String) :
    (∀ v, witness = .var v →
      (M.dispatch? witness concept method = none ↔
        ∀ c, M.Reaches concept c → ¬M.Declares c method) ∧
      ∀ d, M.dispatch? witness concept method = some d → d = .receiver v method) ∧
      ((∀ v, witness ≠ .var v) →
        (M.dispatch? witness concept method = none ↔
          ¬M.Implements witness method ∧ ∀ c, M.Reaches concept c → ¬M.HasDefault c method)) ∧
      (M.Implements witness method →
        M.dispatch? witness concept method = some (.direct witness method)) ∧
      ∀ owner w m, M.dispatch? witness concept method = some (.default owner w m) →
        w = witness ∧ m = method ∧ ¬M.Implements witness method ∧
          (owner = concept ∨ M.implies concept owner = true) ∧
          M.FirstDefault (concept :: M.superClosure concept) method owner ∧
          ∀ givens, M.satisfies givens witness concept = true →
            M.satisfies givens witness owner = true := by
  refine ⟨?_, hM.dispatch?_eq_none_iff, dispatch?_of_implements, fun owner w m h => ?_⟩
  · rintro v rfl
    refine ⟨hM.dispatch?_var_eq_none_iff v, fun d hd => ?_⟩
    rw [dispatch?_var] at hd
    split at hd
    · exact (Option.some.inj hd).symm
    · cases hd
  · obtain ⟨hw, hm, himplements, hfirst⟩ := of_dispatch?_eq_default h
    refine ⟨hw, hm, himplements, ?_, hfirst, fun givens hsatisfies => ?_⟩
    · exact (List.mem_cons.1 hfirst.mem).imp_right List.contains_iff_mem.2
    · exact hM.satisfies_of_reaches hsatisfies (hM.mem_closure_iff.1 hfirst.mem)

def Registry.conversions : Registry where
  concepts :=
    [⟨"To", [⟨"'a"⟩, ⟨"'b"⟩], [.app "From" [.var ⟨"'b"⟩, .var ⟨"'a"⟩]], ["to"], []⟩,
      ⟨"From", [⟨"'a"⟩, ⟨"'b"⟩],
        [.app "To" [.var ⟨"'b"⟩, .var ⟨"'a"⟩], .app "Into" [.var ⟨"'a"⟩, .var ⟨"'b"⟩]],
        ["from", "back"], ["back"]⟩,
      ⟨"Into", [⟨"'a"⟩, ⟨"'b"⟩], [], ["back"], ["back"]⟩]
  instances := [⟨"IntText", [], [.app "To" [.int, .string]], .neither, ["to"]⟩]
  typeConcepts := []

theorem dispatch_exact_conversions :
    let M := Registry.conversions.model
    let witness : Ty := .const "IntText"
    let concept : Ty := .app "To" [.int, .string]
    let owner : Ty := .app "From" [.string, .int]
    M.Finitary ∧ M.dispatch? witness concept "to" = some (.direct witness "to") ∧
      M.dispatch? witness concept "back" = some (.default owner witness "back") ∧
      M.implies concept owner = true ∧
      M.FirstDefault (concept :: M.superClosure concept) "back" owner ∧
      M.satisfies [] witness owner = true ∧
      (¬M.Implements witness "from" ∧ ∀ c, M.Reaches concept c → ¬M.HasDefault c "from") ∧
      ∀ c, M.Reaches concept c → ¬M.Declares c "hash" := by
  intro M witness concept owner
  have hM : M.Finitary := Registry.Flat.finitary (by decide)
  have hne : ∀ v, witness ≠ .var v := nofun
  have hback : M.dispatch? witness concept "back" = some (.default owner witness "back") := by
    have hfind : (concept :: M.superClosure concept).find? (M.declaresDefault "back") =
        some owner := by
      decide +kernel
    have himplements : M.implementsMethod "back" witness = false := by decide +kernel
    rw [dispatch?_of_ne_var hne, himplements, hfind]
    rfl
  have hfrom : M.dispatch? witness concept "from" = none :=
    Option.isNone_iff_eq_none.1 (by decide +kernel)
  have hhash : M.dispatch? (.var ⟨"'w"⟩) concept "hash" = none :=
    Option.isNone_iff_eq_none.1 (by decide +kernel)
  obtain ⟨-, -, hdirect, -⟩ := dispatch_exact hM witness concept "to"
  obtain ⟨-, -, -, hdefault⟩ := dispatch_exact hM witness concept "back"
  obtain ⟨-, -, -, himplies, hfirst, hsatisfies⟩ := hdefault owner witness "back" hback
  obtain ⟨-, hinstance, -⟩ := dispatch_exact hM witness concept "from"
  obtain ⟨hparam, -⟩ := dispatch_exact hM (.var ⟨"'w"⟩) concept "hash"
  refine ⟨hM, hdirect ?_, hback, himplies.resolve_left (by decide), hfirst,
    hsatisfies [] (by decide +kernel), (hinstance hne).1 hfrom, (hparam _ rfl).1.1 hhash⟩
  exact implementsMethod_iff.1 (by decide +kernel)

end ConceptResolution
