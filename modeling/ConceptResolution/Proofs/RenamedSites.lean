import ConceptResolution.Proofs.Renaming
import ConceptResolution.Proofs.Scoping
import ConceptResolution.Search.Preference
import Mathlib.Data.List.Find

namespace ConceptResolution

/-- A type without fresh variables. -/
def Ty.IsNamed (t : Ty) : Prop :=
  ∀ v ∈ t.vars, v.isFresh = false

theorem Ty.IsNamed.rename_eq_self {t : Ty} (h : t.IsNamed) (ρ : Renaming) : t.rename ρ.map = t :=
  Ty.rename_eq_self fun v hv => ρ.named v (h v hv)

theorem Ty.map_rename_eq_self (ρ : Renaming) {ts : List Ty} (h : ∀ t ∈ ts, t.IsNamed) :
    ts.map (Ty.rename ρ.map) = ts := by
  rw [List.map_congr_left fun t ht => (h t ht).rename_eq_self ρ, List.map_id']

theorem Subst.apply_ofList_zip_rename (ρ : Renaming) (vs : List TyVar) (ts : List Ty) {t : Ty}
    (ht : t.IsNamed) : (ofList (vs.zip (ts.map (Ty.rename ρ.map)))).apply t =
      ((ofList (vs.zip ts)).apply t).rename ρ.map :=
  apply_ofList_zip_map fun v hv => .inr (congrArg Ty.var (ρ.named v (ht v hv)))

/-- Declarations without fresh variables. What is declared for a type only depends on its shape. -/
structure ConceptModel.Named (M : ConceptModel) : Prop where
  supers : ∀ name c, M.concept? name = some c → ∀ s ∈ c.supers, s.IsNamed
  provides : ∀ name i, M.instance? name = some i → ∀ c ∈ i.provides, c.IsNamed
  declared : ∀ (ρ : Renaming) (t : Ty),
    M.declared (t.rename ρ.map) = (M.declared t).map (Ty.rename ρ.map)

section Hierarchy

variable {M : ConceptModel} (ρ : Renaming)

private structure SameSearch (s s' : SuperSearch) : Prop where
  found : s'.found.toList = s.found.toList.map (Ty.rename ρ.map)
  pending : s'.pending = s.pending.map (Ty.rename ρ.map)

private theorem SameSearch.mem_found_iff {s s' : SuperSearch} (h : SameSearch ρ s s') (c : Ty) :
    c.rename ρ.map ∈ s'.found ↔ c ∈ s.found := by
  rw [← Roster.mem_toList, ← Roster.mem_toList, h.found,
    List.mem_map_of_injective (Ty.rename_injective ρ.injective)]

private theorem SameSearch.visit {s s' : SuperSearch} (h : SameSearch ρ s s') (root c : Ty) :
    SameSearch ρ (s.visit root c) (s'.visit (root.rename ρ.map) (c.rename ρ.map)) := by
  have hiff : (c.rename ρ.map = root.rename ρ.map ∨ c.rename ρ.map ∈ s'.found) ↔
      (c = root ∨ c ∈ s.found) := by
    rw [(Ty.rename_injective ρ.injective).eq_iff, h.mem_found_iff]
  unfold SuperSearch.visit
  by_cases hc : c = root ∨ c ∈ s.found
  · rw [dif_pos hc, dif_pos (hiff.2 hc)]
    exact h
  · rw [dif_neg hc, dif_neg fun hc' => hc (hiff.1 hc')]
    refine ⟨?_, ?_⟩
    · simp only [Roster.toList_insertNew, h.found, List.map_append, List.map_singleton]
    · simp only [h.pending, List.map_cons]

private theorem SameSearch.visitAll {s s' : SuperSearch} (h : SameSearch ρ s s') (root : Ty)
    (cs : List Ty) : SameSearch ρ (cs.foldl (SuperSearch.visit root) s)
      ((cs.map (Ty.rename ρ.map)).foldl (SuperSearch.visit (root.rename ρ.map)) s') := by
  induction cs generalizing s s' with
  | nil => exact h
  | cons c cs ih => exact ih (h.visit ρ root c)

variable (hM : M.Named)
include hM

theorem ConceptModel.Named.supers_rename (c : Ty) :
    M.supers (c.rename ρ.map) = (M.supers c).map (Ty.rename ρ.map) := by
  have hdecl : M.conceptOf? (c.rename ρ.map) = M.conceptOf? c := by
    rw [ConceptModel.conceptOf?, Ty.head?_rename, ConceptModel.conceptOf?]
  rw [ConceptModel.supers, ConceptModel.supers, hdecl]
  cases hc : M.conceptOf? c with
  | none => rfl
  | some decl =>
      obtain ⟨name, -, hname⟩ := Option.bind_eq_some_iff.1 hc
      simp only [Concept.supersAt, Subst.applyAll, Ty.args_rename, List.map_map]
      exact List.map_congr_left fun s hs =>
        Subst.apply_ofList_zip_rename ρ _ _ (hM.supers name decl hname s hs)

private theorem SameSearch.step {s s' : SuperSearch} (h : SameSearch ρ s s') (root : Ty) :
    SameSearch ρ (s.step M root) (s'.step M (root.rename ρ.map)) := by
  have hpending := h.pending
  unfold SuperSearch.step
  cases hs : s.pending with
  | nil =>
      rw [hs] at hpending
      rw [hpending]
      exact h
  | cons c rest =>
      rw [hs] at hpending
      rw [hpending]
      simp only [List.map_cons]
      rw [hM.supers_rename]
      have hrest : SameSearch ρ ⟨s.found, rest⟩ ⟨s'.found, rest.map (Ty.rename ρ.map)⟩ :=
        ⟨h.found, rfl⟩
      exact hrest.visitAll ρ root (M.supers c)

private theorem SameSearch.run {s s' : SuperSearch} (h : SameSearch ρ s s') (root : Ty) (n : Nat) :
    SameSearch ρ (SuperSearch.run M root n s) (SuperSearch.run M (root.rename ρ.map) n s') := by
  induction n generalizing s s' with
  | zero => exact h
  | succ n ih =>
      have hempty : s'.pending.isEmpty = s.pending.isEmpty := by
        rw [h.pending, List.isEmpty_map]
      rw [SuperSearch.run, SuperSearch.run, hempty]
      split
      · exact h
      · exact ih (h.step ρ hM root)

theorem ConceptModel.Named.superClosure_rename (c : Ty) :
    M.superClosure (c.rename ρ.map) = (M.superClosure c).map (Ty.rename ρ.map) := by
  have hstart : SameSearch ρ ⟨.empty, [c]⟩ ⟨.empty, [c.rename ρ.map]⟩ := ⟨rfl, rfl⟩
  have hsame (visits : Nat) := hstart.run ρ hM c visits
  have hends (visits : Nat) : (M.superSearch visits (c.rename ρ.map)).pending = [] ↔
      (M.superSearch visits c).pending = [] := by
    rw [ConceptModel.superSearch, (hsame visits).pending, List.map_eq_nil_iff]
    rfl
  rcases Classical.em (M.Ends c) with ⟨visits, hend⟩ | hnot
  · rw [ConceptModel.superClosure_eq hend, ConceptModel.superClosure_eq ((hends visits).2 hend)]
    exact (hsame visits).found
  · have hnot' : ¬M.Ends (c.rename ρ.map) := fun h =>
      hnot (h.imp fun visits => (hends visits).1)
    rw [ConceptModel.superClosure_eq_nil hnot, ConceptModel.superClosure_eq_nil hnot', List.map_nil]

theorem ConceptModel.Named.expand_rename (cs : List Ty) :
    M.expand (cs.map (Ty.rename ρ.map)) = (M.expand cs).map (Ty.rename ρ.map) := by
  have hflat : (cs.map (Ty.rename ρ.map)).flatMap (fun c => c :: M.superClosure c) =
      (cs.flatMap fun c => c :: M.superClosure c).map (Ty.rename ρ.map) := by
    rw [List.flatMap_map, List.map_flatMap]
    refine List.flatMap_congr fun c _ => ?_
    rw [hM.superClosure_rename, List.map_cons]
  rw [ConceptModel.expand, ConceptModel.expand, Roster.toList_ofList, Roster.toList_ofList, hflat,
    eraseDups_map_of_injective (Ty.rename_injective ρ.injective)]

theorem ConceptModel.Named.implies_rename (c d : Ty) :
    M.implies (c.rename ρ.map) (d.rename ρ.map) = M.implies c d := by
  rw [ConceptModel.implies, hM.superClosure_rename,
    contains_map_of_injective (Ty.rename_injective ρ.injective), ConceptModel.implies]

theorem ConceptModel.Named.coverFrom_rename (before cs : List Ty) :
    M.coverFrom (before.map (Ty.rename ρ.map)) (cs.map (Ty.rename ρ.map)) =
      (M.coverFrom before cs).map (Ty.rename ρ.map) := by
  induction cs generalizing before with
  | nil => rfl
  | cons c cs ih =>
      have hbefore : before.map (Ty.rename ρ.map) ++ [c.rename ρ.map] =
          (before ++ [c]).map (Ty.rename ρ.map) := by
        rw [List.map_append, List.map_singleton]
      rw [List.map_cons, ConceptModel.coverFrom, ConceptModel.coverFrom, hbefore, ih]
      simp only [List.any_map, Function.comp_def, hM.implies_rename]
      split
      · rfl
      · rfl

end Hierarchy

/-- A place of use that mentions no fresh variable. -/
structure Site.Named (site : Site) : Prop where
  model : site.model.Named
  tidy : site.scope.Tidy
  declared : ∀ i, .declared i ∈ site.scope.evidence → (∀ c ∈ i.provides, c.IsNamed) ∧
    ∀ p ∈ i.params, ∀ c ∈ p.constraints, c.IsNamed
  given : ∀ p, .given p ∈ site.scope.evidence → p.var.isFresh = false ∧
    ∀ c ∈ p.constraints, c.IsNamed
  bound : ∀ v ∈ site.scope.bound, v.isFresh = false

namespace Site

variable {site : Site} (ρ : Renaming)

theorem Named.isFixed_rename (h : site.Named) (t? : Option Ty) :
    site.scope.isFixed (t?.map (Ty.rename ρ.map)) = site.scope.isFixed t? := by
  rcases t? with _ | _ | v | _
  · rfl
  · rfl
  · have hmem : ρ.map v ∈ site.scope.bound ↔ v ∈ site.scope.bound := by
      rw [← ρ.map_map_eq_self h.bound, List.mem_map_of_injective ρ.injective,
        ρ.map_map_eq_self h.bound]
    rw [Bool.eq_iff_iff]
    simpa [Scope.isFixed, Scope.isBound, Ty.rename, Ty.subst] using hmem
  all_goals rfl

theorem Named.conceptsOf_rename (h : site.Named) (t : Ty) :
    site.model.conceptsOf site.scope.givens (t.rename ρ.map) =
      (site.model.conceptsOf site.scope.givens t).map (Ty.rename ρ.map) := by
  have hother : ∀ t : Ty, (∀ v, t = .var v → False) → (∀ v, t.rename ρ.map = .var v → False) →
      site.model.conceptsOf site.scope.givens (t.rename ρ.map) =
        (site.model.conceptsOf site.scope.givens t).map (Ty.rename ρ.map) := by
    intro t ht ht'
    have hdecl : site.model.instanceOf? (t.rename ρ.map) = site.model.instanceOf? t := by
      rw [ConceptModel.instanceOf?, Ty.head?_rename, ConceptModel.instanceOf?]
    rw [ConceptModel.conceptsOf.eq_2 _ _ _ ht, ConceptModel.conceptsOf.eq_2 _ _ _ ht', hdecl]
    cases hi : site.model.instanceOf? t with
    | none => simp only [h.model.declared, h.model.expand_rename]
    | some i =>
        obtain ⟨name, -, hname⟩ := Option.bind_eq_some_iff.1 hi
        have hprovides : i.providesAt (t.rename ρ.map) =
            (i.providesAt t).map (Ty.rename ρ.map) := by
          simp only [Instance.providesAt, Subst.applyAll, Ty.args_rename, List.map_map]
          exact List.map_congr_left fun c hc =>
            Subst.apply_ofList_zip_rename ρ _ _ (h.model.provides name i hname c hc)
        simp only [hprovides, h.model.expand_rename]
  cases t with
  | var v =>
      have hfind : (site.scope.givens.find? fun p => p.var == ρ.map v) =
          site.scope.givens.find? fun p => p.var == v := by
        refine List.find?_congr fun p hp => ?_
        have hnamed := (h.given p ((h.tidy.mem_givens_iff p).1 hp)).1
        have hiff := ρ.map_eq_iff_of_named (v := v) hnamed
        rw [Bool.eq_iff_iff, beq_iff_eq, beq_iff_eq, eq_comm, hiff, eq_comm]
      simp only [Ty.rename, Ty.subst, ConceptModel.conceptsOf, hfind]
      cases hp : site.scope.givens.find? fun p => p.var == v with
      | none => rfl
      | some p =>
          have hmem := (h.tidy.mem_givens_iff p).1 (List.mem_of_find?_eq_some hp)
          have hself := Ty.map_rename_eq_self ρ (h.given p hmem).2
          have hexpand := h.model.expand_rename ρ p.constraints
          rw [hself] at hexpand
          exact hexpand
  | _ => exact hother _ (fun v hv => by cases hv) fun v hv => by cases hv

theorem Named.satisfies_rename (h : site.Named) (t c : Ty) :
    site.model.satisfies site.scope.givens (t.rename ρ.map) (c.rename ρ.map) =
      site.model.satisfies site.scope.givens t c := by
  rw [ConceptModel.satisfies, h.conceptsOf_rename,
    contains_map_of_injective (Ty.rename_injective ρ.injective), ConceptModel.satisfies]

end Site

def Instantiated.rename (ρ : Renaming) (i : Instantiated) : Instantiated :=
  ⟨i.source, i.params.map (Param.rename ρ.map), i.provides.map (Ty.rename ρ.map), i.ty.rename ρ.map,
    fun h => by rw [i.params_of_isGiven h, List.map_nil]⟩

def Viable.rename (ρ : Renaming) (v : Viable) : Viable :=
  ⟨v.candidate.rename ρ, v.ty.rename ρ.map, v.subst.rename ρ⟩

namespace Site

variable {site : Site} (ρ : Renaming)

theorem Named.meet_rename (h : site.Named) (provided : List Ty) (s : Subst) (c : Ty) :
    site.meet (provided.map (Ty.rename ρ.map)) (s.rename ρ) (c.rename ρ.map) =
      (site.meet provided s c).map (Subst.rename ρ) := by
  have hrigid := ρ.map_map_eq_self h.bound
  rw [meet, meet, List.findSome?_map, List.map_findSome?]
  refine congrArg (fun f => List.findSome? f provided) (funext fun p => ?_)
  have hunify := unify_rename ρ site.scope.bound p c s
  rwa [hrigid] at hunify

theorem Named.foldlM_meet_rename (h : site.Named) (provided required : List Ty) (s : Subst) :
    (required.map (Ty.rename ρ.map)).foldlM (site.meet (provided.map (Ty.rename ρ.map)))
      (s.rename ρ) = (required.foldlM (site.meet provided) s).map (Subst.rename ρ) := by
  induction required generalizing s with
  | nil => rfl
  | cons c required ih =>
      rw [List.map_cons, List.foldlM_cons, List.foldlM_cons, h.meet_rename]
      change Option.bind _ _ = Option.map _ (Option.bind _ _)
      rw [Option.bind_map, Option.map_bind]
      exact congrArg (Option.bind _) (funext ih)

theorem Named.meetAll_rename (h : site.Named) (required : List Ty) (i : Instantiated) :
    site.meetAll (required.map (Ty.rename ρ.map)) (i.rename ρ) =
      (site.meetAll required i).map (Subst.rename ρ) := by
  have hexpand := h.model.expand_rename ρ i.provides
  have hmeet := h.foldlM_meet_rename ρ (site.model.expand i.provides) required .empty
  rw [← hexpand] at hmeet
  exact hmeet

theorem Named.viable?_rename (h : site.Named) (required : List Ty) (i : Instantiated) :
    site.viable? (required.map (Ty.rename ρ.map)) (i.rename ρ) =
      (site.viable? required i).map (Viable.rename ρ) := by
  rw [viable?, viable?, h.meetAll_rename, Option.map_map, Option.map_map]
  refine congrArg (fun f => Option.map f _) (funext fun s => ?_)
  simp only [Function.comp_apply, Viable.rename]
  rw [← Subst.apply_rename]
  rfl

theorem Named.moreCapable_rename (h : site.Named) (you me : Viable) :
    site.moreCapable (you.rename ρ) (me.rename ρ) = site.moreCapable you me := by
  have hprovided : ∀ v : Viable, site.providedAt (v.rename ρ) =
      (site.providedAt v).map (Ty.rename ρ.map) := by
    intro v
    have hexpand := h.model.expand_rename ρ v.candidate.provides
    rw [providedAt, providedAt, ← Subst.applyAll_rename, ← hexpand]
    rfl
  have hall : ∀ cs ds : List Ty, (cs.map (Ty.rename ρ.map)).all
      (ds.map (Ty.rename ρ.map)).contains = cs.all ds.contains := by
    intro cs ds
    rw [List.all_map]
    refine congrArg (fun f => List.all cs f) (funext fun c => ?_)
    exact contains_map_of_injective (Ty.rename_injective ρ.injective) ds c
  simp only [moreCapable, hprovided, hall]

theorem Named.sharedArgs_rename (h : site.Named) (you me : Instantiated) :
    site.sharedArgs (you.rename ρ) (me.rename ρ) =
      (site.sharedArgs you me).map (Prod.map (Ty.rename ρ.map) (Ty.rename ρ.map)) := by
  have hexpand : ∀ i : Instantiated, site.model.expand (i.rename ρ).provides =
      (site.model.expand i.provides).map (Ty.rename ρ.map) :=
    fun i => h.model.expand_rename ρ i.provides
  rw [sharedArgs, sharedArgs, hexpand, hexpand]
  simp only [List.flatMap_map, List.map_flatMap, Ty.head?_rename, Ty.arity_rename, Ty.args_rename]
  refine List.flatMap_congr fun y _ => List.flatMap_congr fun m _ => ?_
  split
  · exact List.zip_map
  · rfl

theorem Named.mentions_rename (h : site.Named) (i : Instantiated) (t : Ty) :
    site.mentions (i.rename ρ) (t.rename ρ.map) = site.mentions i t := by
  cases t with
  | var v =>
      have hany : ((i.rename ρ).params.any fun p => p.var == ρ.map v) =
          i.params.any fun p => p.var == v := by
        rw [Instantiated.rename, List.any_map]
        refine congrArg (List.any _) (funext fun p => ?_)
        rw [Bool.eq_iff_iff]
        simp [Param.rename, ρ.injective.eq_iff]
      have hcount : ((i.rename ρ).params.countP fun p => p.isWitness &&
          (site.model.expand p.constraints).any (Ty.mentions (ρ.map v))) =
          i.params.countP fun p => p.isWitness &&
            (site.model.expand p.constraints).any (Ty.mentions v) := by
        rw [Instantiated.rename, List.countP_map]
        refine congrArg (fun f => List.countP f i.params) (funext fun p => ?_)
        have hexpand := h.model.expand_rename ρ p.constraints
        simp only [Function.comp_apply, Param.rename, hexpand, List.any_map, Function.comp_def,
          Ty.mentions_rename, Param.isWitness]
      simp only [Ty.rename, Ty.subst, mentions, hany, hcount]
  | _ => rfl

theorem Named.displaces_rename (h : site.Named) (you me : Viable) :
    site.displaces (you.rename ρ) (me.rename ρ) = site.displaces you me := by
  have hspecific : site.moreSpecific (you.rename ρ) (me.rename ρ) = site.moreSpecific you me := by
    simp only [moreSpecific, Viable.rename, h.sharedArgs_rename, List.map_map, Function.comp_def,
      Prod.map_fst, Prod.map_snd, Ty.specificity_rename]
  have hmentions : site.mentionsMore (you.rename ρ) (me.rename ρ) = site.mentionsMore you me := by
    simp only [mentionsMore, Viable.rename, h.sharedArgs_rename, List.map_map, Function.comp_def,
      Prod.map_fst, Prod.map_snd, h.mentions_rename]
  rw [displaces, displaces, h.moreCapable_rename, hspecific, hmentions]
  rfl

theorem Named.preferred_rename (h : site.Named) (vs : List Viable) :
    site.preferred (vs.map (Viable.rename ρ)) = (site.preferred vs).map (Viable.rename ρ) := by
  have hdisplaced : ∀ me : Viable × Nat, ((vs.map (Viable.rename ρ)).zipIdx.any fun you =>
      you.2 != me.2 && site.displaces you.1 (me.1.rename ρ)) =
      vs.zipIdx.any fun you => you.2 != me.2 && site.displaces you.1 me.1 := by
    intro me
    simp only [List.zipIdx_map, List.any_map, Function.comp_def, Prod.map_fst, Prod.map_snd, id_eq,
      h.displaces_rename]
  have hkept : ((vs.map (Viable.rename ρ)).zipIdx.filter fun me =>
      !(vs.map (Viable.rename ρ)).zipIdx.any fun you =>
        you.2 != me.2 && site.displaces you.1 me.1) =
      (vs.zipIdx.filter fun me => !vs.zipIdx.any fun you =>
        you.2 != me.2 && site.displaces you.1 me.1).map (Prod.map (Viable.rename ρ) id) := by
    conv_lhs => rw [List.zipIdx_map, List.filter_map]
    refine congrArg (List.map _) (List.filter_congr fun me _ => ?_)
    have hme := hdisplaced me
    rw [List.zipIdx_map] at hme
    exact congrArg not hme
  unfold preferred
  simp only [hkept, List.isEmpty_map]
  split
  · rfl
  · rw [List.map_map, List.map_map]
    rfl

end Site

end ConceptResolution
