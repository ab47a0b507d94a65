import ConceptResolution.Document.Basic
import ConceptResolution.Proofs.Arity
import Mathlib.Data.Set.Finite.Lattice
import Mathlib.Data.Set.Finite.List

namespace ConceptResolution

/-- Whether no argument nests a variable in another type. -/
def Ty.isFlat (t : Ty) : Bool :=
  t.args.all fun u => u.var?.isSome || u.vars.isEmpty

mutual

/-- A type, its arguments, the arguments of these, and so on. -/
def Ty.nested : Ty → List Ty
  | .app head ts => .app head ts :: nestedAll ts
  | t => [t]

def Ty.nestedAll : List Ty → List Ty
  | [] => []
  | t :: ts => t.nested ++ nestedAll ts

end

theorem Ty.mem_nestedAll_iff {ts : List Ty} {u : Ty} :
    u ∈ nestedAll ts ↔ ∃ t ∈ ts, u ∈ t.nested := by
  induction ts with
  | nil => simp [nestedAll]
  | cons t ts ih => simp [nestedAll, ih]

theorem Ty.mem_nested_self (t : Ty) : t ∈ t.nested := by
  cases t <;> simp [nested]

theorem Ty.mem_nested_of_mem_args {t u v : Ty} (hu : u ∈ t.nested) (hv : v ∈ u.args) :
    v ∈ t.nested := by
  induction t with
  | app head ts ih =>
      rw [nested, List.mem_cons, mem_nestedAll_iff] at hu ⊢
      rcases hu with rfl | ⟨t, ht, hu⟩
      · exact .inr ⟨v, hv, v.mem_nested_self⟩
      · exact .inr ⟨t, ht, ih t ht hu⟩
  | _ =>
      cases List.mem_singleton.1 hu
      cases hv

namespace Registry

variable {r : Registry} {level : String → Nat}

/-- Superconcepts lie on lower levels, or flat on the same one. -/
def Levelled (r : Registry) (level : String → Nat) : Prop :=
  ∀ c ∈ r.concepts, ∀ s ∈ c.supers, ∃ name ∈ s.head?,
    level name < level c.name ∨ level name = level c.name ∧ s.isFlat = true

instance (r : Registry) (level : String → Nat) : Decidable (r.Levelled level) := by
  unfold Levelled
  infer_instance

def writtenSupers (r : Registry) : List Ty :=
  r.concepts.flatMap Concept.supers

/-- Applications like those that are written, but to arguments among some types. -/
def Spread (r : Registry) (ts : List Ty) (d : Ty) : Prop :=
  ∃ s ∈ r.writtenSupers, ∃ name, s.head? = some name ∧ d.head? = some name ∧
    d.args.length = s.args.length ∧ ∀ t ∈ d.args, t ∈ ts

private theorem finite_applications (name : String) (n : Nat) (ts : List Ty) :
    {d : Ty | d.head? = some name ∧ d.args.length = n ∧ ∀ t ∈ d.args, t ∈ ts}.Finite := by
  have hlists := (List.finite_length_eq { t // t ∈ ts } n).image fun us => us.map Subtype.val
  refine ((hlists.image (Ty.app name)).insert (.const name)).subset ?_
  rintro d ⟨hhead, hlength, hargs⟩
  cases d with
  | const _ =>
      cases hhead
      exact .inl rfl
  | app _ us =>
      cases hhead
      refine .inr ⟨us, ⟨us.attachWith (· ∈ ts) hargs, ?_, ?_⟩, rfl⟩
      · exact List.length_attachWith.trans hlength
      · exact List.attachWith_map_subtype_val hargs
  | _ => cases hhead

theorem finite_spread (r : Registry) (ts : List Ty) : {d | r.Spread ts d}.Finite := by
  have hall := r.writtenSupers.finite_toSet.biUnion fun s _ =>
    (s.head?.toList.finite_toSet).biUnion fun name _ =>
      finite_applications name s.args.length ts
  refine hall.subset fun d ⟨s, hs, name, hname, hd⟩ => ?_
  exact Set.mem_biUnion hs (Set.mem_biUnion (by simpa using hname) hd)

theorem lookup_ofList_zip (v : TyVar) (vs : List TyVar) (ts : List Ty) :
    (Subst.ofList (vs.zip ts)).lookup v = .var v ∨ (Subst.ofList (vs.zip ts)).lookup v ∈ ts := by
  cases hget : (Subst.ofList (vs.zip ts)).get? v with
  | none => exact .inl (Subst.lookup_of_notMem (Subst.get?_eq_none_iff.1 hget))
  | some t =>
      rw [Subst.lookup_of_get? hget]
      exact .inr (List.of_mem_zip (Subst.mem_of_get?_ofList hget)).2

theorem apply_eq_or_mem_of_isFlat {s : Ty} (hs : s.isFlat = true) {u : Ty} (hu : u ∈ s.args)
    (vs : List TyVar) (ts : List Ty) :
    (Subst.ofList (vs.zip ts)).apply u = u ∨ (Subst.ofList (vs.zip ts)).apply u ∈ ts := by
  have hu := List.all_eq_true.1 hs u hu
  rw [Bool.or_eq_true] at hu
  rcases hu with hvar | hclosed
  · cases u with
    | var v =>
        rw [Subst.apply_var]
        exact lookup_ofList_zip v vs ts
    | _ => cases hvar
  · rw [List.isEmpty_iff] at hclosed
    exact .inl (Ty.subst_eq_self_iff.2 (by simp [hclosed]))

theorem spread_apply_of_isFlat {s : Ty} {name : String} {ts us : List Ty}
    (hwritten : s ∈ r.writtenSupers) (hname : s.head? = some name) (hflat : s.isFlat = true)
    (hs : ∀ t ∈ s.args, t ∈ ts) (vs : List TyVar) (hus : ∀ t ∈ us, t ∈ ts) :
    r.Spread ts ((Subst.ofList (vs.zip us)).apply s) := by
  obtain ⟨hhead, hargs⟩ := Ty.head?_subst (Subst.ofList (vs.zip us)).lookup hname
  refine ⟨s, hwritten, name, hname, hhead, ?_, fun t ht => ?_⟩
  · rw [Subst.apply, hargs, List.length_map]
  · rw [Subst.apply, hargs] at ht
    obtain ⟨u, hu, rfl⟩ := List.mem_map.1 ht
    rcases apply_eq_or_mem_of_isFlat hflat hu vs us with hsame | hmem
    · exact (congrArg (· ∈ ts) hsame).mpr (hs u hu)
    · exact hus _ hmem

/-- Whether every superconcept is a bare parameter or nests none in its arguments. -/
def Flat (r : Registry) : Prop :=
  ∀ s ∈ r.writtenSupers, s.var?.isSome = true ∨ s.head?.isSome = true ∧ s.isFlat = true

instance (r : Registry) : Decidable r.Flat := by
  unfold Flat
  infer_instance

/-- What lies above a concept of a flat hierarchy stands in the concept already or in a written
superconcept, or it spreads what stands there. -/
theorem Flat.mem_or_spread (h : r.Flat) {c d : Ty} (hd : r.model.Reaches c d) :
    d ∈ Ty.nestedAll (c :: r.writtenSupers) ∨
      r.Spread (Ty.nestedAll (c :: r.writtenSupers)) d := by
  have hself : ∀ t ∈ c :: r.writtenSupers, t ∈ Ty.nestedAll (c :: r.writtenSupers) :=
    fun t ht => Ty.mem_nestedAll_iff.2 ⟨t, ht, t.mem_nested_self⟩
  have hargs : ∀ t ∈ Ty.nestedAll (c :: r.writtenSupers), ∀ u ∈ t.args,
      u ∈ Ty.nestedAll (c :: r.writtenSupers) := by
    intro t ht u hu
    obtain ⟨top, htop, ht⟩ := Ty.mem_nestedAll_iff.1 ht
    exact Ty.mem_nestedAll_iff.2 ⟨top, htop, Ty.mem_nested_of_mem_args ht hu⟩
  generalize Ty.nestedAll (c :: r.writtenSupers) = ts at hself hargs ⊢
  induction hd with
  | refl => exact .inl (hself c List.mem_cons_self)
  | @tail d e _ hstep ih =>
      have hd : ∀ t ∈ d.args, t ∈ ts :=
        ih.elim (hargs d) fun ⟨_, _, _, _, _, _, hmem⟩ => hmem
      obtain ⟨decl, hdecl, s, hs, rfl⟩ := ConceptModel.exists_of_mem_supers hstep
      have hwritten : s ∈ r.writtenSupers :=
        List.mem_flatMap.2 ⟨decl, (mem_of_conceptOf? hdecl).1, hs⟩
      have hs : s ∈ ts := hself s (List.mem_cons_of_mem c hwritten)
      rcases h s hwritten with hvar | ⟨hhead, hflat⟩
      · cases s with
        | var v =>
            rw [Subst.apply_var]
            rcases lookup_ofList_zip v decl.params d.args with hsame | hmem
            · exact .inl (hsame ▸ hs)
            · exact .inl (hd _ hmem)
        | _ => cases hvar
      · obtain ⟨name, hname⟩ := Option.isSome_iff_exists.1 hhead
        exact .inr (spread_apply_of_isFlat hwritten hname hflat (hargs s hs) decl.params hd)

theorem Flat.finitary (h : r.Flat) : r.model.Finitary := fun _ =>
  ((List.finite_toSet _).union (r.finite_spread _)).subset fun _ hd => h.mem_or_spread hd

/-- The superconcepts of `Both` may be any types, with superconcepts of their own. -/
example : ConceptModel.Finitary <| Registry.model
    ⟨[⟨"Both", [⟨"'a"⟩, ⟨"'b"⟩], [.var ⟨"'a"⟩, .var ⟨"'b"⟩], [], []⟩], [], []⟩ :=
  Flat.finitary (by decide)

def levelOf (level : String → Nat) (t : Ty) : Nat :=
  (t.head?.map level).getD 0

theorem Levelled.of_mem_supers (h : r.Levelled level) {ts : List Ty}
    (hts : ∀ s ∈ r.writtenSupers, ∀ t ∈ s.args, t ∈ ts) {c d : Ty} (hc : ∀ t ∈ c.args, t ∈ ts)
    (hd : d ∈ r.model.supers c) :
    levelOf level d < levelOf level c ∨ levelOf level d = levelOf level c ∧ r.Spread ts d := by
  obtain ⟨decl, hdecl, s, hs, rfl⟩ := ConceptModel.exists_of_mem_supers hd
  obtain ⟨hmem, hcname⟩ := mem_of_conceptOf? hdecl
  obtain ⟨name, hname, hlevel⟩ := h decl hmem s hs
  have hwritten : s ∈ r.writtenSupers := List.mem_flatMap.2 ⟨decl, hmem, hs⟩
  obtain ⟨hhead, -⟩ := Ty.head?_subst (Subst.ofList (decl.params.zip c.args)).lookup hname
  have hname' : levelOf level (s.subst (Subst.ofList (decl.params.zip c.args)).lookup) =
      level name := by
    rw [levelOf, hhead, Option.map_some, Option.getD_some]
  rw [Subst.apply, hname', levelOf, hcname]
  refine hlevel.imp_right fun hflat => ⟨hflat.1, ?_⟩
  exact spread_apply_of_isFlat hwritten hname hflat.2 (hts s hwritten) decl.params hc

/-- What a concept may lead to on its own level: itself, and whatever spreads its arguments and the
written ones. -/
def Abreast (r : Registry) (level : String → Nat) (c d : Ty) : Prop :=
  levelOf level d = levelOf level c ∧
    (d = c ∨ r.Spread (c.args ++ r.writtenSupers.flatMap Ty.args) d)

theorem finite_abreast (r : Registry) (level : String → Nat) (c : Ty) :
    {d | r.Abreast level c d}.Finite :=
  ((r.finite_spread _).insert c).subset fun _ hd => hd.2

theorem Levelled.abreast_or_lt (h : r.Levelled level) {c d e : Ty} (hd : r.Abreast level c d)
    (he : e ∈ r.model.supers d) : r.Abreast level c e ∨ levelOf level e < levelOf level c := by
  obtain ⟨hlevel, hd⟩ := hd
  have hwritten : ∀ s ∈ r.writtenSupers, ∀ t ∈ s.args,
      t ∈ c.args ++ r.writtenSupers.flatMap Ty.args :=
    fun s hs t ht => List.mem_append_right _ (List.mem_flatMap.2 ⟨s, hs, ht⟩)
  have hargs : ∀ t ∈ d.args, t ∈ c.args ++ r.writtenSupers.flatMap Ty.args := by
    rcases hd with rfl | ⟨s, -, name, -, -, -, hargs⟩
    · exact fun t ht => List.mem_append_left _ ht
    · exact hargs
  rw [← hlevel]
  refine (h.of_mem_supers hwritten hargs he).symm.imp_left fun ⟨hsame, hspread⟩ => ?_
  exact ⟨hsame.trans hlevel, .inr hspread⟩

theorem Levelled.reaches_cases (h : r.Levelled level) {c f : Ty} (hf : r.model.Reaches c f) :
    r.Abreast level c f ∨ ∃ d, r.Abreast level c d ∧ ∃ e ∈ r.model.supers d,
      levelOf level e < levelOf level c ∧ r.model.Reaches e f := by
  -- on the path up, only the first step to a lower level matters
  induction hf with
  | refl => exact .inl ⟨rfl, .inl rfl⟩
  | @tail d e _ hstep ih =>
      rcases ih with hd | ⟨b, hb, a, ha, hlt, hreach⟩
      · exact (h.abreast_or_lt hd hstep).imp_right fun hlt => ⟨d, hd, e, hstep, hlt, .refl⟩
      · exact .inr ⟨b, hb, a, ha, hlt, hreach.tail hstep⟩

theorem Levelled.finite_reaches (h : r.Levelled level) (c : Ty) :
    {d | r.model.Reaches c d}.Finite := by
  induction hn : levelOf level c using Nat.strong_induction_on generalizing c with
  | h n ih =>
      -- finitely many concepts abreast have finitely many steps down, and these end by induction
      have hbelow : (⋃ d ∈ {d | r.Abreast level c d},
          ⋃ e ∈ {e | e ∈ r.model.supers d ∧ levelOf level e < n},
            {f | r.model.Reaches e f}).Finite := by
        refine (r.finite_abreast level c).biUnion fun d _ => Set.Finite.biUnion ?_ fun e he => ?_
        · exact (List.finite_toSet _).subset fun e he => he.1
        · exact ih _ he.2 e rfl
      refine ((r.finite_abreast level c).union hbelow).subset fun f hf => ?_
      refine (h.reaches_cases hf).imp_right fun ⟨d, hd, e, he, hlt, hreach⟩ => ?_
      exact Set.mem_biUnion hd (Set.mem_biUnion ⟨he, hn ▸ hlt⟩ hreach)

end Registry

open ConceptModel

/-- The search for superconcepts ends where there are finitely many, and so it does above every
concept of declarations that can be levelled. -/
theorem superSearch_ends (r : Registry) :
    (∀ c, r.model.Ends c ↔ {d | r.model.Reaches c d}.Finite) ∧
      ∀ level, r.Levelled level → ∀ c, r.model.Ends c :=
  ⟨fun _ => ends_iff_finite, fun _ h c => ends_iff_finite.2 (h.finite_reaches c)⟩

/-- Two concepts that imply one another with their arguments exchanged, and one that implies them
for a list of its parameter. -/
def Registry.cyclic : Registry where
  concepts :=
    [⟨"To", [⟨"'a"⟩, ⟨"'b"⟩], [.app "From" [.var ⟨"'b"⟩, .var ⟨"'a"⟩]], [], []⟩,
      ⟨"From", [⟨"'a"⟩, ⟨"'b"⟩],
        [.app "To" [.var ⟨"'b"⟩, .var ⟨"'a"⟩], .app "To" [.var ⟨"'a"⟩, .int]], [], []⟩,
      ⟨"Iter", [⟨"'t"⟩], [.app "From" [.var ⟨"'t"⟩, .list (.var ⟨"'t"⟩)]], [], []⟩]
  instances := []
  typeConcepts := []

def Registry.cyclicLevel (name : String) : Nat :=
  if name = "Iter" then 1 else 0

theorem superSearch_ends_cyclic :
    Registry.cyclic.Levelled Registry.cyclicLevel ∧
      Registry.cyclic.model.Ends (.app "Iter" [.int]) :=
  have hlevel : Registry.cyclic.Levelled Registry.cyclicLevel := by decide +kernel
  ⟨hlevel, (superSearch_ends Registry.cyclic).2 Registry.cyclicLevel hlevel (.app "Iter" [.int])⟩

theorem ConceptModel.reaches_iterate {M : ConceptModel} {name : String} {grow : Ty → Ty}
    (h : ∀ t, .app name [grow t] ∈ M.supers (.app name [t])) (t : Ty) (n : Nat) :
    M.Reaches (.app name [t]) (.app name [grow^[n] t]) := by
  induction n with
  | zero => exact .refl
  | succ n ih =>
      rw [Function.iterate_succ_apply']
      exact ih.tail (h _)

theorem Ty.height_iterate_list (t : Ty) (n : Nat) : (Ty.list^[n] t).height = t.height + n := by
  induction n with
  | zero => rfl
  | succ n ih =>
      rw [Function.iterate_succ_apply', ← Nat.add_assoc, ← ih]
      simp [Ty.list, Ty.height, Ty.heightAll]

/-- A concept of a file that implies itself for lists has no end of superconcepts. -/
theorem not_ends_of_growing :
    ∃ d, Document.read "" "concept Grow['a] : Grow[list['a]]" = .ok d ∧
      ¬d.registry.model.Ends (.app "Grow" [.int]) := by
  have hread : (Document.read "" "concept Grow['a] : Grow[list['a]]").toOption.any (fun d =>
      (d.registry.concept? "Grow").any fun c =>
        c.params == [⟨"'a"⟩] && c.supers == [.app "Grow" [.list (.var ⟨"'a"⟩)]]) := by
    decide +kernel
  cases h : Document.read "" "concept Grow['a] : Grow[list['a]]" with
  | error e => simp [h, Except.toOption] at hread
  | ok d =>
      refine ⟨d, rfl, fun hends => ?_⟩
      simp only [h, Except.toOption, Option.any_some, Option.any_eq_true, Bool.and_eq_true,
        beq_iff_eq] at hread
      obtain ⟨c, hc, hparams, hsupers⟩ := hread
      have hstep : ∀ t, .app "Grow" [.list t] ∈ d.registry.model.supers (.app "Grow" [t]) := by
        intro t
        have hfind : d.registry.model.conceptOf? (.app "Grow" [t]) = some c :=
          (congrFun d.registry.model_concept? "Grow").trans hc
        rw [supers, hfind]
        have hlookup : (Subst.ofList [(⟨"'a"⟩, t)]).lookup ⟨"'a"⟩ = t :=
          Subst.lookup_of_get? (by simp [Subst.get?_ofList])
        simp [Concept.supersAt, hparams, hsupers, Ty.args, Subst.applyAll, Subst.apply, Ty.subst,
          Ty.substAll_eq_map, Ty.list, hlookup]
      refine Set.infinite_of_injective_forall_mem (f := fun n => Ty.app "Grow" [Ty.list^[n] .int])
        (fun m n hmn => ?_) (fun n => reaches_iterate hstep .int n) (ends_iff_finite.1 hends)
      have hheight := congrArg Ty.height (List.head_eq_of_cons_eq (Ty.app.inj hmn).2)
      rw [Ty.height_iterate_list, Ty.height_iterate_list] at hheight
      exact Nat.add_left_cancel hheight

end ConceptResolution
