import ConceptResolution.Proofs.Scoping

namespace ConceptResolution

section Named

variable {α : Type} {name : α → String}

theorem find?_putNamed (a : α) (as : List α) (n : String) :
    (putNamed name a as).find? (fun b => name b == n) =
      if name a = n then some a else as.find? fun b => name b == n := by
  induction as with
  | nil => by_cases ha : name a = n <;> simp [putNamed, ha]
  | cons b bs ih =>
      by_cases hb : name b = name a
      · by_cases ha : name a = n <;> simp [putNamed, hb, ha]
      · rw [putNamed, if_neg hb, List.find?_cons, List.find?_cons, ih]
        cases hn : name b == n with
        | true =>
            have ha : name a ≠ n := fun ha => hb ((beq_iff_eq.1 hn).trans ha.symm)
            exact (if_neg ha).symm
        | false => rfl

theorem map_putNamed (a : α) (as : List α) :
    (putNamed name a as).map name =
      if name a ∈ as.map name then as.map name else as.map name ++ [name a] := by
  induction as with
  | nil => simp [putNamed]
  | cons b bs ih =>
      by_cases hb : name b = name a
      · simp [putNamed, hb]
      · have hmem : name a ∈ (b :: bs).map name ↔ name a ∈ bs.map name := by
          simp [Ne.symm hb]
        rw [putNamed, if_neg hb, List.map_cons, ih]
        simp only [hmem]
        split <;> rfl

def putAll (name : α → String) (as : List α) : List α :=
  as.foldl (fun bs a => putNamed name a bs) []

theorem putAll_concat (as : List α) (a : α) :
    putAll name (as ++ [a]) = putNamed name a (putAll name as) := by
  rw [putAll, List.foldl_append]
  rfl

theorem find?_putAll (as : List α) (n : String) :
    (putAll name as).find? (fun b => name b == n) = (as.filter fun b => name b == n).getLast? := by
  induction as using List.reverseRecOn with
  | nil => rfl
  | append_singleton as a ih =>
      rw [putAll_concat, find?_putNamed, ih, List.filter_append]
      by_cases ha : name a = n <;> simp [ha]

theorem map_putAll (as : List α) : (putAll name as).map name = (as.map name).eraseDups := by
  induction as using List.reverseRecOn with
  | nil => rfl
  | append_singleton as a ih =>
      rw [putAll_concat, map_putNamed, ih, List.map_append, List.map_singleton,
        List.eraseDups_append, List.removeAll, List.filter_singleton, List.elem_eq_mem]
      cases ha : decide (name a ∈ as.map name) with
      | true =>
          rw [if_pos (List.mem_eraseDups.2 (of_decide_eq_true ha))]
          exact (List.append_nil _).symm
      | false =>
          rw [if_neg (mt List.mem_eraseDups.1 (of_decide_eq_false ha))]
          rfl

theorem nodup_map_putAll (as : List α) : ((putAll name as).map name).Nodup := by
  rw [map_putAll, ← Roster.toList_ofList]
  exact Roster.nodup_toList _

theorem find?_name_eq_some_iff {as : List α} (h : (as.map name).Nodup) {n : String} {a : α} :
    (as.find? fun b => name b == n) = some a ↔ a ∈ as ∧ name a = n := by
  constructor
  · intro ha
    exact ⟨List.mem_of_find?_eq_some ha, by simpa using List.find?_some ha⟩
  · rintro ⟨ha, rfl⟩
    have hsome : (as.find? fun b => name b == name a).isSome = true :=
      List.find?_isSome.2 ⟨a, ha, by simp⟩
    obtain ⟨b, hb⟩ := Option.isSome_iff_exists.1 hsome
    have hname : name b = name a := by simpa using List.find?_some hb
    rw [hb, List.inj_on_of_nodup_map h (List.mem_of_find?_eq_some hb) ha hname]

end Named

namespace Registry

inductive Entry where
  | concept (c : Concept)
  | decl (i : Instance)
  | typeConcept (pattern concept : Ty)

def Entry.concept? : Entry → Option Concept
  | concept c => some c
  | _ => none

def Entry.decl? : Entry → Option Instance
  | decl i => some i
  | _ => none

def register (r : Registry) : Entry → Registry
  | .concept c => r.addConcept c
  | .decl i => r.addInstance i
  | .typeConcept pattern concept => r.addTypeConcept pattern concept

def ofHistory (history : List Entry) : Registry :=
  history.foldl register empty

theorem ofHistory_concat (history : List Entry) (e : Entry) :
    ofHistory (history ++ [e]) = (ofHistory history).register e := by
  rw [ofHistory, List.foldl_append]
  rfl

theorem instances_ofHistory (history : List Entry) :
    (ofHistory history).instances = putAll Instance.name (history.filterMap Entry.decl?) := by
  induction history using List.reverseRecOn with
  | nil => rfl
  | append_singleton history e ih =>
      rw [ofHistory_concat, List.filterMap_append]
      cases e with
      | decl i => exact (congrArg (putNamed Instance.name i) ih).trans (putAll_concat _ i).symm
      | concept _ | typeConcept _ _ => exact (List.append_nil (List.filterMap _ _)).symm ▸ ih

theorem concepts_ofHistory (history : List Entry) :
    (ofHistory history).concepts = putAll Concept.name (history.filterMap Entry.concept?) := by
  induction history using List.reverseRecOn with
  | nil => rfl
  | append_singleton history e ih =>
      rw [ofHistory_concat, List.filterMap_append]
      cases e with
      | concept c => exact (congrArg (putNamed Concept.name c) ih).trans (putAll_concat _ c).symm
      | decl _ | typeConcept _ _ => exact (List.append_nil (List.filterMap _ _)).symm ▸ ih

end Registry

section EraseDups

variable {α β : Type}

theorem eraseDupsBy_map (f : α → β) (r : β → β → Bool) (as : List α) :
    (as.map f).eraseDupsBy r = (as.eraseDupsBy fun a b => r (f a) (f b)).map f := by
  induction h : as.length using Nat.strongRecOn generalizing as with
  | ind n ih =>
      cases as with
      | nil => rfl
      | cons a as =>
          have hlength : (as.filter fun b => decide (r (f b) (f a) = false)).length < n := by
            rw [← h, List.length_cons]
            exact Nat.lt_succ_of_le (List.length_filter_le _ as)
          rw [List.map_cons, List.eraseDupsBy_cons, List.eraseDupsBy_cons, List.map_cons,
            ← ih _ hlength _ rfl, List.filter_map]
          rfl

theorem eraseDupsBy_eq_self {r : α → α → Bool} {as : List α}
    (h : as.Pairwise fun a b => r b a = false) : as.eraseDupsBy r = as := by
  induction as with
  | nil => rfl
  | cons a as ih =>
      obtain ⟨ha, has⟩ := List.pairwise_cons.1 h
      rw [List.eraseDupsBy_cons, List.filter_eq_self.2 fun b hb => decide_eq_true (ha b hb), ih has]

end EraseDups

def Evidence.given? : Evidence → Option Param
  | given p => some p
  | declared _ => none

namespace Scope

def takes (s : Scope) (name : String) : Bool :=
  s.evidence.any fun e => e.name == name

theorem evidence_add (s : Scope) (e : Evidence) :
    (s.add e).evidence = if s.takes e.name then s.evidence else s.evidence ++ [e] := by
  unfold add takes
  split <;> rfl

/-- Of the evidence that comes, the first with each name that is free gets in. -/
theorem evidence_addAll (es : List Evidence) (s : Scope) :
    (es.foldl add s).evidence = s.evidence ++
      (es.filter fun e => !s.takes e.name).eraseDupsBy fun e f => e.name == f.name := by
  induction es generalizing s with
  | nil => exact (List.append_nil _).symm
  | cons e es ih =>
      rw [List.foldl_cons, ih, evidence_add]
      cases he : s.takes e.name with
      | true =>
          have hsame : ∀ name, (s.add e).takes name = s.takes name := by
            intro name
            rw [takes, evidence_add, he]
            rfl
          simp [hsame, he]
      | false =>
          have hmore : ∀ f : Evidence,
              (!(s.add e).takes f.name) =
                (decide ((f.name == e.name) = false) && !s.takes f.name) := by
            intro f
            rw [takes, evidence_add, he, if_neg Bool.false_ne_true, List.any_append, ← takes,
              BEq.comm (a := f.name)]
            cases s.takes f.name <;> cases hname : e.name == f.name <;> simp [hname]
          simp [hmore, he, List.eraseDupsBy_cons, List.filter_filter]

theorem evidence_addAll_congr {s s' : Scope} (h : s.evidence = s'.evidence) (es : List Evidence) :
    (es.foldl add s).evidence = (es.foldl add s').evidence := by
  rw [evidence_addAll, evidence_addAll]
  simp only [takes, h]

theorem evidence_enterAll (params : List Param) (s : Scope) :
    (params.foldl enter s).evidence =
      (((params.filter Param.isWitness).map Evidence.given).foldl add s).evidence := by
  induction params generalizing s with
  | nil => rfl
  | cons p params ih =>
      rw [List.foldl_cons, ih, enter]
      cases hp : p.isWitness with
      | true =>
          rw [List.filter_cons_of_pos hp, List.map_cons, List.foldl_cons]
          exact evidence_addAll_congr (evidence_addAll_congr (evidence_bind s p.var) [.given p]) _
      | false =>
          rw [List.filter_cons_of_neg (by simp [hp])]
          exact evidence_addAll_congr (evidence_bind s p.var) _

end Scope

/-- The witnesses among some parameters, the first one of each name. -/
def firstWitnesses (params : List Param) : List Param :=
  (params.filter Param.isWitness).eraseDupsBy fun p q => p.var.name == q.var.name

namespace Scope

theorem evidence_ofParams {instances : List Instance} (params : List Param)
    (h : (instances.map Instance.name).Nodup) :
    (ofParams instances params).evidence = (firstWitnesses params).map .given ++
      (instances.filter fun i => i.name ∉ (firstWitnesses params).map fun p => p.var.name).map
        .declared := by
  have hgivens : (params.foldl enter empty).evidence = (firstWitnesses params).map .given := by
    have hfree : ((params.filter Param.isWitness).map Evidence.given).filter
        (fun e => !empty.takes e.name) = (params.filter Param.isWitness).map Evidence.given :=
      List.filter_eq_self.2 fun _ _ => rfl
    rw [evidence_enterAll, evidence_addAll, hfree]
    exact eraseDupsBy_map Evidence.given _ _
  rw [ofParams, evidence_addAll, hgivens]
  refine congrArg (_ ++ ·) ?_
  have htaken : ∀ i : Instance, (!(params.foldl enter empty).takes i.name) =
      decide (i.name ∉ (firstWitnesses params).map fun p => p.var.name) := by
    intro i
    rw [takes, hgivens, List.any_map, Bool.eq_iff_iff]
    simp [Evidence.name]
  rw [eraseDupsBy_eq_self, List.filter_map]
  · exact congrArg _ (List.filter_congr fun i _ => htaken i)
  · refine List.Pairwise.filter _ (List.pairwise_map.2 ((List.pairwise_map.1 h).imp ?_))
    exact fun hne => beq_false_of_ne hne.symm

inductive Step where
  | add (e : Evidence)
  | bind (v : TyVar)

def perform (s : Scope) : Step → Scope
  | .add e => s.add e
  | .bind v => s.bind v

def performAll (s : Scope) (steps : List Step) : Scope :=
  steps.foldl perform s

/-- One scope goes on from another: what is in there stays, in its order. -/
structure Continues (s s' : Scope) : Prop where
  evidence : s.evidence <+: s'.evidence
  givens : s.givens <+: s'.givens
  bound : s.bound <+: s'.bound

theorem Continues.refl (s : Scope) : s.Continues s :=
  ⟨List.prefix_rfl, List.prefix_rfl, List.prefix_rfl⟩

theorem Continues.trans {s s' s'' : Scope} (h : s.Continues s') (h' : s'.Continues s'') :
    s.Continues s'' :=
  ⟨h.evidence.trans h'.evidence, h.givens.trans h'.givens, h.bound.trans h'.bound⟩

theorem continues_perform (s : Scope) (step : Step) : s.Continues (s.perform step) := by
  cases step with
  | add e =>
      simp only [perform, add]
      split
      · exact .refl s
      · refine ⟨List.prefix_append _ _, ?_, List.prefix_rfl⟩
        cases e with
        | given p => exact List.prefix_append _ _
        | declared i => exact List.prefix_rfl
  | bind v =>
      simp only [perform, bind]
      split
      · exact .refl s
      · exact ⟨List.prefix_rfl, List.prefix_rfl, List.prefix_append _ _⟩

theorem continues_performAll (s : Scope) (steps : List Step) :
    s.Continues (s.performAll steps) := by
  induction steps generalizing s with
  | nil => exact .refl s
  | cons step steps ih => exact (continues_perform s step).trans (ih (s.perform step))

theorem Built.performAll {s : Scope} (h : s.Built) (steps : List Step) :
    (s.performAll steps).Built := by
  induction steps generalizing s with
  | nil => exact h
  | cons step steps ih =>
      cases step with
      | add e => exact ih (h.add e)
      | bind v => exact ih (h.bind v)

def Listed (s : Scope) : Prop :=
  s.givens = s.evidence.filterMap Evidence.given?

theorem Listed.add {s : Scope} (h : s.Listed) (e : Evidence) : (s.add e).Listed := by
  unfold Listed Scope.add at *
  split
  · exact h
  · cases e <;> simp [h, Evidence.given?]

theorem Listed.bind {s : Scope} (h : s.Listed) (v : TyVar) : (s.bind v).Listed := by
  unfold Scope.bind
  split <;> exact h

theorem Listed.addAll {s : Scope} (h : s.Listed) (es : List Evidence) :
    (es.foldl Scope.add s).Listed := by
  induction es generalizing s with
  | nil => exact h
  | cons e es ih => exact ih (h.add e)

theorem Listed.enterAll {s : Scope} (h : s.Listed) (params : List Param) :
    (params.foldl enter s).Listed := by
  induction params generalizing s with
  | nil => exact h
  | cons p params ih =>
      refine ih (?_ : (s.enter p).Listed)
      unfold enter
      split
      · exact (h.bind p.var).add _
      · exact h.bind p.var

theorem Built.listed {s : Scope} (h : s.Built) : s.Listed := by
  induction h with
  | empty => rfl
  | ofParams instances params => exact (Listed.enterAll (rfl : Scope.empty.Listed) params).addAll _
  | add _ e ih => exact ih.add e
  | bind _ v ih => exact ih.bind v

theorem givens_ofParams {instances : List Instance} (params : List Param)
    (h : (instances.map Instance.name).Nodup) :
    (ofParams instances params).givens = firstWitnesses params := by
  rw [(Built.ofParams instances params).listed, evidence_ofParams params h, List.filterMap_append,
    List.filterMap_map, List.filterMap_map]
  simp [Function.comp_def, Evidence.given?]

end Scope

/-- However declarations are registered, the last one of each name is in force, at the place where
the name came up first. In the scope of some parameters all of these are bound; the first witness of
each name comes first, then the instances whose names are free; and whatever is done to the scope
later, names stay different, the givens stay those among the evidence, and what is in the scope
stays there. -/
theorem registered (history : List Registry.Entry) :
    let r := Registry.ofHistory history
    let instances := history.filterMap Registry.Entry.decl?
    let concepts := history.filterMap Registry.Entry.concept?
    (r.model.instances.map Instance.name).Nodup ∧
      r.model.instances.map Instance.name = (instances.map Instance.name).eraseDups ∧
      (∀ name, r.model.instance? name = (instances.filter fun i => i.name == name).getLast?) ∧
      (∀ name i, r.model.instance? name = some i ↔ i ∈ r.model.instances ∧ i.name = name) ∧
      (∀ name, r.model.concept? name = (concepts.filter fun c => c.name == name).getLast?) ∧
      ∀ params,
        let s := Scope.ofParams r.model.instances params
        let witnesses := firstWitnesses params
        s.evidence = witnesses.map .given ++
            (r.model.instances.filter fun i => i.name ∉ witnesses.map fun p => p.var.name).map
              .declared ∧
          s.givens = witnesses ∧ (∀ v, v ∈ s.bound ↔ ∃ p ∈ params, p.var = v) ∧
          ∀ steps,
            let s' := s.performAll steps
            (s'.evidence.map Evidence.name).Nodup ∧
              s'.givens = s'.evidence.filterMap Evidence.given? ∧
              ∀ more, s'.Continues (s'.performAll more) := by
  intro r instances concepts
  have hinstances : r.model.instances = putAll Instance.name instances :=
    Registry.instances_ofHistory history
  have hnodup : (r.model.instances.map Instance.name).Nodup := hinstances ▸ nodup_map_putAll _
  have hfind : ∀ name, r.model.instance? name = r.model.instances.find? fun i => i.name == name :=
    congrFun (Registry.model_instance? r)
  refine ⟨hnodup, hinstances ▸ map_putAll _, fun name => ?_, fun name i => ?_, fun name => ?_,
    fun params => ⟨Scope.evidence_ofParams params hnodup, Scope.givens_ofParams params hnodup,
      fun v => Scope.mem_bound_ofParams, fun steps => ?_⟩⟩
  · rw [hfind, hinstances, find?_putAll]
  · rw [hfind]
    exact find?_name_eq_some_iff hnodup
  · rw [Registry.model_concept?, Registry.concept?, Registry.concepts_ofHistory, find?_putAll]
  · have hbuilt := (Scope.Built.ofParams r.model.instances params).performAll steps
    exact ⟨hbuilt.tidy.nodup, hbuilt.listed, Scope.continues_performAll _⟩

end ConceptResolution
