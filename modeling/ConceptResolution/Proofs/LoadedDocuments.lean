import ConceptResolution.Document.Basic
import ConceptResolution.Proofs.DeclarationReading
import ConceptResolution.Proofs.Scoping

namespace ConceptResolution

/-- No application in the type, at any depth, lacks arguments. -/
inductive Ty.Proper : Ty → Prop
  | const (name : String) : Proper (.const name)
  | var (v : TyVar) : Proper (.var v)
  | fn {ps : List Ty} {r : Ty} (hps : ∀ t ∈ ps, Proper t) (hr : Proper r) : Proper (.fn ps r)
  | app {head : String} {ts : List Ty} (hne : ts ≠ []) (hts : ∀ t ∈ ts, Proper t) :
    Proper (.app head ts)
  | tuple {ts : List Ty} (hts : ∀ t ∈ ts, Proper t) : Proper (.tuple ts)

def Param.types (p : Param) : List Ty :=
  p.ty :: p.constraints

def Concept.types (c : Concept) : List Ty :=
  c.ty :: c.supers

def Instance.types (i : Instance) : List Ty :=
  i.ty :: i.provides ++ i.params.flatMap Param.types

namespace Question

def params : Question → List Param
  | resolve params _ => params
  | call _ _ => []

def types : Question → List Ty
  | resolve params supplied => params.flatMap Param.types ++ supplied
  | call _ wanted => [wanted]

end Question

namespace Document

def params (d : Document) : List Param :=
  d.givens ++ d.registry.instances.flatMap Instance.params ++
    d.queries.flatMap fun q => q.question.params

def types (d : Document) : List Ty :=
  d.registry.concepts.flatMap Concept.types ++ d.registry.instances.flatMap Instance.types ++
    (d.registry.typeConcepts.flatMap fun e => [e.1, e.2]) ++ d.givens.flatMap Param.types ++
    d.queries.flatMap fun q => q.question.types

structure WellFormed (d : Document) : Prop where
  named : ∀ p ∈ d.params, p.var.isParam = true
  required : ∀ p ∈ d.params, p.isWitness = true → p.constraints ≠ []
  defaults : ∀ c ∈ d.registry.concepts, c.defaults ⊆ c.methods
  provides : ∀ i ∈ d.registry.instances, i.provides ≠ []
  proper : ∀ t ∈ d.types, t.Proper
  bound : ∀ v ∈ d.scope.bound, v.isParam = true ∧ ∃ p ∈ d.givens, p.var = v

end Document

theorem mem_putNamed {α : Type} {name : α → String} {a b : α} {as : List α}
    (h : b ∈ putNamed name a as) : b = a ∨ b ∈ as := by
  induction as with
  | nil => exact .inl (List.mem_singleton.1 h)
  | cons c cs ih =>
      rw [putNamed] at h
      split at h
      · exact (List.mem_cons.1 h).imp_right fun hb => List.mem_cons_of_mem c hb
      · rcases List.mem_cons.1 h with rfl | hb
        · exact .inr List.mem_cons_self
        · exact (ih hb).imp_right fun hb => List.mem_cons_of_mem c hb

def Question.Legible : Question → Prop
  | resolve params supplied => (∀ p ∈ params, p.Legible) ∧ ∀ t ∈ supplied, t.Legible
  | call _ wanted => wanted.Legible

namespace Document

structure Legible (d : Document) : Prop where
  concepts : ∀ c ∈ d.registry.concepts, c.Legible
  instances : ∀ i ∈ d.registry.instances, i.Legible
  typeConcepts : ∀ e ∈ d.registry.typeConcepts, e.1.Legible ∧ e.2.Legible
  givens : ∀ p ∈ d.givens, p.Legible
  queries : ∀ q ∈ d.queries, q.question.Legible

variable {d d' : Document} {file text : String}

theorem legible_empty : empty.Legible := by
  constructor <;> exact List.forall_mem_nil _

theorem Legible.ask (h : d.Legible) {q : Query} (hq : q.question.Legible) : (d.ask q).Legible :=
  { h with queries := List.forall_mem_append.2 ⟨h.queries, List.forall_mem_singleton.2 hq⟩ }

theorem mem_typeConcepts_foldl {r : Registry} {pattern : Ty} {concepts : List Ty} {e : Ty × Ty}
    (h : e ∈ (concepts.foldl (fun r c => r.addTypeConcept pattern c) r).typeConcepts) :
    e ∈ r.typeConcepts ∨ e.1 = pattern ∧ e.2 ∈ concepts := by
  induction concepts generalizing r with
  | nil => exact .inl h
  | cons c cs ih =>
      rcases ih h with h | ⟨hpattern, hmem⟩
      · rcases List.mem_append.1 h with h | h
        · exact .inl h
        · cases List.mem_singleton.1 h
          exact .inr ⟨rfl, List.mem_cons_self⟩
      · exact .inr ⟨hpattern, List.mem_cons_of_mem c hmem⟩

theorem foldl_addTypeConcept (r : Registry) (pattern : Ty) (concepts : List Ty) :
    (concepts.foldl (fun r c => r.addTypeConcept pattern c) r).concepts = r.concepts ∧
      (concepts.foldl (fun r c => r.addTypeConcept pattern c) r).instances = r.instances := by
  induction concepts generalizing r with
  | nil => exact ⟨rfl, rfl⟩
  | cons c cs ih => exact ih (r.addTypeConcept pattern c)

theorem Legible.add (h : d.Legible) (source : SourceLine) {s : Statement} (hs : s.Legible) :
    (d.add source s).Legible := by
  cases s with
  | concept c =>
      refine { h with concepts := fun c' hc' => ?_ }
      rcases mem_putNamed hc' with rfl | hc'
      · exact hs
      · exact h.concepts c' hc'
  | decl i =>
      refine { h with instances := fun i' hi' => ?_ }
      rcases mem_putNamed hi' with rfl | hi'
      · exact hs
      · exact h.instances i' hi'
  | type pattern concepts =>
      obtain ⟨hconcepts, hinstances⟩ := foldl_addTypeConcept d.registry pattern concepts
      refine { h with
        concepts := fun c hc => h.concepts c (hconcepts ▸ hc)
        instances := fun i hi => h.instances i (hinstances ▸ hi)
        typeConcepts := fun e he => ?_ }
      rcases mem_typeConcepts_foldl he with he | ⟨hpattern, hmem⟩
      · exact h.typeConcepts e he
      · exact ⟨hpattern ▸ hs.1, hs.2 e.2 hmem⟩
  | given params => exact { h with givens := List.forall_mem_append.2 ⟨h.givens, hs.2⟩ }
  | resolve params supplied => exact h.ask hs
  | call method wanted => exact h.ask hs

theorem Legible.addLine (h : d.Legible) {line : List Char × Nat}
    (hline : addLine file d line = .ok d') : d'.Legible := by
  simp only [Document.addLine] at hline
  split at hline
  · cases hline
    exact h
  · split at hline
    · next hread =>
      cases hline
      exact h.add _ (Statement.legible_of_read hread)
    · cases hline

theorem Legible.addLines (h : d.Legible) {lines : List (List Char × Nat)}
    (hlines : lines.foldlM (Document.addLine file) d = .ok d') : d'.Legible := by
  induction lines generalizing d with
  | nil =>
      cases hlines
      exact h
  | cons line lines ih =>
      rw [List.foldlM_cons] at hlines
      cases hline : Document.addLine file d line with
      | error f =>
          rw [hline] at hlines
          cases hlines
      | ok d₁ =>
          rw [hline] at hlines
          exact ih (h.addLine hline) hlines

end Document

theorem Ty.Legible.proper {t : Ty} (h : t.Legible) : t.Proper := by
  induction h with
  | const _ => exact .const _
  | param _ => exact .var _
  | fresh _ => exact .var _
  | fn _ _ ihps ihr => exact .fn ihps ihr
  | app _ hne _ ih => exact .app hne ih
  | tuple _ ih => exact .tuple ih

theorem Ty.proper_generic (name : String) (params : List TyVar) : (generic name params).Proper := by
  rw [generic, named]
  split
  · exact .const name
  · next hne => exact .app (by simpa using hne) (List.forall_mem_map.2 fun v _ => .var v)

theorem Param.Legible.isParam {p : Param} (h : p.Legible) : p.var.isParam = true := by
  obtain ⟨name, -, hvar⟩ := h.var
  simp [hvar, TyVar.isParam]

theorem Param.Legible.proper {p : Param} (h : p.Legible) : ∀ t ∈ p.types, t.Proper :=
  List.forall_mem_cons.2 ⟨.var p.var, fun c hc => (h.constraints c hc).proper⟩

theorem Concept.Legible.proper {c : Concept} (h : c.Legible) : ∀ t ∈ c.types, t.Proper :=
  List.forall_mem_cons.2 ⟨Ty.proper_generic _ _, fun s hs => (h.supers s hs).proper⟩

theorem Instance.Legible.proper {i : Instance} (h : i.Legible) : ∀ t ∈ i.types, t.Proper := by
  refine List.forall_mem_append.2 ⟨List.forall_mem_cons.2
    ⟨Ty.proper_generic _ _, fun c hc => (h.provides c hc).proper⟩, ?_⟩
  exact List.forall_mem_flatMap.2 fun p hp => (h.params p hp).proper

theorem Question.Legible.params {q : Question} (h : q.Legible) : ∀ p ∈ q.params, p.Legible := by
  cases q with
  | resolve params supplied => exact h.1
  | call method wanted => exact List.forall_mem_nil _

theorem Question.Legible.proper {q : Question} (h : q.Legible) : ∀ t ∈ q.types, t.Proper := by
  cases q with
  | resolve params supplied =>
      exact List.forall_mem_append.2 ⟨List.forall_mem_flatMap.2 fun p hp => (h.1 p hp).proper,
        fun t ht => (h.2 t ht).proper⟩
  | call method wanted => exact List.forall_mem_singleton.2 (Ty.Legible.proper h)

namespace Document

variable {d : Document} {file text : String}

theorem Legible.params (h : d.Legible) : ∀ p ∈ d.params, p.Legible := by
  refine List.forall_mem_append.2 ⟨List.forall_mem_append.2 ⟨h.givens, ?_⟩, ?_⟩
  · exact List.forall_mem_flatMap.2 fun i hi => (h.instances i hi).params
  · exact List.forall_mem_flatMap.2 fun q hq => (h.queries q hq).params

theorem Legible.proper (h : d.Legible) : ∀ t ∈ d.types, t.Proper := by
  refine List.forall_mem_append.2 ⟨List.forall_mem_append.2 ⟨List.forall_mem_append.2
    ⟨List.forall_mem_append.2 ⟨?_, ?_⟩, ?_⟩, ?_⟩, ?_⟩
  · exact List.forall_mem_flatMap.2 fun c hc => (h.concepts c hc).proper
  · exact List.forall_mem_flatMap.2 fun i hi => (h.instances i hi).proper
  · refine List.forall_mem_flatMap.2 fun e he => List.forall_mem_cons.2 ?_
    obtain ⟨hpattern, hconcept⟩ := h.typeConcepts e he
    exact ⟨hpattern.proper, List.forall_mem_singleton.2 hconcept.proper⟩
  · exact List.forall_mem_flatMap.2 fun p hp => (h.givens p hp).proper
  · exact List.forall_mem_flatMap.2 fun q hq => (h.queries q hq).proper

/-- Whatever text is read, the document is well-formed. -/
theorem wellFormed_of_read (h : read file text = .ok d) : d.WellFormed := by
  have hlegible : d.Legible := legible_empty.addLines h
  refine ⟨fun p hp => (hlegible.params p hp).isParam, fun p hp hwitness => ?_,
    fun c hc => (hlegible.concepts c hc).defaults, fun i hi => (hlegible.instances i hi).ne_nil,
    hlegible.proper, fun v hv => ?_⟩
  · exact (hlegible.params p hp).witness (beq_iff_eq.1 hwitness)
  · obtain ⟨p, hp, rfl⟩ := Scope.mem_bound_ofParams.1 hv
    exact ⟨(hlegible.givens p hp).isParam, p, hp, rfl⟩

theorem exists_read (file : String) (chars : List Char) (P : Document → Bool)
    (h : ((Text.lines chars).zipIdx.foldlM (addLine file) empty).toOption.any P = true) :
    ∃ d, read file (String.ofList chars) = .ok d ∧ P d = true := by
  rw [read, String.toList_ofList]
  cases hread : (Text.lines chars).zipIdx.foldlM (addLine file) empty with
  | error f => simp [hread, Except.toOption] at h
  | ok d => exact ⟨d, rfl, by simpa [hread, Except.toOption] using h⟩

/-- Declarations of every form, one instance in place of another, and two queries. -/
theorem wellFormed_of_read_lines :
    let lines := ["concept Eq['a] { eq, default ne }", "concept Ord['a] : Eq['a]",
      "type string : Eq[string] + Ord[string]", "instance I : Eq[()] { eq }",
      "overlapping overlappable instance I[assoc 't, witness 'w: Eq['t]] : Eq[list['t]] # again",
      "given 's, witness 'e: Eq['s]", "", "resolve ['t, witness 'w: Eq['t]] (Fn(?x, ) -> 's)",
      "call ne : Eq[list['s]]"]
    let text := String.ofList (['\n'].intercalate (lines.map String.toList))
    ∃ d, read "" text = .ok d ∧ d.queries.length = 2 ∧ d.registry.instances.length = 1 ∧
      d.WellFormed := by
  intro lines text
  obtain ⟨d, hread, hcounts⟩ := exists_read "" (['\n'].intercalate (lines.map String.toList))
    (fun d => d.queries.length == 2 && d.registry.instances.length == 1) (by decide +kernel)
  rw [Bool.and_eq_true, beq_iff_eq, beq_iff_eq] at hcounts
  exact ⟨d, hread, hcounts.1, hcounts.2, wellFormed_of_read hread⟩

end Document

end ConceptResolution
