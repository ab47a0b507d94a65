import ConceptResolution.Proofs.TypeReading
import ConceptResolution.Syntax.Declaration

namespace ConceptResolution

structure Param.Legible (p : Param) : Prop where
  var : ∃ name, IsName name ∧ p.var = ⟨String.ofList ('\'' :: name)⟩
  constraints : ∀ c ∈ p.constraints, c.Legible
  witness : p.kind = .witness → p.constraints ≠ []

structure Concept.Legible (c : Concept) : Prop where
  supers : ∀ s ∈ c.supers, s.Legible
  defaults : c.defaults ⊆ c.methods

structure Instance.Legible (i : Instance) : Prop where
  params : ∀ p ∈ i.params, p.Legible
  ne_nil : i.provides ≠ []
  provides : ∀ c ∈ i.provides, c.Legible

def Statement.Legible : Statement → Prop
  | .concept c => c.Legible
  | .decl i => i.Legible
  | .type pattern concepts => pattern.Legible ∧ ∀ c ∈ concepts, c.Legible
  | .given params => params ≠ [] ∧ ∀ p ∈ params, p.Legible
  | .resolve params supplied => (∀ p ∈ params, p.Legible) ∧ ∀ t ∈ supplied, t.Legible
  | .call _ wanted => wanted.Legible

namespace Scan

theorem yields_tySum : Yields tySum fun ts => ts ≠ [] ∧ ∀ t ∈ ts, Ty.Legible t :=
  yields_sepBy yields_ty _

theorem yields_optionalSum : Yields optionalSum (∀ c ∈ ·, Ty.Legible c) := by
  refine (yields_true _).bind fun colon _ => ?_
  split
  · exact yields_tySum.mono fun _ h => h.2
  · exact yields_pure (List.forall_mem_nil _)

theorem yields_paramVar :
    Yields paramVar fun v => ∃ name, IsName name ∧ v = ⟨String.ofList ('\'' :: name)⟩ := by
  refine yields_ty.bind fun t ht => ?_
  split
  · next v =>
    split
    · next hparam =>
      refine yields_pure ?_
      cases ht with
      | param hname => exact ⟨_, hname, rfl⟩
      | fresh _ => simp [TyVar.isParam] at hparam
    · exact yields_failWith _
  · exact yields_failWith _

theorem yields_declParam : Yields declParam Param.Legible := by
  refine (yields_true _).bind fun kind _ => yields_paramVar.bind fun v hv =>
    yields_optionalSum.bind fun constraints hconstraints => ?_
  split
  · exact yields_failWith _
  · next hwitness =>
    exact yields_pure ⟨hv, hconstraints, fun hkind hnone =>
      hwitness ⟨hkind, List.isEmpty_iff.2 hnone⟩⟩

theorem yields_declParams : Yields declParams fun ps => ps ≠ [] ∧ ∀ p ∈ ps, p.Legible :=
  yields_sepBy yields_declParam _

theorem yields_bracketedParams : Yields bracketedParams (∀ p ∈ ·, Param.Legible p) := by
  refine (yields_true _).bind fun _ _ => (yields_true _).bind fun close _ => ?_
  split
  · exact yields_pure (List.forall_mem_nil _)
  · exact yields_declParams.bind fun ps hps => (yields_true _).bind fun _ _ => yields_pure hps.2

theorem yields_concept : Yields concept Concept.Legible := by
  refine (yields_true _).bind fun applied _ => ?_
  split
  · exact yields_failWith _
  · refine (yields_true _).bind fun params _ => yields_optionalSum.bind fun supers hsupers =>
      (yields_true _).bind fun declared _ => yields_pure ⟨hsupers, ?_⟩
    exact (List.filter_sublist.map Prod.snd).subset

theorem yields_decl (overlap : Overlap) : Yields (decl overlap) Instance.Legible := by
  refine (yields_true _).bind fun name _ => (yields_true _).bind fun bracket _ => ?_
  have hrest : ∀ params, (∀ p ∈ params, p.Legible) → Yields (do
      expect [':']
      let provides ← tySum
      let implemented ← methods
      return (⟨name, params, provides, overlap, implemented.map Prod.snd⟩ : Instance))
      Instance.Legible := fun params hparams =>
    (yields_true _).bind fun _ _ => yields_tySum.bind fun provides hprovides =>
      (yields_true _).bind fun implemented _ =>
        yields_pure ⟨hparams, hprovides.1, hprovides.2⟩
  dsimp only
  split
  · exact yields_bracketedParams.bind hrest
  · exact hrest [] (List.forall_mem_nil _)

theorem yields_statement (whole : List Char) : Yields (statement whole) Statement.Legible := by
  refine (yields_true _).bind fun flags _ => ?_
  split
  · refine (yields_true _).bind fun _ _ => ?_
    split
    · exact (yields_decl flags).bind fun _ hi => yields_pure (P := Statement.Legible) hi
    · exact yields_failWith _
  refine (yields_true _).bind fun _ _ => ?_
  split
  · exact (yields_decl .neither).bind fun _ hi => yields_pure (P := Statement.Legible) hi
  refine (yields_true _).bind fun _ _ => ?_
  split
  · exact yields_concept.bind fun _ hc => yields_pure (P := Statement.Legible) hc
  refine (yields_true _).bind fun _ _ => ?_
  split
  · exact yields_ty.bind fun pattern hpattern => (yields_true _).bind fun _ _ =>
      yields_tySum.bind fun concepts hconcepts => yields_pure ⟨hpattern, hconcepts.2⟩
  refine (yields_true _).bind fun _ _ => ?_
  split
  · exact yields_declParams.bind fun _ hparams => yields_pure (P := Statement.Legible) hparams
  refine (yields_true _).bind fun _ _ => ?_
  split
  · exact yields_bracketedParams.bind fun params hparams =>
      yields_tuple.bind fun supplied hsupplied => yields_pure ⟨hparams, hsupplied⟩
  refine (yields_true _).bind fun _ _ => ?_
  split
  · exact (yields_true _).bind fun method _ => (yields_true _).bind fun _ _ =>
      yields_ty.bind fun _ hwanted => yields_pure (P := Statement.Legible) hwanted
  · exact yields_failWith _

end Scan

theorem Statement.legible_of_read {line : List Char} {s : Statement}
    (h : Statement.read line = .ok s) : s.Legible := by
  have hyields : Scan.Yields (do let s ← Scan.statement line; Scan.expectEnd; return s)
      Statement.Legible :=
    (Scan.yields_statement line).bind fun _ hs =>
      (Scan.yields_true _).bind fun _ _ => Scan.yields_pure hs
  exact hyields.of_run h

end ConceptResolution
