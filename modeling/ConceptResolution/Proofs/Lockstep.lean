import ConceptResolution.Proofs.Alignment
import ConceptResolution.Proofs.RenamedSites
import ConceptResolution.Proofs.Unaided

namespace ConceptResolution

open VarSupply

def Renaming.Agrees (τ ρ : Renaming) (k : Nat) : Prop :=
  ∀ v, Old k v → τ.map v = ρ.map v

namespace Renaming.Agrees

variable {ρ σ τ : Renaming} {k n : Nat}

theorem refl (ρ : Renaming) (k : Nat) : ρ.Agrees ρ k := fun _ _ => rfl

theorem trans (h : τ.Agrees σ n) (h' : σ.Agrees ρ k) (hk : k ≤ n) : τ.Agrees ρ k :=
  fun v hv => (h v (hv.mono hk)).trans (h' v hv)

theorem rename (h : τ.Agrees ρ k) {t : Ty} (ht : ∀ v ∈ t.vars, Old k v) :
    t.rename τ.map = t.rename ρ.map :=
  Ty.rename_congr fun v hv => h v (ht v hv)

end Renaming.Agrees

namespace Search

variable {α β γ δ : Type} {I : Memory → Prop} {G : Prop} {ρ : Renaming} {k k' : Nat}

/-- Where the second run is not hindered, and the first one rejects no cycle unless `G` holds, their
results are related, under a renaming that lines up what both of them have minted. -/
def Lockstep (I : Memory → Prop) (G : Prop) (ρ : Renaming) (x : Search α) (k : Nat) (y : Search β)
    (k' : Nat) (Q : Renaming → α → β → Prop) : Prop :=
  ∀ m m' : Memory, I m → m.supply.next = k → m'.supply.next = k' →
    (y.run m').2.cycles = m'.cycles → (G ∨ (x.run m).2.cycles = m.cycles) →
    ∃ τ : Renaming, τ.Aligned (x.run m).2.supply.next (y.run m').2.supply.next ∧ τ.Agrees ρ k ∧
      Q τ (x.run m).1 (y.run m').1

theorem lockstep_pure {a : α} {b : β} {Q : Renaming → α → β → Prop} (hρ : ρ.Aligned k k')
    (h : Q ρ a b) : Lockstep I G ρ (pure a) k (pure b) k' Q := by
  rintro m m' - rfl rfl - -
  exact ⟨ρ, hρ, .refl ρ _, h⟩

/-- Runs one after the other. That neither run takes a cycle back is what makes the first parts
unhindered too. -/
theorem Lockstep.bind {x : Search α} {y : Search β} {f : α → Search γ} {g : β → Search δ}
    {P : α → Nat → Prop} {P' : β → Nat → Prop}
    {Q : Renaming → α → β → Prop} {S : Renaming → γ → δ → Prop}
    (hxy : Lockstep I G ρ x k y k' Q) (hx : Ensures I x k P)
    (hy : Ensures (fun _ => True) y k' P') (hle : ∀ a n, P a n → k ≤ n)
    (hf : ∀ a n, P a n → Ensures I (f a) n fun _ _ => True)
    (hg : ∀ b n', P' b n' → Ensures (fun _ => True) (g b) n' fun _ _ => True)
    (hfg : ∀ τ a b n n', P a n → P' b n' → τ.Aligned n n' → τ.Agrees ρ k → Q τ a b →
      Lockstep I G τ (f a) n (g b) n' S) :
    Lockstep I G ρ (x >>= f) k (y >>= g) k' S := by
  intro m m' hI hm hm' hfree hcycles
  obtain ⟨hI₁, hx₁, hP⟩ := hx m hI hm
  obtain ⟨-, hy₁, hP'⟩ := hy m' trivial hm'
  obtain ⟨-, hx₂, -⟩ := hf _ _ hP _ hI₁ rfl
  obtain ⟨-, hy₂, -⟩ := hg _ _ hP' _ trivial rfl
  change ((g (y.run m').1).run (y.run m').2).2.cycles = m'.cycles at hfree
  change G ∨ ((f (x.run m).1).run (x.run m).2).2.cycles = m.cycles at hcycles
  obtain ⟨τ, hτ, hagrees, hQ⟩ := hxy m m' hI hm hm' (by omega) (hcycles.imp_right fun h => by omega)
  obtain ⟨σ, hσ, hagrees', hS⟩ := hfg τ _ _ _ _ hP hP' hτ hagrees hQ _ _ hI₁ rfl rfl (by omega)
    (hcycles.imp_right fun h => by omega)
  exact ⟨σ, hσ, hagrees'.trans hagrees (hle _ _ hP), hS⟩

theorem Lockstep.map {x : Search α} {y : Search β} {f : α → γ} {g : β → δ} {P : α → Nat → Prop}
    {P' : β → Nat → Prop} {Q : Renaming → α → β → Prop} {S : Renaming → γ → δ → Prop}
    (hxy : Lockstep I G ρ x k y k' Q) (hx : Ensures I x k P)
    (hy : Ensures (fun _ => True) y k' P')
    (hfg : ∀ τ a b n n', P a n → P' b n' → τ.Agrees ρ k → Q τ a b → S τ (f a) (g b)) :
    Lockstep I G ρ (x >>= fun a => pure (f a)) k (y >>= fun b => pure (g b)) k' S := by
  intro m m' hI hm hm' hfree hcycles
  obtain ⟨-, -, hP⟩ := hx m hI hm
  obtain ⟨-, -, hP'⟩ := hy m' trivial hm'
  obtain ⟨τ, hτ, hagrees, hQ⟩ := hxy m m' hI hm hm' hfree hcycles
  exact ⟨τ, hτ, hagrees, hfg τ _ _ _ _ hP hP' hagrees hQ⟩

end Search

theorem Renaming.Aligned.mintAll {ρ : Renaming} {k k' : Nat} (h : ρ.Aligned k k')
    (hints : List TyVar) :
    (VarSupply.mintAll ⟨k'⟩ hints).1 = (VarSupply.mintAll ⟨k⟩ hints).1.map ρ.map := by
  induction hints generalizing k k' with
  | nil => rfl
  | cons hint hints ih =>
      have hfirst : (VarSupply.mint ⟨k'⟩ hint).1 = ρ.map (VarSupply.mint ⟨k⟩ hint).1 :=
        (h.mint 0 hint).symm
      have hrest : (VarSupply.mintAll ⟨k' + 1⟩ hints).1 =
          (VarSupply.mintAll ⟨k + 1⟩ hints).1.map ρ.map := ih (h.later 1)
      exact congrArg₂ List.cons hfirst hrest

private def Instance.under (i : Instance) (s : Subst) : Instantiated :=
  ⟨.declared i, i.params.map fun p => ⟨s.applyVar p.var, p.kind, s.applyAll p.constraints⟩,
    s.applyAll i.provides, s.apply i.ty, nofun⟩

private theorem Instance.under_rename {i : Instance} {ρ : Renaming} {s s' : Subst}
    (hget : ∀ v, s'.get? v = (s.get? v).map (Ty.rename ρ.map))
    (hparams : ∀ p ∈ i.params, ∃ w, s.get? p.var = some (.var w))
    (hprovides : ∀ c ∈ i.provides, c.IsNamed)
    (hconstraints : ∀ p ∈ i.params, ∀ c ∈ p.constraints, c.IsNamed) :
    i.under s' = (i.under s).rename ρ := by
  have hbound : ∀ v, (∃ w, s.get? v = some (.var w)) → s'.lookup v = (s.lookup v).rename ρ.map := by
    rintro v ⟨w, hw⟩
    rw [Subst.lookup, Subst.lookup, hget, hw]
    rfl
  have happly : ∀ t : Ty, t.IsNamed → s'.apply t = (s.apply t).rename ρ.map := by
    intro t ht
    rw [Subst.apply, Subst.apply, Ty.rename, Ty.subst_subst]
    refine Ty.subst_congr fun v hv => ?_
    rw [Subst.lookup, Subst.lookup, hget]
    cases s.get? v with
    | none => exact congrArg Ty.var (ρ.named v (ht v hv)).symm
    | some u => rfl
  have hall : ∀ ts : List Ty, (∀ t ∈ ts, t.IsNamed) →
      s'.applyAll ts = (s.applyAll ts).map (Ty.rename ρ.map) := by
    intro ts hts
    rw [Subst.applyAll, Subst.applyAll, List.map_map]
    exact List.map_congr_left fun t ht => happly t (hts t ht)
  have hty : s'.apply i.ty = (s.apply i.ty).rename ρ.map := by
    rw [Subst.apply, Subst.apply, Ty.rename, Ty.subst_subst]
    refine Ty.subst_congr fun v hv => hbound v ?_
    obtain ⟨p, hp, rfl⟩ := Instance.mem_vars_ty_iff.1 hv
    exact hparams p hp
  simp only [Instance.under, Instantiated.rename, Instantiated.mk.injEq, true_and, List.map_map]
  refine ⟨List.map_congr_left fun p hp => ?_, hall _ hprovides, hty⟩
  obtain ⟨w, hw⟩ := hparams p hp
  have hvar : s'.applyVar p.var = ρ.map (s.applyVar p.var) := by
    rw [Subst.applyVar, Subst.applyVar, hget, hw]
    rfl
  rw [Function.comp_apply, Param.rename, Param.mk.injEq]
  exact ⟨hvar, rfl, hall _ (hconstraints p hp)⟩

theorem Site.Named.instantiate_rename {site : Site} (h : site.Named) {ρ : Renaming} {k k' : Nat}
    (hρ : ρ.Aligned k k') {e : Evidence} (he : e ∈ site.scope.evidence) :
    (e.instantiate ⟨k'⟩).1 = (e.instantiate ⟨k⟩).1.rename ρ ∧ ∃ n,
      (e.instantiate ⟨k⟩).2.next = k + n ∧ (e.instantiate ⟨k'⟩).2.next = k' + n := by
  cases e with
  | given p =>
      obtain ⟨hvar, hconstraints⟩ := h.given p he
      refine ⟨?_, 0, rfl, rfl⟩
      have hty : p.ty.rename ρ.map = p.ty := congrArg Ty.var (ρ.named p.var hvar)
      simp only [Evidence.instantiate, Instantiated.rename, List.map_nil,
        Ty.map_rename_eq_self ρ hconstraints, hty]
  | declared i =>
      obtain ⟨hprovides, hconstraints⟩ := h.declared i he
      refine ⟨Instance.under_rename (fun v => ?_) (fun p hp => ?_) hprovides hconstraints, _,
        next_mintAll _ _, next_mintAll _ _⟩
      · rw [← Subst.get?_ofList_zip_map, hρ.mintAll, List.map_map, List.map_map]
        rfl
      · have hlength : (i.params.map Param.var).length ≤
            ((mintAll ⟨k⟩ (i.params.map Param.var)).1.map Ty.var).length := by
          simp [length_mintAll]
        obtain ⟨t, ht⟩ := Subst.mem_domain_iff.1
          (Subst.mem_domain_ofList_zip hlength (List.mem_map_of_mem hp))
        obtain ⟨w, -, rfl⟩ := List.mem_map.1 (List.of_mem_zip (Subst.mem_of_get?_ofList ht)).2
        exact ⟨w, ht⟩

theorem Subst.rename_congr {s : Subst} {ρ τ : Renaming}
    (h : ∀ v, s.Occurs v → τ.map v = ρ.map v) : s.rename τ = s.rename ρ := by
  refine Subst.ext_bindings (List.map_congr_left fun b hb => ?_)
  have hdomain : b.1 ∈ s.domain := List.mem_map_of_mem hb
  refine Prod.ext (h b.1 (.inl hdomain)) (Ty.rename_congr fun v hv => h v ?_)
  exact .inr ⟨b.1, b.2, Subst.get?_eq_some_iff.2 hb, hv⟩

theorem Instantiated.Of.rename_eq {site : Site} {n k : Nat} {i : Instantiated} {ρ τ : Renaming}
    (h : i.Of n k) (hsource : i.source ∈ site.scope.evidence) (hsite : site.WellScoped)
    (hτ : τ.Agrees ρ k) : i.rename τ = i.rename ρ := by
  have hbound : ∀ v, v ∈ site.scope.bound ∨ New n k v → Old k v := fun v hv =>
    hv.elim (fun hv => old_of_not_isFresh (hsite.bound v hv)) New.old
  have hparams : i.params.map (Param.rename τ.map) = i.params.map (Param.rename ρ.map) := by
    refine List.map_congr_left fun p hp => ?_
    rw [Param.rename, Param.rename, hτ _ (h.new_param hp).old]
    refine congrArg (Param.mk _ _) (List.map_congr_left fun c hc => hτ.rename fun v hv => ?_)
    exact ((h.constraints hsource hsite hp hc).2 v hv).1.old
  have hprovides : i.provides.map (Ty.rename τ.map) = i.provides.map (Ty.rename ρ.map) :=
    List.map_congr_left fun c hc => hτ.rename fun v hv =>
      hbound v ((h.provides hsource hsite hc).2 v hv).1
  have hty : i.ty.rename τ.map = i.ty.rename ρ.map :=
    hτ.rename fun v hv => hbound v (h.vars_ty hsource hsite.bound_of_given hv)
  simp only [Instantiated.rename, hparams, hprovides, hty]

namespace Site

variable {site : Site} {I : Memory → Prop} {G : Prop} {ρ τ : Renaming} {k k' : Nat}

theorem Viable.rename_eq {v : Viable} {n : Nat} (hof : v.candidate.Of n k)
    (hsource : v.candidate.source ∈ site.scope.evidence) (hsite : site.WellScoped)
    (hty : ∀ x ∈ v.ty.vars, Old k x) (hsubst : ∀ x, v.subst.Occurs x → Old k x)
    (hτ : τ.Agrees ρ k) : v.rename τ = v.rename ρ := by
  rw [Viable.rename, Viable.rename, hof.rename_eq hsource hsite hτ, hτ.rename hty,
    Subst.rename_congr fun x hx => hτ x (hsubst x hx)]

variable (site) in
/-- A candidate for what is required, by the time the supply has got to a number. -/
def Trial (required : List Ty) (n k : Nat) (v : Viable) : Prop :=
  (∀ c ∈ required, ∀ x ∈ c.vars, Old n x) ∧ ∃ n', site.Candidate required n n' v ∧ n ≤ n' ∧ n' ≤ k

theorem Trial.old_of_occurs {required : List Ty} {n : Nat} {v : Viable}
    (h : site.Trial required n k v) (hsite : site.WellScoped) {x : TyVar} (hx : v.subst.Occurs x) :
    Old k x := by
  obtain ⟨hold, n', hv, hn, hk⟩ := h
  exact (old_of_known hsite hold hn (hv.occurs hsite hold hx).1).mono hk

theorem Trial.rename_eq {required : List Ty} {n : Nat} {v : Viable} (h : site.Trial required n k v)
    (hsite : site.WellScoped) (hτ : τ.Agrees ρ k) : v.rename τ = v.rename ρ := by
  obtain ⟨n', hv, hn, hk⟩ := h.2
  refine Viable.rename_eq (hv.of.mono (Nat.le_refl n) hk) hv.source hsite (fun x hx => ?_)
    (fun x hx => h.old_of_occurs hsite hx) hτ
  rw [hv.ty] at hx
  rcases Subst.mem_vars_or_occurs_of_mem_vars_apply hx with hx | hx
  · rcases hv.of.vars_ty hv.source hsite.bound_of_given hx with hbound | hnew
    · exact old_of_not_isFresh (hsite.bound x hbound)
    · exact hnew.old.mono hk
  · exact h.old_of_occurs hsite hx

theorem Resolved.rename_eq {required : List Ty} {n : Nat} {v : Viable}
    (h : site.Resolved required n k v) (hsite : site.WellScoped)
    (hold : ∀ c ∈ required, ∀ x ∈ c.vars, Old n x) (hn : n ≤ k) (hτ : τ.Agrees ρ k) :
    v.rename τ = v.rename ρ :=
  Viable.rename_eq h.of h.source hsite (fun x hx => old_of_known hsite hold hn (h.vars_ty x hx))
    (fun x hx => old_of_known hsite hold hn (h.occurs x hx)) hτ

theorem old_of_mem_map_rename (hρ : ρ.Aligned k k') {ts : List Ty}
    (h : ∀ t ∈ ts, ∀ x ∈ t.vars, Old k x) :
    ∀ t ∈ ts.map (Ty.rename ρ.map), ∀ x ∈ t.vars, Old k' x := by
  intro t ht x hx
  obtain ⟨u, hu, rfl⟩ := List.mem_map.1 ht
  obtain ⟨y, hy, rfl⟩ := Ty.mem_vars_rename.1 hx
  exact hρ.old y (h u hu y hy)

theorem Named.lockstep_instantiate (h : site.Named) (hρ : ρ.Aligned k k') {e : Evidence}
    (he : e ∈ site.scope.evidence) :
    Search.Lockstep I G ρ (Search.instantiate e) k (Search.instantiate e) k' fun τ i i' =>
      i' = i.rename τ := by
  rintro m m' - rfl rfl - -
  obtain ⟨hrename, n, hn, hn'⟩ := h.instantiate_rename hρ he
  refine ⟨ρ, ?_, .refl ρ _, hrename⟩
  change ρ.Aligned (e.instantiate m.supply).2.next (e.instantiate m'.supply).2.next
  rw [hn, hn']
  exact hρ.later n

theorem ignoresSupply_true : Memory.IgnoresSupply fun _ => True :=
  fun _ _ _ => trivial

theorem Named.lockstep_instantiateAll (h : site.Named) (hsite : site.WellScoped)
    (hI : Memory.IgnoresSupply I) (hρ : ρ.Aligned k k') {es : List Evidence}
    (hes : es ⊆ site.scope.evidence) :
    Search.Lockstep I G ρ (Search.instantiateAll es) k (Search.instantiateAll es) k' fun τ is is' =>
      is' = is.map (Instantiated.rename τ) := by
  induction es generalizing ρ k k' with
  | nil => exact Search.lockstep_pure hρ rfl
  | cons e es ih =>
      obtain ⟨he, hes⟩ := List.cons_subset.1 hes
      refine (h.lockstep_instantiate hρ he).bind (Search.ensures_instantiate hI e k)
        (Search.ensures_instantiate ignoresSupply_true e k') (fun i n hi => hi.1)
        (fun i n _ => (Search.ensures_instantiateAll hI es n).bind fun is n' _ =>
          Search.ensures_pure trivial)
        (fun i n _ => (Search.ensures_instantiateAll ignoresSupply_true es n).bind fun is n' _ =>
          Search.ensures_pure trivial) ?_
      rintro τ i _ n n' ⟨-, hsource, hi⟩ - hτ - rfl
      refine (ih hτ hes).map (Search.ensures_instantiateAll hI es n)
        (Search.ensures_instantiateAll ignoresSupply_true es n') ?_
      rintro σ is _ k k' - - hagrees rfl
      rw [List.map_cons, hi.rename_eq (hsource ▸ he) hsite hagrees]

theorem Named.lockstep_matching (h : site.Named) (hsite : site.WellScoped)
    (hI : Memory.IgnoresSupply I) (hρ : ρ.Aligned k k') {required : List Ty}
    (hold : ∀ c ∈ required, ∀ x ∈ c.vars, Old k x) :
    Search.Lockstep I G ρ (site.matching required) k
      (site.matching (required.map (Ty.rename ρ.map))) k' fun τ vs vs' =>
      vs' = vs.map (Viable.rename τ) := by
  refine (h.lockstep_instantiateAll hsite hI hρ (List.Subset.refl _)).map
    (Search.ensures_instantiateAll hI _ k)
    (Search.ensures_instantiateAll ignoresSupply_true _ k') ?_
  rintro τ is _ n n' - - hagrees rfl
  have hrequired : required.map (Ty.rename ρ.map) = required.map (Ty.rename τ.map) :=
    List.map_congr_left fun c hc => (hagrees.rename (hold c hc)).symm
  rw [hrequired, List.filterMap_map, List.map_filterMap]
  exact List.filterMap_congr fun i _ => h.viable?_rename τ required i

theorem Named.lockstep_anyProvides (h : site.Named)
    (hI : Memory.IgnoresSupply I) (hρ : ρ.Aligned k k') {c : Ty} (hold : ∀ x ∈ c.vars, Old k x)
    {es : List Evidence} (hes : es ⊆ site.scope.evidence) :
    Search.Lockstep I G ρ (site.anyProvides c es) k (site.anyProvides (c.rename ρ.map) es) k'
      fun _ b b' => b' = b := by
  induction es generalizing ρ k k' with
  | nil => exact Search.lockstep_pure hρ rfl
  | cons e es ih =>
      obtain ⟨he, hes⟩ := List.cons_subset.1 hes
      have hrest : ∀ {J : Memory → Prop}, Memory.IgnoresSupply J → ∀ (d : Ty) (i : Instantiated) n,
          Search.Ensures J (if (site.meetAll [d] i).isSome then return true
            else site.anyProvides d es) n fun _ _ => True := by
        intro J hJ d i n
        split
        · exact Search.ensures_pure trivial
        · exact (ensures_anyProvides hJ d es n).mono fun _ _ _ => trivial
      refine (h.lockstep_instantiate hρ he).bind (Search.ensures_instantiate hI e k)
        (Search.ensures_instantiate ignoresSupply_true e k') (fun i n hi => hi.1)
        (fun i n _ => hrest hI c i n) (fun i n _ => hrest ignoresSupply_true _ i n) ?_
      rintro τ i _ n n' ⟨hn, -, -⟩ - hτ hagrees rfl
      have hsome : (site.meetAll [c.rename ρ.map] (i.rename τ)).isSome =
          (site.meetAll [c] i).isSome := by
        have hmeet := h.meetAll_rename τ [c] i
        rw [List.map_singleton, hagrees.rename hold] at hmeet
        rw [hmeet, Option.isSome_map]
      simp only [hsome]
      split
      · exact Search.lockstep_pure hτ rfl
      · rw [← hagrees.rename hold]
        exact ih hτ (fun x hx => (hold x hx).mono hn) hes

theorem Named.lockstep_unprovided? (h : site.Named)
    (hI : Memory.IgnoresSupply I) (hρ : ρ.Aligned k k') {cs : List Ty}
    (hold : ∀ c ∈ cs, ∀ x ∈ c.vars, Old k x) :
    Search.Lockstep I G ρ (site.unprovided? cs) k
      (site.unprovided? (cs.map (Ty.rename ρ.map))) k' fun _ _ _ => True := by
  induction cs generalizing ρ k k' with
  | nil => exact Search.lockstep_pure hρ trivial
  | cons c cs ih =>
      obtain ⟨hc, hcs⟩ := List.forall_mem_cons.1 hold
      have hrest : ∀ {J : Memory → Prop}, Memory.IgnoresSupply J → ∀ (d : Ty) (ds : List Ty)
          (b : Bool) n, Search.Ensures J (if b then site.unprovided? ds else return some d) n
            fun _ _ => True := by
        intro J hJ d ds b n
        split
        · exact (ensures_unprovided? hJ ds n).mono fun _ _ _ => trivial
        · exact Search.ensures_pure trivial
      refine (h.lockstep_anyProvides hI hρ hc (List.Subset.refl _)).bind
        (ensures_anyProvides hI c _ k) (ensures_anyProvides ignoresSupply_true _ _ k')
        (fun b n hn => hn) (fun b n _ => hrest hI c cs b n)
        (fun b n _ => hrest ignoresSupply_true _ _ b n) ?_
      rintro τ b _ n n' hn - hτ hagrees rfl
      split
      · have hsame : cs.map (Ty.rename ρ.map) = cs.map (Ty.rename τ.map) :=
          List.map_congr_left fun d hd => (hagrees.rename (hcs d hd)).symm
        rw [hsame]
        exact ih hτ fun d hd x hx => (hcs d hd x hx).mono hn
      · exact Search.lockstep_pure hτ trivial

variable (site) in
/-- Two judgements of which the second one, inside its own trail of goals, answers as the first one
does up to a renaming. -/
def JudgeLockstep (I : Memory → Prop) (G : Prop) (judge judge' : Judge) (trail trail' : Trail) :
    Prop :=
  ∀ (required required' : List Ty) (v : Viable) (n k n' k' : Nat) (ρ : Renaming),
    site.Trial required n k v → site.Trial required' n' k' (v.rename ρ) → ρ.Aligned k k' →
    Search.Lockstep I G ρ (judge trail v) k (judge' trail' (v.rename ρ)) k' fun τ a b =>
      b.viable? = a.viable?.map (Viable.rename τ)

section Requirements

variable {judge judge' : Judge} {trail trail' : Trail}

theorem ensures_judge (hjudge : site.JudgeSound I judge trail) {required : List Ty} {n : Nat}
    {v : Viable} (hv : site.Trial required n k v) :
    Search.Ensures I (judge trail v) k fun verdict k' => k ≤ k' ∧
      ∀ v', verdict.viable? = some v' → site.Resolved required n k' v' := by
  obtain ⟨hold, n', hv, hn, hk⟩ := hv
  exact hjudge required v n n' k hv hold hn hk

theorem Trial.mono {required : List Ty} {n : Nat} {v : Viable} (h : site.Trial required n k v)
    (hk : k ≤ k') : site.Trial required n k' v :=
  h.imp_right fun ⟨n', hv, hn, hn'⟩ => ⟨n', hv, hn, hn'.trans hk⟩

theorem ensures_judgeAll_of_trials (hjudge : site.JudgeSound I judge trail) {vs : List Viable}
    (hvs : ∀ v ∈ vs, ∃ required n, site.Trial required n k v) :
    Search.Ensures I (judgeAll judge trail vs) k fun _ k' => k ≤ k' := by
  induction vs generalizing k with
  | nil => exact Search.ensures_pure (Nat.le_refl k)
  | cons v vs ih =>
      obtain ⟨⟨required, n, hv⟩, hvs⟩ := List.forall_mem_cons.1 hvs
      refine (ensures_judge hjudge hv).bind fun verdict k₁ hverdict => ?_
      have hlater : ∀ w ∈ vs, ∃ required n, site.Trial required n k₁ w := by
        intro w hw
        obtain ⟨required, n, hw⟩ := hvs w hw
        exact ⟨required, n, hw.mono hverdict.1⟩
      refine (ih hlater).bind fun verdicts k₂ hk₂ => ?_
      exact Search.ensures_pure (hverdict.1.trans hk₂)

theorem lockstep_judgeAll (hsite : site.WellScoped) (hsound : site.JudgeSound I judge trail)
    (hsound' : site.JudgeSound (fun _ => True) judge' trail')
    (hjudge : site.JudgeLockstep I G judge judge' trail trail') {required required' : List Ty}
    {n n' : Nat} {vs : List Viable} (hvs : ∀ v ∈ vs, site.Trial required n k v)
    (hvs' : ∀ v ∈ vs, site.Trial required' n' k' (v.rename ρ)) (hρ : ρ.Aligned k k') :
    Search.Lockstep I G ρ (judgeAll judge trail vs) k
      (judgeAll judge' trail' (vs.map (Viable.rename ρ))) k' fun τ as bs =>
      bs.filterMap Verdict.viable? = (as.filterMap Verdict.viable?).map (Viable.rename τ) := by
  induction vs generalizing ρ k k' with
  | nil => exact Search.lockstep_pure hρ rfl
  | cons v vs ih =>
      obtain ⟨hv, hvs⟩ := List.forall_mem_cons.1 hvs
      obtain ⟨hv', hvs'⟩ := List.forall_mem_cons.1 hvs'
      refine (hjudge required required' v n k n' k' ρ hv hv' hρ).bind (ensures_judge hsound hv)
        (ensures_judge hsound' hv') (fun a k₁ ha => ha.1) (fun a k₁ ha => ?_) (fun b k₁ hb => ?_) ?_
      · exact (ensures_judgeAll_of_trials hsound
          fun w hw => ⟨required, n, (hvs w hw).mono ha.1⟩).bind
          fun _ _ _ => Search.ensures_pure trivial
      · refine (ensures_judgeAll_of_trials hsound' (List.forall_mem_map.2 fun w hw => ?_)).bind
          fun _ _ _ => Search.ensures_pure trivial
        exact ⟨required', n', (hvs' w hw).mono hb.1⟩
      rintro τ a b k₁ k₁' ⟨hk₁, ha⟩ ⟨hk₁', hb⟩ hτ hagrees hab
      have hmap : vs.map (Viable.rename ρ) = vs.map (Viable.rename τ) :=
        List.map_congr_left fun w hw => ((hvs w hw).rename_eq hsite hagrees).symm
      rw [hmap]
      have hrest := fun w hw => (hvs w hw).mono hk₁
      have hrest' : ∀ w ∈ vs, site.Trial required' n' k₁' (w.rename τ) := fun w hw =>
        (hvs w hw).rename_eq hsite hagrees ▸ (hvs' w hw).mono hk₁'
      refine (ih hrest hrest' hτ).map
        (ensures_judgeAll_of_trials hsound fun w hw => ⟨required, n, hrest w hw⟩)
        (ensures_judgeAll_of_trials hsound'
          (List.forall_mem_map.2 fun w hw => ⟨required', n', hrest' w hw⟩)) ?_
      rintro σ as bs k₂ k₂' - - hagrees' hbs
      rw [List.filterMap_cons, List.filterMap_cons, hab, hbs]
      cases hviable : a.viable? with
      | none => rfl
      | some w =>
          obtain ⟨hold, n₁, -, hn, hk⟩ := hv
          have hsame := (ha w hviable).rename_eq hsite hold (hn.trans (hk.trans hk₁)) hagrees'
          simp only [Option.map_some, List.map_cons, hsame]

theorem Named.choose_rename (h : site.Named) (c c' : Ty) {as bs : List Verdict}
    (hbs : bs.filterMap Verdict.viable? = (as.filterMap Verdict.viable?).map (Viable.rename ρ)) :
    (site.choose c' trail' bs).toOption =
      (site.choose c trail as).toOption.map (Viable.rename ρ) := by
  unfold choose
  rw [hbs]
  cases as.filterMap Verdict.viable? with
  | nil => rfl
  | cons v vs =>
      have hpreferred := h.preferred_rename ρ (v :: vs)
      rw [List.map_cons] at hpreferred ⊢
      simp only [hpreferred]
      rcases site.preferred (v :: vs) with _ | ⟨w, _ | ⟨w', ws⟩⟩ <;> rfl

theorem Named.lockstep_resolveWith (h : site.Named) (hsite : site.WellScoped)
    (hI : Memory.IgnoresSupply I) (hsound : site.JudgeSound I judge trail)
    (hsound' : site.JudgeSound (fun _ => True) judge' trail')
    (hjudge : site.JudgeLockstep I G judge judge' trail trail') {required : List Ty}
    (hold : ∀ c ∈ required, ∀ x ∈ c.vars, Old k x) (hρ : ρ.Aligned k k') :
    Search.Lockstep I G ρ (site.resolveWith judge required trail) k
      (site.resolveWith judge' (required.map (Ty.rename ρ.map)) trail') k' fun τ a b =>
      b.toOption = a.toOption.map (Viable.rename τ) := by
  have hold' := old_of_mem_map_rename hρ hold
  cases required with
  | nil => exact Search.lockstep_pure hρ rfl
  | cons c rest =>
      rw [List.map_cons] at hold' ⊢
      have hnone : ∀ {J : Memory → Prop} {required : List Ty} {n : Nat}
          {answer : Option Ty → Except (List Diagnostic) Viable}, Memory.IgnoresSupply J →
          Search.Ensures J (site.unprovided? required >>= fun missing => pure (answer missing)) n
            fun _ _ => True := fun hJ =>
        (ensures_unprovided? hJ _ _).bind fun _ _ _ => Search.ensures_pure trivial
      have hsome : ∀ {J : Memory → Prop} {judge : Judge} {trail : Trail} {required : List Ty}
          {n k : Nat} {vs : List Viable} {answer : List Verdict → Except (List Diagnostic) Viable},
          site.JudgeSound J judge trail → (∀ d ∈ required, ∀ x ∈ d.vars, Old n x) → n ≤ k →
          (∀ v ∈ vs, site.Candidate required n k v) →
          Search.Ensures J (judgeAll judge trail vs >>= fun verdicts => pure (answer verdicts)) k
            fun _ _ => True := fun hsound hold hn hvs =>
        (ensures_judgeAll hsound hold hvs hn (Nat.le_refl _)).bind fun _ _ _ =>
          Search.ensures_pure trivial
      refine (h.lockstep_matching hsite hI hρ hold).bind (ensures_matching hI _ k)
        (ensures_matching ignoresSupply_true _ k') (fun vs n hvs => hvs.1) (fun vs n hvs => ?_)
        (fun vs n hvs => ?_) ?_
      · cases vs with
        | nil => exact hnone hI
        | cons v vs => exact hsome hsound hold hvs.1 hvs.2
      · cases vs with
        | nil => exact hnone ignoresSupply_true
        | cons v vs => exact hsome hsound' hold' hvs.1 hvs.2
      rintro τ vs _ n n' ⟨hn, hvs⟩ ⟨hn', hvs'⟩ hτ hagrees rfl
      cases vs with
      | nil =>
          have hsame : (c :: rest).map (Ty.rename ρ.map) = (c :: rest).map (Ty.rename τ.map) :=
            List.map_congr_left fun d hd => (hagrees.rename (hold d hd)).symm
          rw [List.map_cons, List.map_cons] at hsame
          rw [hsame]
          exact (h.lockstep_unprovided? hI hτ fun d hd x hx => (hold d hd x hx).mono hn).map
            (ensures_unprovided? hI _ n) (ensures_unprovided? ignoresSupply_true _ n')
            fun _ _ _ _ _ _ _ _ _ => rfl
      | cons v vs =>
          refine (lockstep_judgeAll hsite hsound hsound' hjudge
            (fun w hw => ⟨hold, n, hvs w hw, hn, Nat.le_refl n⟩)
            (fun w hw => ⟨hold', n', hvs' _ (List.mem_map_of_mem hw), hn', Nat.le_refl n'⟩) hτ).map
            (ensures_judgeAll hsound hold hvs hn (Nat.le_refl n))
            (ensures_judgeAll hsound' hold' hvs' hn' (Nat.le_refl n')) ?_
          exact fun σ _ _ _ _ _ _ _ hbs => h.choose_rename c _ hbs

end Requirements

end Site

end ConceptResolution
