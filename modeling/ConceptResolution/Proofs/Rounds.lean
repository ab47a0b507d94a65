import ConceptResolution.Proofs.Run
import ConceptResolution.Search.Completion

namespace ConceptResolution

namespace Search

variable {α β : Type} {Φ : Memory → Prop}

def Takes (Φ : Memory → Prop) (x : Search α) (Ψ : α → Memory → Prop) : Prop :=
  ∀ m : Memory, Φ m → Ψ (x.run m).1 (x.run m).2

theorem takes_pure {a : α} {Ψ : α → Memory → Prop} (h : ∀ m, Φ m → Ψ a m) :
    Takes Φ (pure a) Ψ :=
  h

theorem Takes.bind {x : Search α} {f : α → Search β} {Ψ : α → Memory → Prop}
    {Χ : β → Memory → Prop} (h : Takes Φ x Ψ) (hf : ∀ a, Takes (Ψ a) (f a) Χ) :
    Takes Φ (x >>= f) Χ :=
  fun m hm => hf _ (x.run m).2 (h m hm)

end Search

namespace Site

variable {site : Site}

/-- What is known of a parameter: its argument, under a substitution, or what the substitution has
for it. -/
def known (s : Subst) (p : Param) : Option Ty → Option Ty
  | some t => some (s.apply t)
  | none => s.get? p.var

theorem unsolved?_cons_eq (p : Param) (arg : Option Ty) (rest : List (Param × Option Ty))
    (s : Subst) :
    site.unsolved? ((p, arg) :: rest) s =
      if site.scope.isFixed (known s p arg) then
        match known s p arg with
        | some t => site.unsolved? rest
            (if s.get? p.var = some t then s else (Subst.single p.var t).compose s)
        | none => site.unsolved? rest s
      else
        match p.kind with
        | .witness => (site.unsolved? rest s).map fun u => { u with witnesses := p :: u.witnesses }
        | .associated =>
          (site.unsolved? rest s).map fun u => { u with associated := p :: u.associated }
        | .ordinary => none := by
  cases arg <;> rfl

theorem unsolved?_cons {p : Param} {arg : Option Ty} {rest : List (Param × Option Ty)} {s : Subst}
    {u : Unsolved} (h : site.unsolved? ((p, arg) :: rest) s = some u) :
    (site.scope.isFixed (known s p arg) = true ∧ ∃ t, known s p arg = some t ∧
      site.unsolved? rest
        (if s.get? p.var = some t then s else (Subst.single p.var t).compose s) = some u) ∨
    (site.scope.isFixed (known s p arg) = false ∧ p.kind ≠ .ordinary ∧
      ∃ u', site.unsolved? rest s = some u' ∧ u.subst = u'.subst ∧
        u.witnesses = if p.isWitness then p :: u'.witnesses else u'.witnesses) := by
  rw [unsolved?_cons_eq] at h
  split at h
  · next hfixed =>
    refine .inl ⟨hfixed, ?_⟩
    split at h
    · next t hknown => exact ⟨t, hknown, h⟩
    · next hknown => simp [hknown, Scope.isFixed] at hfixed
  · next hopen =>
    refine .inr ⟨Bool.eq_false_iff.2 hopen, ?_⟩
    split at h
    · next hkind =>
      obtain ⟨u', hu', rfl⟩ := Option.map_eq_some_iff.1 h
      exact ⟨by simp [hkind], u', hu', rfl, by simp [Param.isWitness, hkind]⟩
    · next hkind =>
      obtain ⟨u', hu', rfl⟩ := Option.map_eq_some_iff.1 h
      exact ⟨by simp [hkind], u', hu', rfl, by simp [Param.isWitness, hkind]⟩
    · cases h

/-- What is true of the substitution at the start, and is kept by every known argument that is added
to it, is true of it in the end. -/
theorem of_unsolved? {P : Subst → Prop} {pairs : List (Param × Option Ty)} {s : Subst}
    {u : Unsolved}
    (hpairs : ∀ pair ∈ pairs, ∀ s t, P s → known s pair.1 pair.2 = some t →
      P ((Subst.single pair.1.var t).compose s))
    (hs : P s) (h : site.unsolved? pairs s = some u) : P u.subst := by
  induction pairs generalizing s u with
  | nil =>
      cases h
      exact hs
  | cons pair pairs ih =>
      obtain ⟨hpair, hpairs⟩ := List.forall_mem_cons.1 hpairs
      rcases unsolved?_cons h with ⟨-, t, ht, hu⟩ | ⟨-, -, u', hu', hsubst, -⟩
      · refine ih hpairs ?_ hu
        split
        · exact hs
        · exact hpair s t hs ht
      · rw [hsubst]
        exact ih hpairs hs hu'

theorem of_mem_vars_known {D V : TyVar → Prop} {s : Subst} (hs : s.Within D V) {p : Param}
    {arg : Option Ty} (harg : ∀ t, arg = some t → ∀ x ∈ t.vars, V x) {t : Ty}
    (hknown : known s p arg = some t) : ∀ x ∈ t.vars, V x := by
  cases arg with
  | none => exact (hs p.var t hknown).2
  | some u =>
      cases hknown
      exact hs.of_mem_vars_apply (harg u rfl)

theorem witnesses_of_unsolved? {pairs : List (Param × Option Ty)} {s : Subst} {u : Unsolved}
    (h : site.unsolved? pairs s = some u) :
    u.witnesses.Sublist ((pairs.map Prod.fst).filter Param.isWitness) := by
  induction pairs generalizing s u with
  | nil =>
      cases h
      exact .slnil
  | cons pair pairs ih =>
      rw [List.map_cons, List.filter_cons]
      rcases unsolved?_cons h with ⟨-, t, -, hrest⟩ | ⟨-, -, u', hrest, -, hwitnesses⟩
      · split
        · exact (ih hrest).cons pair.1
        · exact ih hrest
      · rw [hwitnesses]
        split
        · exact (ih hrest).cons_cons pair.1
        · exact ih hrest

theorem exists_of_mem_witnesses {pairs : List (Param × Option Ty)} {s : Subst} {u : Unsolved}
    (h : site.unsolved? pairs s = some u) {p : Param} (hp : p ∈ u.witnesses) :
    p.isWitness = true ∧ ∃ arg, (p, arg) ∈ pairs := by
  obtain ⟨hmem, hwitness⟩ := List.mem_filter.1 ((witnesses_of_unsolved? h).subset hp)
  obtain ⟨pair, hpair, rfl⟩ := List.mem_map.1 hmem
  exact ⟨hwitness, pair.2, hpair⟩

theorem start_of_unsolved? {D V : TyVar → Prop} {A : Param → Prop} (hA : ∀ p, A p → D p.var)
    {pairs : List (Param × Option Ty)} {s : Subst} {u : Unsolved}
    (hpairs : ∀ pair ∈ pairs, A pair.1 ∧ ∀ t, pair.2 = some t → ∀ x ∈ t.vars, V x)
    (hs : s.Within D V) (h : site.unsolved? pairs s = some u) :
    u.subst.Within D V ∧ ∀ p ∈ u.witnesses, A p := by
  refine ⟨of_unsolved? (fun pair hpair s t hs hknown => ?_) hs h, fun p hp => ?_⟩
  · obtain ⟨hparam, harg⟩ := hpairs pair hpair
    exact (Subst.within_single (hA _ hparam) (of_mem_vars_known hs harg hknown)).compose hs
  · obtain ⟨-, arg, hpair⟩ := exists_of_mem_witnesses h hp
    exact (hpairs _ hpair).1

theorem unsolved?_get? {s : Subst} (hs : s.Idempotent) (params : List Param) :
    site.unsolved? (params.zip (params.map fun p => s.get? p.var)) s =
      if params.any fun p => p.isOrdinary && !site.scope.isFixed (s.get? p.var) then none
      else some ⟨s, params.filter fun p => p.isWitness && !site.scope.isFixed (s.get? p.var),
        params.filter fun p => p.isAssociated && !site.scope.isFixed (s.get? p.var)⟩ := by
  induction params with
  | nil => rfl
  | cons p params ih =>
      have hknown : known s p (s.get? p.var) = s.get? p.var := by
        cases hget : s.get? p.var with
        | none => exact hget
        | some t => rw [known, ← Subst.lookup_of_get? hget, hs.apply_lookup]
      rw [List.map_cons, List.zip_cons_cons, unsolved?_cons_eq, hknown, List.any_cons,
        List.filter_cons, List.filter_cons]
      cases hfixed : site.scope.isFixed (s.get? p.var) with
      | true =>
          obtain ⟨t, ht⟩ : ∃ t, s.get? p.var = some t := by
            refine Option.ne_none_iff_exists'.1 fun hnone => ?_
            rw [hnone] at hfixed
            cases hfixed
          simp only [ht, ite_true, ih, Bool.not_true, Bool.and_false, Bool.false_or,
            Bool.false_eq_true, ite_false]
      | false =>
          rw [if_neg Bool.false_ne_true, ih]
          cases hkind : p.kind with
          | witness =>
              change Option.map (fun u : Unsolved => { u with witnesses := p :: u.witnesses }) _ = _
              rw [apply_ite (Option.map _)]
              simp only [Param.isOrdinary, Param.isWitness, Param.isAssociated, hkind]
              rfl
          | associated =>
              change
                Option.map (fun u : Unsolved => { u with associated := p :: u.associated }) _ = _
              rw [apply_ite (Option.map _)]
              simp only [Param.isOrdinary, Param.isWitness, Param.isAssociated, hkind]
              rfl
          | ordinary => simp [Param.isOrdinary, hkind]

theorem exists_withWitness (s : Subst) (p : Param) (v : Viable) :
    ∃ binding : Subst, s.withWitness p v = v.subst.compose (binding.compose s) ∧
      ∀ D V : TyVar → Prop, D p.var → (∀ x, s.get? p.var = some (.var x) → D x) →
        (∀ x ∈ v.ty.vars, V x) → binding.Within D V := by
  unfold Subst.withWitness
  split
  · next earlier hget =>
    exact ⟨_, rfl, fun D V hp hearlier hty =>
      (Subst.within_single hp hty).insert (hearlier earlier hget) hty⟩
  · exact ⟨_, rfl, fun D V hp _ hty => Subst.within_single hp hty⟩

theorem within_withWitness {D V : TyVar → Prop} {s : Subst} (hs : s.Within D V) {p : Param}
    (hp : D p.var) (hearlier : ∀ x, s.get? p.var = some (.var x) → D x) {v : Viable}
    (hty : ∀ x ∈ v.ty.vars, V x) (hv : v.subst.Within D V) : (s.withWitness p v).Within D V := by
  obtain ⟨binding, heq, hbinding⟩ := exists_withWitness s p v
  rw [heq]
  exact hv.compose ((hbinding D V hp hearlier hty).compose hs)

def answered (r : Round) (p : Param) : Except (List Diagnostic) Viable → Round
  | .ok v => { r with subst := r.subst.withWitness p v, progressed := true }
  | .error diagnostics =>
    { r with pending := r.pending ++ [p], diagnostics := r.diagnostics ++ diagnostics }

theorem answered_error_nil (r : Round) (p : Param) :
    answered r p (.error []) = { r with pending := r.pending ++ [p] } := by
  rw [answered, List.append_nil]

theorem attempt_eq (judge : Judge) (trail : Trail) (r : Round) (p : Param) :
    site.attempt judge trail r p =
      if site.scope.isFixed (r.subst.get? p.var) then pure r
      else site.resolveWith judge (site.model.required p r.subst) trail >>= fun answer =>
        pure (answered r p answer) := by
  unfold attempt
  split
  · rfl
  · cases site.model.required p r.subst with
    | nil => rw [resolveWith, pure_bind, answered_error_nil]
    | cons c cs =>
        refine bind_congr fun answer => ?_
        cases answer <;> rfl

/-- Inference fails for an associated parameter that is left standing for itself. -/
def determined (associated : List Param) :
    Except (List Diagnostic) Subst → Except (List Diagnostic) Subst
  | .error diagnostics => .error diagnostics
  | .ok s => if associated.any fun p => s.lookup p.var == p.ty then .error [] else .ok s

theorem ok_of_determined {associated : List Param} {result : Except (List Diagnostic) Subst}
    {s : Subst} (h : determined associated result = .ok s) : result = .ok s := by
  cases result with
  | error diagnostics => cases h
  | ok s' =>
      rw [determined] at h
      split at h
      · cases h
      · exact h

theorem inferWith_eq (judge : Judge) (params : List Param) (args : List (Option Ty)) (seed : Subst)
    (trail : Trail) : site.inferWith judge params args seed trail =
      if params.length ≠ args.length then pure (.error [])
      else match site.unsolved? (params.zip args) seed with
        | none => pure (.error [])
        | some u => site.rounds judge trail u.witnesses.length u.witnesses u.subst >>= fun result =>
            pure (determined u.associated result) := by
  unfold inferWith
  split
  · rfl
  · cases site.unsolved? (params.zip args) seed with
    | none => rfl
    | some u =>
        refine bind_congr fun result => ?_
        cases result with
        | error diagnostics => rfl
        | ok s => exact (apply_ite pure _ _ _).symm

section Kept

variable (site) in
/-- An assertion about the witnesses that are open, the substitution and what is remembered. It is
kept where a witness is fixed already, and by the search for one that is not, whatever it finds. -/
structure AttemptsKeep (judge : Judge) (trail : Trail) (P : List Param → Subst → Memory → Prop) :
    Prop where
  fixed : ∀ {before after : List Param} {p : Param} {s : Subst} {m : Memory},
    P (before ++ p :: after) s m → site.scope.isFixed (s.get? p.var) = true →
    P (before ++ after) s m
  tried : ∀ {before after : List Param} {p : Param} {s : Subst},
    ¬site.scope.isFixed (s.get? p.var) = true →
    Search.Takes (P (before ++ p :: after) s)
      (site.resolveWith judge (site.model.required p s) trail) fun answer m =>
        (∀ v, answer = .ok v → P (before ++ after) (s.withWitness p v) m) ∧
        ∀ diagnostics, answer = .error diagnostics → P (before ++ p :: after) s m

/-- An assertion is true at the end, and where there is a substitution then no witness is open. -/
def Concludes (P : List Param → Subst → Memory → Prop) (result : Except (List Diagnostic) Subst)
    (m : Memory) : Prop :=
  (∀ s, result = .ok s → P [] s m) ∧ ∃ ps s, P ps s m

variable {judge : Judge} {trail : Trail} {P : List Param → Subst → Memory → Prop}

theorem concludes_ok {s : Subst} {m : Memory} (h : P [] s m) : Concludes P (.ok s) m :=
  ⟨by rintro s' ⟨⟩; exact h, [], s, h⟩

theorem concludes_error {ps : List Param} {s : Subst} {m : Memory} (h : P ps s m)
    (diagnostics : List Diagnostic) : Concludes P (.error diagnostics) m :=
  ⟨fun s' hs' => (by cases hs'), ps, s, h⟩

theorem AttemptsKeep.attempt (h : site.AttemptsKeep judge trail P) (r : Round) (p : Param)
    (after : List Param) :
    Search.Takes (P (r.pending ++ p :: after) r.subst) (site.attempt judge trail r p) fun r' =>
      P (r'.pending ++ after) r'.subst := by
  -- what the round has passed over comes first, what it has not got to yet comes last
  rw [attempt_eq]
  split
  · next hfixed => exact Search.takes_pure fun m hm => h.fixed hm hfixed
  · next hopen =>
    refine (h.tried hopen).bind fun answer => Search.takes_pure fun m ⟨hsolved, hmissed⟩ => ?_
    cases answer with
    | ok v => exact hsolved v rfl
    | error diagnostics =>
        rw [answered, ← List.append_cons]
        exact hmissed diagnostics rfl

theorem AttemptsKeep.round (h : site.AttemptsKeep judge trail P) (ps : List Param) (r : Round) :
    Search.Takes (P (r.pending ++ ps) r.subst) (ps.foldlM (site.attempt judge trail) r) fun r' =>
      P r'.pending r'.subst := by
  induction ps generalizing r with
  | nil => exact Search.takes_pure fun m hm => by rwa [List.append_nil] at hm
  | cons p ps ih =>
      rw [List.foldlM_cons]
      exact (h.attempt r p ps).bind ih

theorem AttemptsKeep.rounds (h : site.AttemptsKeep judge trail P) (fuel : Nat) (ps : List Param)
    (s : Subst) : Search.Takes (P ps s) (site.rounds judge trail fuel ps s) (Concludes P) := by
  induction fuel generalizing ps s with
  | zero =>
      cases ps with
      | nil => exact Search.takes_pure fun m => concludes_ok
      | cons p ps => exact Search.takes_pure fun m hm => concludes_error hm []
  | succ fuel ih =>
      cases ps with
      | nil => exact Search.takes_pure fun m => concludes_ok
      | cons p ps =>
          refine (h.round (p :: ps) ⟨s, [], [], false⟩).bind fun r => ?_
          split
          · next hempty =>
            rw [List.isEmpty_iff.1 hempty]
            exact Search.takes_pure fun m => concludes_ok
          · split
            · exact ih r.pending r.subst
            · exact Search.takes_pure fun m hm => concludes_error hm r.diagnostics

end Kept

section Supply

variable (site) in
/-- An assertion about the witnesses that are open, the substitution and how far the supply of fresh
variables has got, which is kept as long as an invariant holds of what is remembered. -/
structure AttemptsEnsure (I : Memory → Prop) (judge : Judge) (trail : Trail)
    (Q : List Param → Subst → Nat → Prop) : Prop where
  mono : ∀ {ps : List Param} {s : Subst} {k k' : Nat}, Q ps s k → k ≤ k' → Q ps s k'
  fixed : ∀ {before after : List Param} {p : Param} {s : Subst} {k : Nat},
    Q (before ++ p :: after) s k → site.scope.isFixed (s.get? p.var) = true →
    Q (before ++ after) s k
  tried : ∀ {before after : List Param} {p : Param} {s : Subst} {k : Nat},
    Q (before ++ p :: after) s k → ¬site.scope.isFixed (s.get? p.var) = true →
    Search.Ensures I (site.resolveWith judge (site.model.required p s) trail) k fun answer k' =>
      k ≤ k' ∧ ∀ v, answer = .ok v → Q (before ++ after) (s.withWitness p v) k'

variable {I : Memory → Prop} {judge : Judge} {trail : Trail} {Q : List Param → Subst → Nat → Prop}

theorem AttemptsEnsure.attemptsKeep (h : site.AttemptsEnsure I judge trail Q) (c k : Nat) :
    site.AttemptsKeep judge trail fun ps s m =>
      I m ∧ c ≤ m.cycles ∧ k ≤ m.supply.next ∧ Q ps s m.supply.next where
  fixed := fun ⟨hm, hc, hk, hQ⟩ hfixed => ⟨hm, hc, hk, h.fixed hQ hfixed⟩
  tried := fun hopen m ⟨hm, hc, hk, hQ⟩ => by
    obtain ⟨hm', hc', hk', hsolved⟩ := h.tried hQ hopen m hm rfl
    exact ⟨fun v hv => ⟨hm', Nat.le_trans hc hc', Nat.le_trans hk hk', hsolved v hv⟩,
      fun _ _ => ⟨hm', Nat.le_trans hc hc', Nat.le_trans hk hk', h.mono hQ hk'⟩⟩

theorem AttemptsEnsure.attempt (h : site.AttemptsEnsure I judge trail Q) {r : Round} {p : Param}
    {after : List Param} {k : Nat} (hr : Q (r.pending ++ p :: after) r.subst k) :
    Search.Ensures I (site.attempt judge trail r p) k fun r' k' =>
      k ≤ k' ∧ Q (r'.pending ++ after) r'.subst k' := by
  rintro m hm rfl
  exact (h.attemptsKeep m.cycles m.supply.next).attempt r p after m
    ⟨hm, Nat.le_refl _, Nat.le_refl _, hr⟩

theorem AttemptsEnsure.round (h : site.AttemptsEnsure I judge trail Q) {ps : List Param} {r : Round}
    {k : Nat} (hr : Q (r.pending ++ ps) r.subst k) :
    Search.Ensures I (ps.foldlM (site.attempt judge trail) r) k fun r' k' =>
      k ≤ k' ∧ Q r'.pending r'.subst k' := by
  rintro m hm rfl
  exact (h.attemptsKeep m.cycles m.supply.next).round ps r m
    ⟨hm, Nat.le_refl _, Nat.le_refl _, hr⟩

theorem AttemptsEnsure.rounds (h : site.AttemptsEnsure I judge trail Q) {fuel : Nat}
    {ps : List Param} {s : Subst} {k : Nat} (hs : Q ps s k) :
    Search.Ensures I (site.rounds judge trail fuel ps s) k fun result k' =>
      k ≤ k' ∧ ∀ s', result = .ok s' → Q [] s' k' := by
  rintro m hm rfl
  obtain ⟨hok, -, -, hm', hc, hk, -⟩ := (h.attemptsKeep m.cycles m.supply.next).rounds fuel ps s m
    ⟨hm, Nat.le_refl _, Nat.le_refl _, hs⟩
  exact ⟨hm', hc, hk, fun s' hs' => (hok s' hs').2.2.2⟩

theorem AttemptsEnsure.inferWith (h : site.AttemptsEnsure I judge trail Q) {params : List Param}
    {args : List (Option Ty)} {seed : Subst} {k : Nat}
    (hstart : ∀ u, site.unsolved? (params.zip args) seed = some u → Q u.witnesses u.subst k) :
    Search.Ensures I (site.inferWith judge params args seed trail) k fun result k' =>
      k ≤ k' ∧ ∀ s, result = .ok s → Q [] s k' := by
  rw [inferWith_eq]
  split
  · exact Search.ensures_pure ⟨Nat.le_refl k, fun s hs => by cases hs⟩
  · split
    · exact Search.ensures_pure ⟨Nat.le_refl k, fun s hs => by cases hs⟩
    · next u hu =>
      refine (h.rounds (hstart u hu)).bind fun result k' ⟨hk', hresult⟩ => ?_
      exact Search.ensures_pure ⟨hk', fun s hs => hresult s (ok_of_determined hs)⟩

end Supply

end Site

end ConceptResolution
