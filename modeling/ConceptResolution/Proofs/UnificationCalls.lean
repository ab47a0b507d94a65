import ConceptResolution.Proofs.Levels
import Mathlib.Order.WellFounded

namespace ConceptResolution

/-- One level of unification, with another function to unify the parts. -/
def unifyBy (rigid : List TyVar) (parts : Ty → Ty → Subst → Except UnifyError Subst)
    (provided required : Ty) (s : Subst) : Except UnifyError Subst :=
  match s.apply provided, s.apply required with
  | .var v, .var w => bindVars rigid v w s
  | .var v, t => bindVar rigid v t s
  | t, .var v => bindVar rigid v t s
  | t, u => do
    (← partsOf t u).foldlM (fun s pair => parts pair.1 pair.2 s) s

/-- A call of unification: what it is to unify, and the substitution found so far. -/
structure UnifyCall where
  provided : Ty
  required : Ty
  subst : Subst

namespace UnifyCall

/-- A call has its parts unified in turn, each pair under the substitution that the pairs before it
have come to. -/
def MadeBy (parts : Ty → Ty → Subst → Except UnifyError Subst) (c' c : UnifyCall) : Prop :=
  ∃ before after,
    partsOf (c.subst.apply c.provided) (c.subst.apply c.required) =
      .ok (before ++ (c'.provided, c'.required) :: after) ∧
    before.foldlM (fun s pair => parts pair.1 pair.2 s) c.subst = .ok c'.subst

end UnifyCall

section Folds

variable {ε α β : Type} {f g : β → α → Except ε β} {b : β}

theorem foldlM_congr_reached {as : List α}
    (h : ∀ before a after c,
      as = before ++ a :: after → before.foldlM g b = .ok c → f c a = g c a) :
    as.foldlM f b = as.foldlM g b := by
  induction as generalizing b with
  | nil => rfl
  | cons a as ih =>
      rw [List.foldlM_cons, List.foldlM_cons, h [] a as b rfl rfl]
      cases hfirst : g b a with
      | error e => rfl
      | ok b' =>
          refine ih fun before a' after c has hbefore => h (a :: before) a' after c ?_ ?_
          · rw [has, List.cons_append]
          · rw [List.foldlM_cons, hfirst]
            exact hbefore

theorem foldlM_eq_error_of_reached {before after : List α} {a : α} {c : β} {e : ε}
    (hbefore : before.foldlM g b = .ok c) (ha : g c a = .error e) :
    (before ++ a :: after).foldlM g b = .error e := by
  rw [List.foldlM_append, hbefore]
  change (a :: after).foldlM g c = .error e
  rw [List.foldlM_cons, ha]
  rfl

end Folds

section Calls

variable {rigid : List TyVar} {f g : Ty → Ty → Subst → Except UnifyError Subst} {p r : Ty}
  {s : Subst}

theorem unifyBy_congr
    (h : ∀ c : UnifyCall, c.MadeBy g ⟨p, r, s⟩ →
      f c.provided c.required c.subst = g c.provided c.required c.subst) :
    unifyBy rigid f p r s = unifyBy rigid g p r s := by
  unfold unifyBy
  split
  · rfl
  · rfl
  · rfl
  · cases hparts : partsOf (s.apply p) (s.apply r) with
    | error e => rfl
    | ok pairs =>
        refine foldlM_congr_reached fun before pair after s' hpairs hbefore => ?_
        exact h ⟨pair.1, pair.2, s'⟩ ⟨before, after, hpairs ▸ hparts, hbefore⟩

theorem ne_var_of_partsOf {t u : Ty} {pairs : List (Ty × Ty)} (h : partsOf t u = .ok pairs) :
    (∀ v, t ≠ .var v) ∧ ∀ v, u ≠ .var v := by
  cases alike_of_partsOf h <;> exact ⟨nofun, nofun⟩

theorem UnifyCall.MadeBy.unifyBy_eq_error {c : UnifyCall} (hc : c.MadeBy g ⟨p, r, s⟩)
    {e : UnifyError}
    (he : g c.provided c.required c.subst = .error e) : unifyBy rigid g p r s = .error e := by
  obtain ⟨before, after, hparts, hbefore⟩ := hc
  obtain ⟨hp, hr⟩ := ne_var_of_partsOf hparts
  unfold unifyBy
  split
  · next hvar _ => exact absurd hvar (hp _)
  · next hvar _ => exact absurd hvar (hp _)
  · next hvar _ => exact absurd hvar (hr _)
  · rw [hparts]
    exact foldlM_eq_error_of_reached hbefore he

theorem UnifyCall.MadeBy.finished {c : UnifyCall} (hc : c.MadeBy g ⟨p, r, s⟩)
    (h : Finished (unifyBy rigid g p r s)) : Finished (g c.provided c.required c.subst) :=
  fun t u he => h t u (hc.unifyBy_eq_error he)

theorem unifyWithin_succ (levels : Nat) (p r : Ty) (s : Subst) :
    unifyWithin rigid (levels + 1) p r s = unifyBy rigid (unifyWithin rigid levels) p r s :=
  rfl

theorem unifyWithin_eq_of_le {m n : Nat} (hle : m ≤ n) (h : Finished (unifyWithin rigid m p r s)) :
    unifyWithin rigid n p r s = unifyWithin rigid m p r s := by
  induction m generalizing n p r s with
  | zero => exact absurd rfl (h p r)
  | succ m ih =>
      cases n with
      | zero => omega
      | succ n =>
          rw [unifyWithin_succ, unifyWithin_succ]
          exact unifyBy_congr fun c hc => ih (Nat.le_of_succ_le_succ hle) (hc.finished h)

theorem unifyWithin_eq_unify (hs : s.Idempotent) {levels : Nat}
    (h : Finished (unifyWithin rigid levels p r s)) :
    unifyWithin rigid levels p r s = unify rigid p r s := by
  rcases Nat.le_total levels (unifyLevels p r s) with hle | hle
  · exact (unifyWithin_eq_of_le hle h).symm
  · exact unifyWithin_eq_of_le hle (finished_unify p r hs)

theorem UnifyCall.MadeBy.idempotent {c' c : UnifyCall} (hc : c'.MadeBy g c)
    (hg : ∀ {p r : Ty} {s s' : Subst}, g p r s = .ok s' → Unifies rigid [(p, r)] s s')
    (h : c.subst.Idempotent) : c'.subst.Idempotent := by
  obtain ⟨before, after, -, hbefore⟩ := hc
  exact ((Unifies.of_foldlM hg hbefore).sound h).1

theorem unify_eq_unifyBy (hs : s.Idempotent) :
    unify rigid p r s = unifyBy rigid (unify rigid) p r s := by
  obtain ⟨levels, hlevels⟩ : ∃ levels, unifyLevels p r s = levels + 1 :=
    Nat.exists_eq_add_one.2 (Nat.mul_pos (Nat.succ_pos _) (Nat.succ_pos _))
  have hrun : unify rigid p r s = unifyBy rigid (unifyWithin rigid levels) p r s := by
    rw [unify, hlevels, unifyWithin_succ]
  rw [hrun]
  -- a part is not given the levels here that it would be given on its own, but enough of them
  refine (unifyBy_congr fun c hc => ?_).symm
  have hfinished : Finished (unifyBy rigid (unifyWithin rigid levels) p r s) :=
    hrun ▸ finished_unify p r hs
  exact (unifyWithin_eq_unify (hc.idempotent Unifies.of_unifyWithin hs)
    (hc.finished hfinished)).symm

end Calls

namespace UnifyCall

variable {rigid : List TyVar} {V : Finset TyVar} {c c' : UnifyCall}

structure Over (V : Finset TyVar) (c : UnifyCall) : Prop where
  idempotent : c.subst.Idempotent
  provided : ∀ v ∈ c.provided.vars, v ∈ V
  required : ∀ v ∈ c.required.vars, v ∈ V
  subst : ∀ v, c.subst.Occurs v → v ∈ V

theorem exists_over (h : c.subst.Idempotent) : ∃ V, c.Over V := by
  let images := c.subst.bindings.map Prod.snd
  refine ⟨(c.provided.vars ++ c.required.vars ++ c.subst.domain ++ Ty.varsAll images).toFinset, h,
    ?_, ?_, ?_⟩
  · exact fun v hv => by simp [hv]
  · exact fun v hv => by simp [hv]
  · rintro v (hv | ⟨w, t, hw, hv⟩)
    · simp [hv]
    · have himage : t ∈ images := List.mem_map.2 ⟨(w, t), Subst.get?_eq_some_iff.1 hw, rfl⟩
      simp [Ty.mem_varsAll_iff.2 ⟨t, himage, hv⟩]

def weight (V : Finset TyVar) (c : UnifyCall) : Nat × Nat :=
  (c.subst.unbound V, (c.subst.apply c.provided).height)

/-- A call is made after a variable has been bound, or else it goes to lower types. -/
theorem Over.of_madeBy (hc : c.Over V) (h : c'.MadeBy (unify rigid) c) :
    c'.Over V ∧ Prod.Lex (· < ·) (· < ·) (c'.weight V) (c.weight V) := by
  obtain ⟨before, after, hparts, hbefore⟩ := h
  have hrun := Unifies.of_foldlM Unifies.of_unify hbefore
  have hvars := fun pair (hpair : pair ∈ before ++ (c'.provided, c'.required) :: after) =>
    mem_of_mem_vars_partsOf hc.subst hc.provided hc.required hparts hpair
  have hlower := fun pair (hpair : pair ∈ before ++ (c'.provided, c'.required) :: after) =>
    height_apply_lt_of_partsOf hc.idempotent hparts hpair
  have hhere : (c'.provided, c'.required) ∈ before ++ (c'.provided, c'.required) :: after := by simp
  have hearlier : ∀ pair ∈ before, pair ∈ before ++ (c'.provided, c'.required) :: after :=
    fun pair hpair => List.mem_append_left _ hpair
  refine ⟨⟨(hrun.sound hc.idempotent).1, (hvars _ hhere).1, (hvars _ hhere).2, fun v =>
    hrun.mem_of_occurs hc.subst fun pair hpair => hvars pair (hearlier pair hpair)⟩, ?_⟩
  obtain ⟨k, hk, hsame, -⟩ := hrun.height_apply_le hc.idempotent hc.subst
    (n := max (c.subst.apply c.provided).height (c.subst.apply c.required).height)
    (fun pair hpair => hvars pair (hearlier pair hpair)) (fun pair hpair => by
      have := hlower pair (hearlier pair hpair)
      omega)
  -- the pairs before the call have bound `k` variables or more
  rcases Nat.eq_zero_or_pos k with hzero | hpos
  · have hsubst := hsame hzero
    rw [weight, weight, hsubst]
    exact .right _ (hlower _ hhere).1
  · exact .left _ _ (by omega)

theorem Over.acc (hc : c.Over V) : Acc (MadeBy (unify rigid)) c := by
  have hwf : WellFounded (InvImage (Prod.Lex (· < ·) (· < ·)) (weight V)) :=
    InvImage.wf _ (WellFounded.prod_lex Nat.lt_wfRel.wf Nat.lt_wfRel.wf)
  induction c using hwf.induction with
  | h c ih =>
      refine .intro c fun c' h => ?_
      obtain ⟨hc', hless⟩ := hc.of_madeBy h
      exact ih c' hless hc'

end UnifyCall

theorem UnifyCall.eq_unify_of_acc {rigid : List TyVar}
    {f : Ty → Ty → Subst → Except UnifyError Subst}
    (hf : ∀ p r s, s.Idempotent → f p r s = unifyBy rigid f p r s) {c : UnifyCall}
    (hacc : Acc (MadeBy (unify rigid)) c) (hc : c.subst.Idempotent) :
    f c.provided c.required c.subst = unify rigid c.provided c.required c.subst := by
  induction hacc with
  | intro c _ ih =>
      rw [hf _ _ _ hc, unify_eq_unifyBy hc]
      exact unifyBy_congr fun c' h => ih c' h (h.idempotent Unifies.of_unify hc)

/-- Unification under an idempotent substitution ends: there is no infinite chain of calls, and it
comes to a substitution or to a reason why there is none. It is what its recursion says, and nothing
else is. -/
theorem unify_ends {rigid : List TyVar} {provided required : Ty} {s : Subst} (hs : s.Idempotent) :
    Acc (UnifyCall.MadeBy (unify rigid)) ⟨provided, required, s⟩ ∧
      Finished (unify rigid provided required s) ∧
      unify rigid provided required s = unifyBy rigid (unify rigid) provided required s ∧
      ∀ f : Ty → Ty → Subst → Except UnifyError Subst,
        (∀ p r s, s.Idempotent → f p r s = unifyBy rigid f p r s) →
        f provided required s = unify rigid provided required s := by
  obtain ⟨V, hV⟩ := UnifyCall.exists_over (c := ⟨provided, required, s⟩) hs
  exact ⟨hV.acc, finished_unify provided required hs, unify_eq_unifyBy hs, fun f hf =>
    UnifyCall.eq_unify_of_acc hf hV.acc hs⟩

/-- The last call is given a higher type than its caller. -/
theorem unify_ends_growing :
    let a : TyVar := ⟨"'a"⟩
    let b : TyVar := ⟨"'b"⟩
    let c : TyVar := ⟨"'c"⟩
    let provided : Ty := .tuple [.var a, .var b, .var c]
    let required : Ty := .tuple [.list .int, .tuple [.var a, .var a], .tuple [.var b, .var b]]
    Subst.empty.Idempotent ∧
      (∃ s, UnifyCall.MadeBy (unify []) ⟨.var c, .tuple [.var b, .var b], s⟩
        ⟨provided, required, .empty⟩ ∧
        provided.height < required.height ∧
        required.height < (s.apply (.tuple [.var b, .var b])).height) ∧
      Acc (UnifyCall.MadeBy (unify [])) ⟨provided, required, .empty⟩ ∧
      unify [] provided required .empty = unifyBy [] (unify []) provided required .empty ∧
      (unify [] provided required .empty).isOk = true := by
  intro a b c provided required
  obtain ⟨hacc, -, hrecursion, -⟩ := @unify_ends [] provided required .empty Subst.idempotent_empty
  let before : List (Ty × Ty) := [(.var a, .list .int), (.var b, .tuple [.var a, .var a])]
  have hbefore :
      (before.foldlM (fun s pair => unify [] pair.1 pair.2 s) .empty).toOption.any (fun s =>
      decide (required.height < (s.apply (.tuple [.var b, .var b])).height)) := by
    decide +kernel
  refine ⟨Subst.idempotent_empty, ?_, hacc, hrecursion, by decide +kernel⟩
  cases h : before.foldlM (fun s pair => unify [] pair.1 pair.2 s) .empty with
  | error e => simp [h, Except.toOption] at hbefore
  | ok s =>
      refine ⟨s, ⟨before, [], ?_, h⟩, by decide +kernel, ?_⟩
      · rfl
      · simpa [h, Except.toOption] using hbefore

end ConceptResolution
