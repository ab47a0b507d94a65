import ConceptResolution.Proofs.Substitution
import Mathlib.Algebra.Group.Nat.Defs
import Mathlib.Data.Finset.Card
import Mathlib.Logic.Function.Iterate
import Mathlib.Logic.Relation

/-!
Composition yields solved forms. A round of self-application squares a substitution, so that as many
rounds as there are bindings follow every chain of bindings to its end, unless some chain is a
cycle. What comes out has the meaning of both parts.
-/

namespace ConceptResolution

namespace Subst

variable {s s' outer inner raw : Subst} {u v w : TyVar} {t : Ty}

/-- One bound variable occurs in the image of another one. -/
def Feeds (s : Subst) (u v : TyVar) : Prop :=
  u ∈ s.domain ∧ ∃ t, s.get? v = some t ∧ u ∈ t.vars

def Acyclic (s : Subst) : Prop :=
  ∀ v, ¬Relation.TransGen s.Feeds v v

theorem acyclic_of_rank (rank : TyVar → Nat)
    (h : ∀ v t, s.get? v = some t → ∀ u ∈ t.vars, u ∈ s.domain → rank u < rank v) :
    s.Acyclic := by
  have hstep : ∀ {u v}, s.Feeds u v → rank u < rank v := by
    rintro u v ⟨hu, t, hv, hut⟩
    exact h v t hv u hut hu
  have hlt : ∀ {u v}, Relation.TransGen s.Feeds u v → rank u < rank v := by
    intro u v huv
    induction huv with
    | single hfeeds => exact hstep hfeeds
    | tail _ hfeeds ih => exact ih.trans (hstep hfeeds)
  exact fun v hv => Nat.lt_irrefl _ (hlt hv)

theorem apply_selfApply (s : Subst) (t : Ty) : s.selfApply.apply t = s.apply (s.apply t) := by
  rw [apply_apply]
  refine Ty.subst_congr fun v _ => ?_
  rw [selfApply_eq, lookup, lookup, get?_mapImages]
  cases hv : s.get? v with
  | none => exact (lookup_of_notMem (get?_eq_none_iff.1 hv)).symm
  | some t => rfl

/-- Every round squares the map. -/
theorem apply_settle (n : Nat) (s : Subst) (t : Ty) :
    (settle n s).apply t = s.apply^[2 ^ n] t := by
  rw [settle_eq_iterate]
  induction n generalizing t with
  | zero => rfl
  | succ n ih =>
      rw [Nat.repeat, apply_selfApply, ih, ih, ← Function.iterate_add_apply, Nat.pow_succ,
        Nat.mul_two]

theorem domain_settle (n : Nat) (s : Subst) : (settle n s).domain = s.domain := by
  induction n generalizing s with
  | zero => rfl
  | succ n ih =>
      rw [settle]
      split
      · rfl
      · rw [ih, selfApply_eq]
        simp [domain, mapImages]

open Classical in
noncomputable def feeders (s : Subst) (v : TyVar) : Finset TyVar :=
  s.domain.toFinset.filter fun u => Relation.TransGen s.Feeds u v

theorem card_feeders_le (s : Subst) (v : TyVar) : (s.feeders v).card ≤ s.size := by
  classical
  have hlength : s.domain.length = s.size := List.length_map Prod.fst
  exact hlength ▸ (Finset.card_filter_le s.domain.toFinset _).trans s.domain.toFinset_card_le

theorem Acyclic.card_feeders_lt (h : s.Acyclic) (huv : s.Feeds u v) :
    (s.feeders u).card < (s.feeders v).card := by
  classical
  refine Finset.card_lt_card ⟨fun w hw => ?_, fun hsubset => ?_⟩
  · obtain ⟨hdomain, hwu⟩ := Finset.mem_filter.1 hw
    exact Finset.mem_filter.2 ⟨hdomain, hwu.tail huv⟩
  · have hu : u ∈ s.feeders v :=
      Finset.mem_filter.2 ⟨List.mem_toFinset.2 huv.1, Relation.TransGen.single huv⟩
    exact h u (Finset.mem_filter.1 (hsubset hu)).2

theorem Acyclic.card_feeders_add_le (h : s.Acyclic) {n : Nat}
    (hw : w ∈ (s.apply^[n] (.var v)).vars) (hdomain : w ∈ s.domain) :
    (s.feeders w).card + n ≤ (s.feeders v).card := by
  induction n generalizing w with
  | zero =>
      rw [List.mem_singleton.1 hw]
      exact Nat.le_refl _
  | succ n ih =>
      rw [Function.iterate_succ_apply'] at hw
      obtain ⟨u, hu, hwu⟩ := Ty.mem_vars_subst.1 hw
      -- Only a bound variable is replaced, so `w` can stem from a free one only by being it.
      rcases Decidable.em (u ∈ s.domain) with hudomain | hufree
      · have hfeeds : s.Feeds w u := ⟨hdomain, s.lookup u, get?_eq_some_lookup hudomain, hwu⟩
        have hlt := h.card_feeders_lt hfeeds
        have hle := ih hu hudomain
        omega
      · rw [lookup_of_notMem hufree] at hwu
        exact absurd (List.mem_singleton.1 hwu ▸ hdomain) hufree

theorem Acyclic.notMem_domain_of_settle (h : s.Acyclic)
    (hw : w ∈ ((settle s.size s).lookup v).vars) : w ∉ s.domain := by
  intro hdomain
  rw [← apply_var, apply_settle] at hw
  have hle := h.card_feeders_add_le hw hdomain
  have hbound := s.card_feeders_le v
  have hpow : s.size < 2 ^ s.size := Nat.lt_two_pow_self
  omega

theorem Acyclic.solved_settle (h : s.Acyclic) : (settle s.size s).Solved := by
  intro v t hv w hw
  rw [domain_settle]
  exact h.notMem_domain_of_settle (lookup_of_get? hv ▸ hw)

theorem Acyclic.extends_settle (h : s.Acyclic) : (settle s.size s).Extends s := by
  intro t
  have hfix : s.apply ((settle s.size s).apply t) = (settle s.size s).apply t := by
    refine apply_eq_self_iff.2 fun w hw => lookup_of_notMem ?_
    obtain ⟨u, -, hwu⟩ := Ty.mem_vars_subst.1 hw
    exact h.notMem_domain_of_settle hwu
  rw [apply_settle] at hfix ⊢
  rw [apply_settle, ← Function.iterate_succ_apply, Function.iterate_succ_apply', hfix]

theorem mem_domain_congr (hget : ∀ v, s'.get? v = s.get? v) : v ∈ s'.domain ↔ v ∈ s.domain := by
  rw [mem_domain_iff, mem_domain_iff, hget]

theorem Acyclic.congr (h : s.Acyclic) (hget : ∀ v, s'.get? v = s.get? v) : s'.Acyclic := by
  intro v hv
  have hfeeds : s'.Feeds = s.Feeds := by
    funext u w
    rw [Feeds, Feeds, hget, mem_domain_congr hget]
  rw [hfeeds] at hv
  exact h v hv

theorem dropTrivial_eq_self (h : ∀ v, s.get? v ≠ some (.var v)) : s.dropTrivial = s := by
  have hbindings : s.dropTrivial.bindings = s.bindings := by
    refine List.filter_eq_self.2 fun b hb => ?_
    simpa [get?_eq_some_iff.2 hb] using h b.1
  cases s
  cases hs : dropTrivial _
  simp_all

/-- A variable that `outer` binds is sent there, any other one through `inner` and then `outer`;
none is sent to itself. -/
def Joins (raw outer inner : Subst) : Prop :=
  ∀ v, raw.get? v = ((outer.get? v).or ((inner.get? v).map outer.apply)).filter (· != .var v)

theorem joins_join (outer inner : Subst) :
    ((inner.mapImages outer.apply).override outer).dropTrivial.Joins outer inner := by
  intro v
  rw [dropTrivial, get?_filter, get?_override, get?_mapImages]

theorem joins_of_agrees
    (h : raw.agrees ((inner.mapImages outer.apply).override outer).dropTrivial = true) :
    raw.Joins outer inner :=
  fun v => (agrees_iff.1 h v).trans (joins_join outer inner v)

theorem Joins.lookup_eq (h : raw.Joins outer inner) (v : TyVar) :
    raw.lookup v = ((outer.get? v).or ((inner.get? v).map outer.apply)).getD (.var v) := by
  rw [lookup, h v]
  cases (outer.get? v).or ((inner.get? v).map outer.apply) with
  | none => rfl
  | some t =>
      rcases Decidable.em (t = .var v) with rfl | hne
      · simp [Option.filter]
      · simp [Option.filter, hne]

theorem Joins.lookup_of_mem (h : raw.Joins outer inner) (hv : v ∈ outer.domain) :
    raw.lookup v = outer.lookup v := by
  rw [h.lookup_eq, get?_eq_some_lookup hv]
  rfl

theorem Joins.lookup_of_notMem (h : raw.Joins outer inner) (hv : v ∉ outer.domain) :
    raw.lookup v = outer.apply (inner.lookup v) := by
  rw [h.lookup_eq, get?_eq_none_iff.2 hv, Option.none_or, lookup]
  cases inner.get? v with
  | none => exact (Subst.lookup_of_notMem hv).symm
  | some t => rfl

theorem Joins.extends_outer (h : raw.Joins outer inner) (hs : s.Extends raw) : s.Extends outer := by
  intro t
  rw [apply_apply]
  refine Ty.subst_congr fun v _ => ?_
  rcases Decidable.em (v ∈ outer.domain) with hv | hv
  · rw [← h.lookup_of_mem hv, ← apply_var raw, hs, apply_var]
  · rw [Subst.lookup_of_notMem hv, apply_var]

theorem Joins.extends_inner (h : raw.Joins outer inner) (hs : s.Extends raw)
    (hdisjoint : ∀ v ∈ outer.domain, v ∉ inner.domain) : s.Extends inner := by
  intro t
  rw [apply_apply]
  refine Ty.subst_congr fun v _ => ?_
  rcases Decidable.em (v ∈ outer.domain) with hv | hv
  · rw [Subst.lookup_of_notMem (hdisjoint v hv), apply_var]
  · rw [← h.extends_outer hs, ← h.lookup_of_notMem hv, ← apply_var raw, hs, apply_var]

/-- Where the join has no cycle, composition only follows its chains to their ends. -/
theorem Joins.compose_eq_settle (h : raw.Joins outer inner) (hacyclic : raw.Acyclic) :
    ∃ joined : Subst, joined.Acyclic ∧ (∀ v, joined.get? v = raw.get? v) ∧
      outer.compose inner = settle joined.size joined := by
  have hget : ∀ v, ((inner.mapImages outer.apply).override outer).dropTrivial.get? v =
      raw.get? v := fun v => (joins_join outer inner v).trans (h v).symm
  have hjoined := hacyclic.congr hget
  exact ⟨_, hjoined, hget, dropTrivial_eq_self (solved_iff.1 hjoined.solved_settle).2⟩

/-- Composition brings two substitutions into one solved form, which binds what their join binds and
has the meaning of both; it is composition of maps where the two do not interfere. -/
theorem compose_solves (hraw : raw.Joins outer inner) (hacyclic : raw.Acyclic) :
    (∀ v, v ∈ (outer.compose inner).domain ↔ v ∈ raw.domain) ∧
    (outer.compose inner).Solved ∧
    (outer.compose inner).Extends outer ∧
    ((∀ v ∈ outer.domain, v ∉ inner.domain) → (outer.compose inner).Extends inner) ∧
    (inner.Idempotent → outer.Idempotent → (∀ v ∈ outer.domain, v ∉ inner.domain) →
      (∀ v t, outer.get? v = some t → ∀ w ∈ t.vars, w ∉ inner.domain) →
      ∀ t, (outer.compose inner).apply t = outer.apply (inner.apply t)) := by
  obtain ⟨joined, hjoined, hget, hcompose⟩ := hraw.compose_eq_settle hacyclic
  have hextends : (outer.compose inner).Extends joined := hcompose ▸ hjoined.extends_settle
  have hjoins : joined.Joins outer inner := fun v => (hget v).trans (hraw v)
  refine ⟨fun v => ?_, hcompose ▸ hjoined.solved_settle, hjoins.extends_outer hextends,
    hjoins.extends_inner hextends, fun hinner houter hdisjoint himages => ?_⟩
  · rw [hcompose, domain_settle, mem_domain_congr hget]
  · refine apply_compose houter hinner fun v hv => Subst.lookup_of_notMem ?_
    rcases hv with hv | ⟨w, t, hw, hv⟩
    · exact hdisjoint v hv
    · exact himages w t hw v hv

/-- Bindings that lead on from one to the next are followed to the end. The second pair of
substitutions does not interfere. -/
theorem compose_solves_chain :
    let a : TyVar := ⟨"'a"⟩
    let b : TyVar := ⟨"'b"⟩
    let c : TyVar := ⟨"'c"⟩
    let d : TyVar := ⟨"'d"⟩
    let outer := ofList [(a, .list (.var b)), (c, .list (.var d))]
    let inner := ofList [(b, .var c), (d, .int)]
    let raw := ofList [(a, .list (.var b)), (b, .list (.var d)), (c, .list (.var d)), (d, .int)]
    let result := outer.compose inner
    (raw.Joins outer inner ∧ raw.Acyclic ∧ result.Solved ∧ result.Extends outer ∧
      result.Extends inner ∧ result.lookup a = .list (.list .int)) ∧
    ∀ t, ((single b .int).compose (single a (.var c))).apply t =
      (single b .int).apply ((single a (.var c)).apply t) := by
  intro a b c d outer inner raw result
  have hjoins : raw.Joins outer inner := joins_of_agrees (by decide +kernel)
  have hacyclic : raw.Acyclic := by
    refine acyclic_of_rank (fun v => if v = a then 2 else if v = b ∨ v = c then 1 else 0)
      fun v t hv => ?_
    have hdown : ∀ e ∈ [(a, Ty.list (.var b)), (b, .list (.var d)), (c, .list (.var d)), (d, .int)],
        ∀ u ∈ e.2.vars, u ∈ raw.domain →
          (if u = a then 2 else if u = b ∨ u = c then 1 else 0) <
            if e.1 = a then 2 else if e.1 = b ∨ e.1 = c then 1 else 0 := by
      decide +kernel
    exact hdown _ (mem_of_get?_ofList hv)
  obtain ⟨-, hsolved, houter, hinner, -⟩ := compose_solves hjoins hacyclic
  refine ⟨⟨hjoins, hacyclic, hsolved, houter, hinner (by decide +kernel), by decide +kernel⟩, ?_⟩
  have hjoins' : (ofList [(a, .var c), (b, .int)]).Joins (single b .int) (single a (.var c)) :=
    joins_of_agrees (by decide +kernel)
  have hacyclic' : (ofList [(a, Ty.var c), (b, .int)]).Acyclic := by
    refine acyclic_of_rank (fun _ => 0) fun v t hv u hu hdomain => ?_
    have hnever : ∀ e ∈ [(a, Ty.var c), (b, .int)], ∀ u ∈ e.2.vars,
        u ∉ (ofList [(a, Ty.var c), (b, .int)]).domain := by
      decide +kernel
    exact absurd hdomain (hnever _ (mem_of_get?_ofList hv) u hu)
  obtain ⟨-, -, -, -, hcompose⟩ := compose_solves hjoins' hacyclic'
  refine hcompose (idempotent_single (by decide)) (idempotent_single (by decide))
    (by decide +kernel)
    fun v t hv w hw => ?_
  rw [get?_single] at hv
  split at hv
  · rw [← Option.some.inj hv] at hw
    cases hw
  · cases hv

end Subst

end ConceptResolution
