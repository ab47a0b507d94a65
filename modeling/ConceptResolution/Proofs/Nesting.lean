import ConceptResolution.Proofs.GrammarReading
import Mathlib.Logic.Function.Iterate

namespace ConceptResolution

open Text Scan Grammar

namespace TypeReader

/-- On texts short enough the readers do what those of the given nesting do. A list is read at the
place of its first type, and a tuple may be all of a type. -/
structure Agrees (k : Nat) (r : TypeReader) : Prop where
  ty : ∀ text, 3 * (trimStart text).length + 2 ≤ k → r.ty text = (within k).ty text
  tuple : ∀ text, 3 * (trimStart text).length + 1 ≤ k → r.tuple text = (within k).tuple text
  elems : ∀ text, 3 * (trimStart text).length + 3 ≤ k → r.elems text = (within k).elems text
  args : ∀ text, 3 * (trimStart text).length + 3 ≤ k → r.args text = (within k).args text

theorem agrees_zero (r : TypeReader) : r.Agrees 0 := by
  constructor <;> intro text htext <;> omega

variable {r : TypeReader} {k : Nat} {text : List Char}

theorem length_lt_of_begins {text' rest : List Char} {c : Char} {cs : List Char}
    (h : Begins text' (c :: cs) rest) (hc : isBlank c = false)
    (hsame : trimStart text' = trimStart text) :
    (trimStart rest).length < (trimStart text).length :=
  hsame ▸ h.length_lt hc

theorem Agrees.fn (h : r.Agrees k) (htext : 3 * (trimStart text).length ≤ k) :
    r.fn text = (within k).fn text := by
  refine bind_congr_leads rfl (leads_token text (by decide)) fun _ text₁ hword => ?_
  have hshort₁ := hword.length_lt (by decide)
  refine bind_congr_leads (h.tuple text₁ (by omega)) ((sound_within k).tuple text₁)
    fun ps text₂ ⟨after, hopen, hps⟩ => ?_
  have hshort₂ := hps.length_lt.trans (hopen.length_lt (by decide))
  refine bind_congr_leads rfl (readsAt_peekBytes 2 text₂).leads fun arrow text₃ ⟨_, h₃⟩ => ?_
  split
  · refine bind_congr_leads rfl (leads_token text₃ (by decide)) fun _ text₄ harrow => ?_
    have hshort₄ := length_lt_of_begins harrow (by decide) h₃
    exact bind_congr_leads (h.ty text₄ (by omega)) (leads_true _ _) fun _ _ _ => rfl
  · rfl

theorem Agrees.named (h : r.Agrees k) (htext : 3 * (trimStart text).length ≤ k) :
    r.named text = (within k).named text := by
  refine bind_congr_leads rfl (leads_ident text) fun name text₁ hname => ?_
  split
  · rfl
  · next hne =>
    obtain ⟨hnil, -⟩ | hname := hname
    · exact absurd hnil hne
    · refine bind_congr_leads rfl (readsAt_peek text₁).leads fun c text₂ ⟨_, h₂⟩ => ?_
      split
      · refine bind_congr_leads rfl (leads_token text₂ (by decide)) fun _ text₃ hopen => ?_
        have hshort := (length_lt_of_begins hopen (by decide) h₂).trans hname.length_lt
        exact bind_congr_leads (h.args text₃ (by omega)) (leads_true _ _) fun _ _ _ => rfl
      · rfl

theorem Agrees.startingWith (h : r.Agrees k) (htext : 3 * (trimStart text).length + 1 ≤ k)
    (c : Option Char) : r.startingWith c text = (within k).startingWith c text := by
  unfold TypeReader.startingWith
  split
  · rfl
  · rfl
  · exact bind_congr_leads (h.tuple text htext) (leads_true _ _) fun _ _ _ => rfl
  · exact h.named (by omega)

theorem Agrees.items (h : r.Agrees k) (htext : 3 * (trimStart text).length + 2 ≤ k)
    (close : Char) {others others' : Scan SyntaxError (List Ty)}
    (hothers : ∀ text', (trimStart text').length < (trimStart text).length →
      others text' = others' text') :
    r.items close others text = (within k).items close others' text := by
  refine bind_congr_leads (h.ty text htext) ((sound_within k).ty text)
    fun t text₁ ⟨rest, ht, h₁⟩ => ?_
  refine bind_congr_leads rfl (readsAt_peek text₁).leads fun c text₂ ⟨_, h₂⟩ => ?_
  split
  · rfl
  · refine bind_congr_leads rfl (leads_token text₂ (by decide)) fun _ text₃ hcomma => ?_
    have hshort := length_lt_of_begins hcomma (by decide) (h₂.trans h₁.symm)
    exact bind_congr_leads (hothers text₃ (hshort.trans ht.length_lt)) (leads_true _ _)
      fun _ _ _ => rfl

theorem Agrees.calling (h : r.Agrees k) : r.calling.Agrees (k + 1) where
  ty text htext := by
    refine bind_congr_leads rfl (readsAt_peekBytes 3 text).leads fun front text₁ ⟨_, h₁⟩ => ?_
    split
    · exact h.fn (by rw [h₁]; omega)
    · refine bind_congr_leads rfl (readsAt_peek text₁).leads fun c text₂ ⟨_, h₂⟩ => ?_
      exact h.startingWith (by rw [h₂, h₁]; omega) c
  tuple text htext := by
    refine bind_congr_leads rfl (leads_token text (by decide)) fun _ text₁ hopen => ?_
    have hshort := hopen.length_lt (by decide)
    exact bind_congr_leads (h.elems text₁ (by omega)) (leads_true _ _) fun _ _ _ => rfl
  elems text htext := by
    refine bind_congr_leads rfl (readsAt_peek text).leads fun c text₁ ⟨_, h₁⟩ => ?_
    split
    · rfl
    · exact h.items (by rw [h₁]; omega) ')' fun text₂ h₂ => h.elems text₂ (by rw [h₁] at h₂; omega)
  args text htext := h.items (by omega) ']' fun text₁ h₁ => h.args text₁ (by omega)

theorem agrees_iterate (r : TypeReader) (k : Nat) : (TypeReader.calling^[k] r).Agrees k := by
  induction k with
  | zero => exact agrees_zero r
  | succ k ih =>
      rw [Function.iterate_succ_apply']
      exact ih.calling

/-- Calls that are nested deeper than the text is long are never made. -/
theorem iterate_ty (r : TypeReader) (k : Nat) (text : List Char) :
    (TypeReader.calling^[nesting text + k] r).ty text = Scan.ty text := by
  have hle := length_trimStart_le text
  rw [Function.iterate_add_apply]
  exact (agrees_iterate _ (nesting text)).ty text (by rw [nesting]; omega)

end TypeReader

namespace Grammar

/-- A text is read as a type exactly if the grammar derives the type from it, and every other text
is refused. Whatever readers are put below the calls that the text's length allows, the outcome is
the same: the nested calls end on every text. -/
theorem read_exact :
    (∀ text t, Ty.read text = .ok t ↔ Accepts text t) ∧
      (∀ text, (∃ e, Ty.read text = .error e) ↔ ¬∃ t, Accepts text t) ∧
        ∀ (r : TypeReader) (k : Nat) (text : List Char),
          (TypeReader.calling^[nesting text + k] r).ty text = Scan.ty text := by
  refine ⟨fun text t => ⟨accepts_of_read, read_of_accepts⟩, fun text => ?_, TypeReader.iterate_ty⟩
  constructor
  · rintro ⟨e, herror⟩ ⟨t, haccepts⟩
    rw [read_of_accepts haccepts] at herror
    cases herror
  · intro hnone
    cases hread : Ty.read text with
    | ok t => exact absurd ⟨t, accepts_of_read hread⟩ hnone
    | error e => exact ⟨e, rfl⟩

/-- No gap stands before the parameters of a function; only a tuple may end with a comma. -/
example : ["Fn( 'a , (b,) , ? )-> c [ d ]", "Fn ('a)", "c[d,]"].map
    (fun text => (Ty.read text.toList).isOk) = [true, false, false] := by
  decide +kernel

end Grammar

end ConceptResolution
