import ConceptResolution.Proofs.GrammarReading

namespace ConceptResolution

open Text Scan Grammar

namespace Ty

inductive Legible : Ty → Prop
  | const {name : String} (hname : IsName name.toList) : Legible (.const name)
  | param {name : List Char} (hname : IsName name) :
    Legible (.var ⟨String.ofList ('\'' :: name)⟩)
  | fresh {name : List Char} (hname : ∀ c ∈ name, isIdentChar c = true) :
    Legible (.var ⟨String.ofList ('?' :: name)⟩)
  | fn {ps : List Ty} {r : Ty} (hps : ∀ t ∈ ps, Legible t) (hr : Legible r) : Legible (.fn ps r)
  | app {head : String} {ts : List Ty} (hhead : IsName head.toList) (hne : ts ≠ [])
    (hts : ∀ t ∈ ts, Legible t) : Legible (.app head ts)
  | tuple {ts : List Ty} (hts : ∀ t ∈ ts, Legible t) : Legible (.tuple ts)

end Ty

open Ty

namespace Grammar

def Phrase.Legible : Phrase → Prop
  | .ty t => t.Legible
  | .elems ts => ∀ t ∈ ts, t.Legible
  | .args ts => ts ≠ [] ∧ ∀ t ∈ ts, t.Legible

theorem Ident.isName_toList {text name rest : List Char} (h : Ident text name rest) :
    IsName (String.ofList name).toList := by
  rw [String.toList_ofList]
  exact h.isName

theorem Derives.legible {text rest : List Char} {p : Phrase} (h : Derives text p rest) :
    p.Legible := by
  induction h with
  | fn _ _ _ _ ihps ihr => exact .fn ihps ihr
  | fnUnit _ _ _ ihps => exact .fn ihps (.tuple (List.forall_mem_nil _))
  | param _ hname => exact .param hname.isName
  | fresh _ hname => exact .fresh hname.isName.isIdentChar
  | freshBare => exact .fresh (List.forall_mem_nil _)
  | tuple _ _ ih => exact .tuple ih
  | const hname => exact .const hname.isName_toList
  | app hname _ _ ih => exact .app hname.isName_toList ih.1 ih.2
  | elemsNil => exact List.forall_mem_nil _
  | elemsLast _ _ ih => exact List.forall_mem_singleton.2 ih
  | elemsMore _ _ _ ih ihs => exact List.forall_mem_cons.2 ⟨ih, ihs⟩
  | argsLast _ _ ih => exact ⟨List.cons_ne_nil _ _, List.forall_mem_singleton.2 ih⟩
  | argsMore _ _ _ ih ihs => exact ⟨List.cons_ne_nil _ _, List.forall_mem_cons.2 ⟨ih, ihs.2⟩⟩

end Grammar

namespace Scan

theorem yields_ty : Yields ty Legible := by
  intro text t rest hvalue
  obtain ⟨_, ht, -⟩ := leads_ty text t rest hvalue
  exact ht.legible

theorem yields_tuple : Yields tuple (∀ t ∈ ·, Legible t) := by
  intro text ts rest hvalue
  obtain ⟨_, -, hts⟩ := leads_tuple text ts rest hvalue
  exact hts.legible

end Scan

theorem Ty.legible_of_read {text : List Char} {t : Ty} (h : Ty.read text = .ok t) : Legible t := by
  obtain ⟨_, ht, -⟩ := accepts_of_read h
  exact ht.legible

/-- A type that is read up to here is complete: neither its name nor its arguments can go on. -/
def EndsTy (rest : List Char) : Prop :=
  ∀ c, (trimStart rest).head? = some c → isIdentChar c = false ∧ c ≠ '[' ∧ c ≠ '('

theorem EndsTy.endsName {rest : List Char} (h : EndsTy rest) : EndsName rest := by
  intro c hc
  cases hident : isIdentChar c with
  | false => rfl
  | true =>
      rw [← hident]
      exact (h c (head?_trimStart hc (isBlank_of_isIdentChar hident))).1

theorem endsTy_cons {c : Char} (cs : List Char) (hblank : isBlank c = false)
    (hc : isIdentChar c = false ∧ c ≠ '[' ∧ c ≠ '(') : EndsTy (c :: cs) := by
  intro d hd
  rw [trimStart_cons_of_not_isBlank hblank, List.head?_cons] at hd
  cases hd
  exact hc

theorem endsTy_nil : EndsTy [] :=
  fun _ hc => by cases hc

namespace Ty

theorem charsAfter_cons (t : Ty) (ts : List Ty) :
    charsAfter (t :: ts) = ',' :: ' ' :: charsAll (t :: ts) := by
  simp [charsAfter, charsAll]

theorem Legible.exists_head {t : Ty} (h : Legible t) : ∃ c cs, t.chars = c :: cs ∧
    (isIdentChar c = true ∨ c = '\'' ∨ c = '?' ∨ c = '(') := by
  have hname : ∀ {name : List Char}, IsName name → ∀ rest, ∃ c cs, name ++ rest = c :: cs ∧
      (isIdentChar c = true ∨ c = '\'' ∨ c = '?' ∨ c = '(') := by
    intro name hname rest
    obtain ⟨c, cs, rfl, hc, -⟩ := hname.exists_head
    exact ⟨c, cs ++ rest, rfl, .inl hc⟩
  cases h with
  | const h => simpa [chars] using hname h []
  | param _ => exact ⟨'\'', _, String.toList_ofList, by simp⟩
  | fresh _ => exact ⟨'?', _, String.toList_ofList, by simp⟩
  | fn _ _ => exact ⟨'F', _, rfl, .inl (by decide)⟩
  | @app head ts h hne _ =>
      have hsome : ts.isEmpty = false := by simpa using hne
      simpa [chars, hsome] using hname h _
  | tuple _ => exact ⟨'(', _, rfl, by simp⟩

theorem Legible.trimStart_append {t : Ty} (h : Legible t) (rest : List Char) :
    trimStart (t.chars ++ rest) = t.chars ++ rest := by
  obtain ⟨c, cs, hc, hopens⟩ := h.exists_head
  have hblank : isBlank c = false := by
    rcases hopens with h | rfl | rfl | rfl
    · exact isBlank_of_isIdentChar h
    all_goals decide
  rw [hc, List.cons_append, trimStart_cons_of_not_isBlank hblank]

def Written (t : Ty) : Prop :=
  ∀ rest, EndsTy rest → Derives (t.chars ++ rest) (.ty t) rest

end Ty

section Lists

variable {ts : List Ty} {close : Char} {rest : List Char}

theorem derives_items {list : List Ty → Phrase}
    (hlast : ∀ {text after rest t}, Derives text (.ty t) after → Begins after [close] rest →
      Derives text (list [t]) rest)
    (hmore : ∀ {text after after' rest t ts}, Derives text (.ty t) after →
      Begins after [','] after' → Derives after' (list ts) rest →
        Derives text (list (t :: ts)) rest)
    (hblank : isBlank close = false)
    (hclose : isIdentChar close = false ∧ close ≠ '[' ∧ close ≠ '(') (hne : ts ≠ [])
    (hts : ∀ t ∈ ts, t.Written) : Derives (charsAll ts ++ close :: rest) (list ts) rest := by
  induction ts with
  | nil => exact absurd rfl hne
  | cons t ts ih =>
      obtain ⟨ht, hts⟩ := List.forall_mem_cons.1 hts
      rw [charsAll, List.append_assoc]
      cases ts with
      | nil => exact hlast (ht _ (endsTy_cons rest hblank hclose)) (begins_append [close] rest)
      | cons u us =>
          have hend := endsTy_cons (' ' :: (charsAll (u :: us) ++ close :: rest))
            (by decide : isBlank ',' = false) (by decide)
          rw [charsAfter_cons]
          refine hmore (ht _ hend) (begins_append [','] _) ?_
          exact (ih (List.cons_ne_nil u us) hts).congr
            (trimStart_cons_of_isBlank (by decide)).symm

theorem derives_elems (hts : ∀ t ∈ ts, t.Written) :
    Derives (charsAll ts ++ ')' :: rest) (.elems ts) rest := by
  by_cases hne : ts = []
  · subst hne
    exact .elemsNil (begins_append [')'] rest)
  · exact derives_items .elemsLast .elemsMore (by decide) (by decide) hne hts

theorem derives_args (hne : ts ≠ []) (hts : ∀ t ∈ ts, t.Written) :
    Derives (charsAll ts ++ ']' :: rest) (.args ts) rest :=
  derives_items .argsLast .argsMore (by decide) (by decide) hne hts

end Lists

namespace Ty

theorem ident_append {name rest : List Char} (hname : IsName name) (hend : EndsTy rest) :
    Ident (name ++ rest) name rest :=
  ⟨hname, begins_append name rest, hend.endsName⟩

theorem written_const {name : String} (hname : IsName name.toList) : (Ty.const name).Written := by
  intro rest hend
  have hderives := Derives.const (ident_append hname hend)
  rwa [String.ofList_toList] at hderives

theorem written_param {name : List Char} (hname : IsName name) :
    (Ty.var ⟨String.ofList ('\'' :: name)⟩).Written := by
  intro rest hend
  rw [chars, String.toList_ofList]
  exact .param (begins_append ['\''] (name ++ rest)) (ident_append hname hend)

theorem written_fresh {name : List Char} (hname : ∀ c ∈ name, isIdentChar c = true) :
    (Ty.var ⟨String.ofList ('?' :: name)⟩).Written := by
  intro rest hend
  rw [chars, String.toList_ofList]
  cases name with
  | nil =>
      refine .freshBare (begins_append ['?'] rest) fun name after hident => ?_
      obtain ⟨c, cs, rfl, hc, hblank⟩ := hident.isName.exists_head
      have hnone := hend c (by rw [(begins_iff hblank).1 hident.begins, List.cons_append,
        List.head?_cons])
      rw [hnone.1] at hc
      cases hc
  | cons c cs =>
      exact .fresh (begins_append ['?'] _) (ident_append ⟨List.cons_ne_nil c cs, hname⟩ hend)

theorem written_tuple {ts : List Ty} (hts : ∀ t ∈ ts, t.Written) : (Ty.tuple ts).Written := by
  intro rest hend
  rw [chars, List.append_assoc, List.append_assoc]
  exact .tuple (begins_append ['('] _) (derives_elems hts)

theorem written_app {head : String} {ts : List Ty} (hname : IsName head.toList) (hne : ts ≠ [])
    (hts : ∀ t ∈ ts, t.Written) : (Ty.app head ts).Written := by
  intro rest hend
  have hchars : (Ty.app head ts).chars ++ rest =
      head.toList ++ (['['] ++ (charsAll ts ++ ']' :: rest)) := by
    simp [chars, hne]
  have hident : Ident (head.toList ++ (['['] ++ (charsAll ts ++ ']' :: rest))) head.toList _ :=
    ⟨hname, begins_append _ _, fun c hc => by cases hc; decide⟩
  have hderives := Derives.app hident (begins_append ['['] _) (derives_args hne hts)
  rwa [String.ofList_toList, ← hchars] at hderives

theorem written_fn {ps : List Ty} {r : Ty} (hps : ∀ t ∈ ps, t.Written) (hr : r.Written) :
    (Ty.fn ps r).Written := by
  intro rest hend
  have hchars : (Ty.fn ps r).chars ++ rest = ['F', 'n', '('] ++
      (charsAll ps ++ ')' :: ' ' :: (['-', '>'] ++ ' ' :: (r.chars ++ rest))) := by
    simp [chars]
  have harrow : Begins (' ' :: (['-', '>'] ++ ' ' :: (r.chars ++ rest))) ['-', '>'] _ :=
    ⟨[' '], List.forall_mem_singleton.2 (by decide), rfl⟩
  have hresult : Derives (' ' :: (r.chars ++ rest)) (.ty r) rest :=
    (hr rest hend).congr (trimStart_cons_of_isBlank (by decide)).symm
  rw [hchars]
  exact .fn (begins_append ['F', 'n', '('] _) (derives_elems hps) harrow hresult

theorem Legible.written {t : Ty} (h : Legible t) : t.Written := by
  induction h with
  | const hname => exact written_const hname
  | param hname => exact written_param hname
  | fresh hname => exact written_fresh hname
  | fn _ _ ihps ihr => exact written_fn ihps ihr
  | app hhead hne _ ih => exact written_app hhead hne ih
  | tuple _ ih => exact written_tuple ih

theorem Legible.readsAt_ty {t : Ty} (h : Legible t) {text rest : List Char}
    (htext : trimStart text = t.chars ++ rest) (hend : EndsTy rest) : ReadsAt ty text t rest := by
  have hderives : Derives text (.ty t) rest :=
    (h.written rest hend).congr (by rw [h.trimStart_append, htext])
  exact hderives.readsAt_ty fun c hc => (hend c hc).2

theorem Legible.read_back {t : Ty} (h : Legible t) : Ty.read t.text.toList = .ok t := by
  have hderives := h.written [] endsTy_nil
  rw [List.append_nil] at hderives
  rw [text_eq, String.toList_ofList]
  exact read_of_accepts ⟨[], hderives, List.forall_mem_nil _⟩

end Ty

end ConceptResolution
