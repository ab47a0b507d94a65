import ConceptResolution.Proofs.Scanning

/-!
The grammar of types. A derivation says which text a phrase leaves behind it, so that the rules can
forbid what would be taken if it followed.
-/

namespace ConceptResolution

open Text Scan

/-- A name that the reader takes in one piece. -/
structure IsName (name : List Char) : Prop where
  ne_nil : name ≠ []
  isIdentChar : ∀ c ∈ name, Scan.isIdentChar c = true

theorem IsName.exists_head {name : List Char} (h : IsName name) :
    ∃ c cs, name = c :: cs ∧ Scan.isIdentChar c = true ∧ isBlank c = false := by
  obtain ⟨c, cs, rfl⟩ := List.exists_cons_of_ne_nil h.ne_nil
  have hc := h.isIdentChar c List.mem_cons_self
  exact ⟨c, cs, rfl, hc, isBlank_of_isIdentChar hc⟩

namespace Grammar

/-- The word is in front, with any blanks before it. -/
def Begins (text word rest : List Char) : Prop :=
  ∃ blanks, (∀ c ∈ blanks, isBlank c = true) ∧ text = blanks ++ (word ++ rest)

/-- The name is in front, and it is all of the letters, digits and underscores there. -/
structure Ident (text name rest : List Char) : Prop where
  isName : IsName name
  begins : Begins text name rest
  ends : EndsName rest

/-- What a text can begin with: a type, or the rest of a list behind the bracket that opens it. -/
inductive Phrase
  | ty (t : Ty)
  | elems (ts : List Ty)
  | args (ts : List Ty)

/-- The text begins with the phrase, and the rest follows it. -/
inductive Derives : List Char → Phrase → List Char → Prop
  | fn {text after after' after'' rest : List Char} {ps : List Ty} {r : Ty}
    (hopen : Begins text ['F', 'n', '('] after) (hps : Derives after (.elems ps) after')
    (harrow : Begins after' ['-', '>'] after'') (hr : Derives after'' (.ty r) rest) :
    Derives text (.ty (.fn ps r)) rest
  | fnUnit {text after rest : List Char} {ps : List Ty}
    (hopen : Begins text ['F', 'n', '('] after) (hps : Derives after (.elems ps) rest)
    (hnone : ∀ after', ¬Begins rest ['-', '>'] after') : Derives text (.ty (.fn ps .unit)) rest
  | param {text after name rest : List Char} (hquote : Begins text ['\''] after)
    (hname : Ident after name rest) : Derives text (.ty (.var ⟨String.ofList ('\'' :: name)⟩)) rest
  | fresh {text after name rest : List Char} (hmark : Begins text ['?'] after)
    (hname : Ident after name rest) : Derives text (.ty (.var ⟨String.ofList ('?' :: name)⟩)) rest
  | freshBare {text rest : List Char} (hmark : Begins text ['?'] rest)
    (hnone : ∀ name after, ¬Ident rest name after) :
    Derives text (.ty (.var ⟨String.ofList ['?']⟩)) rest
  | tuple {text after rest : List Char} {ts : List Ty} (hopen : Begins text ['('] after)
    (hts : Derives after (.elems ts) rest) : Derives text (.ty (.tuple ts)) rest
  | const {text name rest : List Char} (hname : Ident text name rest) :
    Derives text (.ty (.const (String.ofList name))) rest
  | app {text name after after' rest : List Char} {ts : List Ty} (hname : Ident text name after)
    (hopen : Begins after ['['] after') (hts : Derives after' (.args ts) rest) :
    Derives text (.ty (.app (String.ofList name) ts)) rest
  | elemsNil {text rest : List Char} (hclose : Begins text [')'] rest) :
    Derives text (.elems []) rest
  | elemsLast {text after rest : List Char} {t : Ty} (ht : Derives text (.ty t) after)
    (hclose : Begins after [')'] rest) : Derives text (.elems [t]) rest
  | elemsMore {text after after' rest : List Char} {t : Ty} {ts : List Ty}
    (ht : Derives text (.ty t) after) (hcomma : Begins after [','] after')
    (hts : Derives after' (.elems ts) rest) : Derives text (.elems (t :: ts)) rest
  | argsLast {text after rest : List Char} {t : Ty} (ht : Derives text (.ty t) after)
    (hclose : Begins after [']'] rest) : Derives text (.args [t]) rest
  | argsMore {text after after' rest : List Char} {t : Ty} {ts : List Ty}
    (ht : Derives text (.ty t) after) (hcomma : Begins after [','] after')
    (hts : Derives after' (.args ts) rest) : Derives text (.args (t :: ts)) rest

def Accepts (text : List Char) (t : Ty) : Prop :=
  ∃ rest, Derives text (.ty t) rest ∧ ∀ c ∈ rest, isBlank c = true

variable {text text' name rest : List Char} {c : Char} {cs : List Char} {p : Phrase}

theorem begins_append (word rest : List Char) : Begins (word ++ rest) word rest :=
  ⟨[], List.forall_mem_nil _, rfl⟩

theorem begins_iff (hc : isBlank c = false) :
    Begins text (c :: cs) rest ↔ trimStart text = c :: cs ++ rest := by
  constructor
  · rintro ⟨blanks, hblanks, rfl⟩
    exact (List.dropWhile_append_of_pos hblanks).trans (trimStart_cons_of_not_isBlank hc)
  · intro h
    refine ⟨text.takeWhile isBlank, fun d hd => List.mem_takeWhile_imp hd, ?_⟩
    rw [← h]
    exact List.takeWhile_append_dropWhile.symm

theorem ident_iff :
    Ident text name rest ↔ IsName name ∧ trimStart text = name ++ rest ∧ EndsName rest := by
  constructor
  · rintro ⟨hname, hbegins, hends⟩
    obtain ⟨c, cs, rfl, -, hc⟩ := hname.exists_head
    exact ⟨hname, (begins_iff hc).1 hbegins, hends⟩
  · rintro ⟨hname, htext, hends⟩
    obtain ⟨c, cs, rfl, -, hc⟩ := hname.exists_head
    exact ⟨hname, (begins_iff hc).2 htext, hends⟩

theorem Begins.head? (h : Begins text (c :: cs) rest) (hc : isBlank c = false) :
    (trimStart text).head? = some c := by
  rw [(begins_iff hc).1 h, List.cons_append, List.head?_cons]

theorem Begins.congr (h : Begins text (c :: cs) rest) (hc : isBlank c = false)
    (hsame : trimStart text = trimStart text') : Begins text' (c :: cs) rest :=
  (begins_iff hc).2 (hsame ▸ (begins_iff hc).1 h)

theorem Ident.congr (h : Ident text name rest) (hsame : trimStart text = trimStart text') :
    Ident text' name rest :=
  ident_iff.2 (hsame ▸ ident_iff.1 h)

theorem Derives.congr (h : Derives text p rest) (hsame : trimStart text = trimStart text') :
    Derives text' p rest := by
  induction h generalizing text' with
  | fn hopen hps harrow hr => exact .fn (hopen.congr (by decide) hsame) hps harrow hr
  | fnUnit hopen hps hnone => exact .fnUnit (hopen.congr (by decide) hsame) hps hnone
  | param hquote hname => exact .param (hquote.congr (by decide) hsame) hname
  | fresh hmark hname => exact .fresh (hmark.congr (by decide) hsame) hname
  | freshBare hmark hnone => exact .freshBare (hmark.congr (by decide) hsame) hnone
  | tuple hopen hts => exact .tuple (hopen.congr (by decide) hsame) hts
  | const hname => exact .const (hname.congr hsame)
  | app hname hopen hts => exact .app (hname.congr hsame) hopen hts
  | elemsNil hclose => exact .elemsNil (hclose.congr (by decide) hsame)
  | elemsLast _ hclose ih => exact .elemsLast (ih hsame) hclose
  | elemsMore _ hcomma hts ih => exact .elemsMore (ih hsame) hcomma hts
  | argsLast _ hclose ih => exact .argsLast (ih hsame) hclose
  | argsMore _ hcomma hts ih => exact .argsMore (ih hsame) hcomma hts

theorem Derives.args_ne_nil {ts : List Ty} (h : Derives text (.args ts) rest) : ts ≠ [] := by
  cases h <;> exact List.cons_ne_nil _ _

theorem Begins.length_lt (h : Begins text (c :: cs) rest) (hc : isBlank c = false) :
    (trimStart rest).length < (trimStart text).length := by
  have hle := length_trimStart_le rest
  rw [(begins_iff hc).1 h, List.length_append, List.length_cons]
  omega

theorem Ident.length_lt (h : Ident text name rest) :
    (trimStart rest).length < (trimStart text).length := by
  obtain ⟨c, cs, rfl, -, hc⟩ := h.isName.exists_head
  exact h.begins.length_lt hc

theorem Derives.length_lt (h : Derives text p rest) :
    (trimStart rest).length < (trimStart text).length := by
  induction h with
  | fn hopen _ harrow _ ihps ihr =>
      exact ihr.trans ((harrow.length_lt (by decide)).trans
        (ihps.trans (hopen.length_lt (by decide))))
  | fnUnit hopen _ _ ihps => exact ihps.trans (hopen.length_lt (by decide))
  | param hquote hname => exact hname.length_lt.trans (hquote.length_lt (by decide))
  | fresh hmark hname => exact hname.length_lt.trans (hmark.length_lt (by decide))
  | freshBare hmark _ => exact hmark.length_lt (by decide)
  | tuple hopen _ ih => exact ih.trans (hopen.length_lt (by decide))
  | const hname => exact hname.length_lt
  | app hname hopen _ ih => exact ih.trans ((hopen.length_lt (by decide)).trans hname.length_lt)
  | elemsNil hclose => exact hclose.length_lt (by decide)
  | elemsLast _ hclose ih => exact (hclose.length_lt (by decide)).trans ih
  | elemsMore _ hcomma _ ih ihs => exact ihs.trans ((hcomma.length_lt (by decide)).trans ih)
  | argsLast _ hclose ih => exact (hclose.length_lt (by decide)).trans ih
  | argsMore _ hcomma _ ih ihs => exact ihs.trans ((hcomma.length_lt (by decide)).trans ih)

theorem Derives.head?_ne {t : Ty} (h : Derives text (.ty t) rest) :
    (trimStart text).head? ≠ some ')' := by
  have hbegins : ∀ {c cs after}, Begins text (c :: cs) after → isBlank c = false → c ≠ ')' →
      (trimStart text).head? ≠ some ')' := by
    intro c cs after hbegins hblank hc
    rw [hbegins.head? hblank]
    simpa using hc
  have hident : ∀ {name after}, Ident text name after → (trimStart text).head? ≠ some ')' := by
    intro name after h
    obtain ⟨c, cs, rfl, hc, hblank⟩ := h.isName.exists_head
    refine hbegins h.begins hblank ?_
    rintro rfl
    exact absurd hc (by decide)
  cases h with
  | fn hopen => exact hbegins hopen (by decide) (by decide)
  | fnUnit hopen => exact hbegins hopen (by decide) (by decide)
  | param hquote => exact hbegins hquote (by decide) (by decide)
  | fresh hmark => exact hbegins hmark (by decide) (by decide)
  | freshBare hmark => exact hbegins hmark (by decide) (by decide)
  | tuple hopen => exact hbegins hopen (by decide) (by decide)
  | const hname => exact hident hname
  | app hname => exact hident hname

end Grammar

end ConceptResolution
