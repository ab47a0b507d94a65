import ConceptResolution.Document.Basic
import ConceptResolution.Proofs.DeclarationReading

namespace ConceptResolution

open Text Scan

def EndsParam (rest : List Char) : Prop :=
  ∀ c, (trimStart rest).head? = some c → c = ','

namespace Ty

theorem toList_sumText (ts : List Ty) :
    (sumText ts).toList = [' ', '+', ' '].intercalate (ts.map chars) := by
  rw [sumText, String.toList_intercalate, List.map_map]
  refine congrArg _ (List.map_congr_left fun t _ => ?_)
  rw [Function.comp_apply, text_eq, String.toList_ofList]

end Ty

namespace Scan

variable {text rest : List Char}

theorem readsAt_tySum {ts : List Ty} (hne : ts ≠ []) (hts : ∀ t ∈ ts, t.Legible)
    (htext : trimStart text = (Ty.sumText ts).toList ++ rest) (hend : EndsTy rest)
    (hplus : (trimStart rest).head? ≠ some '+') : ReadsAt tySum text ts rest := by
  rw [Ty.toList_sumText] at htext
  refine readsAt_sepBy hne (fun t ht text rest => (hts t ht).readsAt_ty)
    (fun t ht => (hts t ht).trimStart_append) (fun cs => ⟨?_, ?_⟩) ⟨hend, hplus⟩ htext
  · intro c hc
    cases hc
    decide
  · exact trimStart_cons_of_isBlank (by decide)

end Scan

namespace Param

def kindChars : ParamKind → List Char
  | .witness => "witness ".toList
  | .associated => "assoc ".toList
  | .ordinary => []

def constraintChars (constraints : List Ty) : List Char :=
  if constraints.isEmpty then [] else ':' :: ' ' :: (Ty.sumText constraints).toList

theorem toList_text (p : Param) : p.text.toList =
    kindChars p.kind ++ (p.var.name.toList ++ constraintChars p.constraints) := by
  rw [text, String.toList_append, String.toList_append, List.append_assoc]
  refine congrArg₂ (· ++ ·) ?_ (congrArg (_ ++ ·) ?_)
  · cases p.kind <;> rfl
  · rw [constraintChars]
    split
    · rfl
    · exact String.toList_append

end Param

theorem Param.Legible.trimStart_append {p : Param} (h : p.Legible) (rest : List Char) :
    trimStart (p.text.toList ++ rest) = p.text.toList ++ rest := by
  obtain ⟨name, -, hvar⟩ := h.var
  rw [Param.toList_text, hvar, String.toList_ofList]
  cases p.kind <;> exact trimStart_cons_of_not_isBlank (by decide)

theorem EndsParam.endsTy {rest : List Char} (h : EndsParam rest) : EndsTy rest := by
  intro c hc
  cases h c hc
  decide

theorem endsTy_constraintChars_append {constraints : List Ty} {rest : List Char}
    (hend : EndsParam rest) : EndsTy (Param.constraintChars constraints ++ rest) := by
  rw [Param.constraintChars]
  split
  · exact hend.endsTy
  · exact endsTy_cons _ (by decide) (by decide)

namespace Scan

variable {text rest : List Char}

theorem readsAt_paramKind {kind : ParamKind} {cs : List Char}
    (htext : trimStart text = Param.kindChars kind ++ '\'' :: cs) :
    ReadsAt paramKind text kind ('\'' :: cs) := by
  have hblank : EndsName (' ' :: '\'' :: cs) := fun c hc => by cases hc; decide
  have hquote : EndsName ('\'' :: cs) := fun c hc => by cases hc; decide
  have hskip : trimStart (' ' :: '\'' :: cs) = trimStart ('\'' :: cs) :=
    trimStart_cons_of_isBlank (by decide)
  cases kind with
  | witness =>
      refine (@readsAt_keyword _ "witness".toList _ _ htext (by decide) hblank).bind
        fun text₁ h₁ => ?_
      exact readsAt_pure (h₁.trans hskip)
  | associated =>
      refine (@readsAt_keyword_of_ne _ _ "assoc".toList _ _ htext (by decide) hblank
        (by decide)).bind fun text₁ h₁ => ?_
      refine (@readsAt_keyword _ "assoc".toList _ _ (h₁.trans htext) (by decide) hblank).bind
        fun text₂ h₂ => ?_
      exact readsAt_pure (h₂.trans hskip)
  | ordinary =>
      refine (@readsAt_keyword_of_ne _ _ [] _ _ htext (by decide) hquote (by decide)).bind
        fun text₁ h₁ => ?_
      refine (@readsAt_keyword_of_ne _ _ [] _ _ (h₁.trans htext) (by decide) hquote
        (by decide)).bind fun text₂ h₂ => ?_
      exact readsAt_pure (h₂.trans (h₁.trans (htext.trans
        (trimStart_cons_of_not_isBlank (by decide)).symm)))

theorem readsAt_paramVar {name : List Char} (hname : IsName name)
    (htext : trimStart text = '\'' :: name ++ rest) (hend : EndsTy rest) :
    ReadsAt paramVar text ⟨String.ofList ('\'' :: name)⟩ rest := by
  have hchars : (Ty.var ⟨String.ofList ('\'' :: name)⟩).chars = '\'' :: name :=
    String.toList_ofList
  have hparam : (⟨String.ofList ('\'' :: name)⟩ : TyVar).isParam = true := by
    simp [TyVar.isParam]
  refine ((Ty.Legible.param hname).readsAt_ty (by rw [hchars, htext]) hend).bind
    fun text₁ h₁ => ?_
  simp only [hparam, if_true]
  exact readsAt_pure h₁

theorem readsAt_optionalSum {constraints : List Ty} (hlegible : ∀ c ∈ constraints, c.Legible)
    (htext : trimStart text = trimStart (Param.constraintChars constraints ++ rest))
    (hend : EndsParam rest) : ReadsAt optionalSum text constraints rest := by
  cases constraints with
  | nil =>
      have hnone : ¬":".toList <+: trimStart text := by
        rintro ⟨cs, hcs⟩
        replace htext : trimStart text = trimStart rest := htext
        cases hend ':' (by rw [← htext, ← hcs]; rfl)
      exact (readsAt_eat_false hnone).bind fun _ h₁ => readsAt_pure (h₁.trans htext)
  | cons c cs =>
      have hcolon : trimStart text =
          ":".toList ++ ' ' :: ((Ty.sumText (c :: cs)).toList ++ rest) :=
        htext.trans (trimStart_cons_of_not_isBlank (by decide))
      refine (readsAt_eat hcolon).bind fun text₁ h₁ => ?_
      replace h₁ := h₁.trans (trimStart_cons_of_isBlank (by decide))
      rw [Ty.toList_sumText, trimStart_intercalate_append (List.cons_ne_nil c cs)
        fun t ht => (hlegible t ht).trimStart_append, ← Ty.toList_sumText] at h₁
      refine readsAt_tySum (List.cons_ne_nil c cs) hlegible h₁ hend.endsTy fun hplus => ?_
      cases hend '+' hplus

theorem readsAt_declParam {p : Param} (hp : p.Legible)
    (htext : trimStart text = p.text.toList ++ rest) (hend : EndsParam rest) :
    ReadsAt declParam text p rest := by
  obtain ⟨v, kind, constraints⟩ := p
  obtain ⟨⟨name, hname, rfl⟩, hconstraints, hwitness⟩ := hp
  rw [Param.toList_text, String.toList_ofList, List.append_assoc, List.append_assoc] at htext
  refine (readsAt_paramKind htext).bind fun text₁ h₁ => ?_
  replace h₁ := h₁.trans (trimStart_cons_of_not_isBlank (by decide))
  refine (readsAt_paramVar hname h₁ (endsTy_constraintChars_append hend)).bind fun text₂ h₂ => ?_
  refine (readsAt_optionalSum hconstraints h₂ hend).bind fun text₃ h₃ => ?_
  rw [if_neg fun h => hwitness h.1 (List.isEmpty_iff.1 h.2)]
  exact readsAt_pure h₃

theorem readsAt_declParams {ps : List Param} (hne : ps ≠ []) (hps : ∀ p ∈ ps, p.Legible)
    (htext : trimStart text = trimStart (", ".intercalate (ps.map Param.text)).toList) :
    ReadsAt declParams text ps [] := by
  have hnil : EndsParam [] := fun c hc => by cases hc
  have hglue (cs : List Char) : EndsParam (", ".toList ++ cs) ∧
      trimStart (", ".toList ++ cs) = [','] ++ ' ' :: cs :=
    ⟨fun c hc => by cases hc; rfl, trimStart_cons_of_not_isBlank (by decide)⟩
  have hpieces : (", ".intercalate (ps.map Param.text)).toList =
      ", ".toList.intercalate (ps.map fun p => p.text.toList) := by
    rw [String.toList_intercalate, List.map_map]
    rfl
  have hwrite (p : Param) (hp : p ∈ ps) := (hps p hp).trimStart_append
  have hwhole := @trimStart_intercalate_append _ _ ", ".toList ps hne hwrite []
  rw [hpieces, ← List.append_nil (List.intercalate _ _), hwhole] at htext
  exact readsAt_sepBy hne (fun p hp text rest => readsAt_declParam (hps p hp)) hwrite hglue
    ⟨hnil, by simp [trimStart]⟩ htext

end Scan

def isWritten (c : Char) : Bool :=
  isIdentChar c || ['\'', '?', '(', ')', '[', ']', ',', ' ', '-', '>', '+', ':'].contains c

theorem all_intercalate {p : Char → Bool} {glue : List Char} {pieces : List (List Char)}
    (hglue : glue.all p = true) (hpieces : ∀ piece ∈ pieces, piece.all p = true) :
    (glue.intercalate pieces).all p = true := by
  induction pieces with
  | nil => rfl
  | cons piece pieces ih =>
      obtain ⟨hpiece, hpieces⟩ := List.forall_mem_cons.1 hpieces
      by_cases hne : pieces = []
      · rwa [hne, List.intercalate_singleton]
      · rw [List.intercalate_cons_of_ne_nil hne, List.all_append, List.all_append, hpiece, hglue,
          ih hpieces]
        rfl

theorem all_isWritten_of_isIdentChar {name : List Char} (h : ∀ c ∈ name, isIdentChar c = true) :
    name.all isWritten = true := by
  refine List.all_eq_true.2 fun c hc => ?_
  rw [isWritten, h c hc, Bool.true_or]

namespace Ty

theorem charsAll_eq_intercalate (ts : List Ty) :
    charsAll ts = [',', ' '].intercalate (ts.map chars) := by
  induction ts with
  | nil => rfl
  | cons t ts ih =>
      cases ts with
      | nil => simp [charsAll, charsAfter]
      | cons u us =>
          rw [charsAll, charsAfter_cons, ih]
          simp

theorem Legible.all_isWritten {t : Ty} (h : Legible t) : t.chars.all isWritten = true := by
  have hall : ∀ {ts : List Ty}, (∀ t ∈ ts, t.chars.all isWritten = true) →
      (charsAll ts).all isWritten = true := by
    intro ts hts
    rw [charsAll_eq_intercalate]
    exact all_intercalate (by decide) (List.forall_mem_map.2 hts)
  induction h with
  | const hname => exact all_isWritten_of_isIdentChar hname.isIdentChar
  | param hname =>
      rw [chars, String.toList_ofList, List.all_cons]
      exact all_isWritten_of_isIdentChar hname.isIdentChar
  | fresh hname =>
      rw [chars, String.toList_ofList, List.all_cons]
      exact all_isWritten_of_isIdentChar hname
  | fn _ _ ihps ihr =>
      simp only [chars, List.all_append, Bool.and_eq_true]
      exact ⟨⟨⟨by decide, hall ihps⟩, by decide⟩, ihr⟩
  | app hhead _ _ ih =>
      have hname := all_isWritten_of_isIdentChar hhead.isIdentChar
      rw [chars]
      split
      · exact hname
      · simp only [List.all_append, Bool.and_eq_true]
        exact ⟨⟨⟨hname, by decide⟩, hall ih⟩, by decide⟩
  | tuple _ ih =>
      simp only [chars, List.all_append, Bool.and_eq_true]
      exact ⟨⟨by decide, hall ih⟩, by decide⟩

end Ty

theorem Param.Legible.all_isWritten {p : Param} (h : p.Legible) :
    p.text.toList.all isWritten = true := by
  obtain ⟨name, hname, hvar⟩ := h.var
  have hwritten := all_isWritten_of_isIdentChar hname.isIdentChar
  rw [Param.toList_text, hvar, String.toList_ofList, List.all_append, List.all_append,
    List.all_cons, hwritten, Bool.and_eq_true, Bool.and_eq_true]
  refine ⟨?_, by decide, ?_⟩
  · cases p.kind <;> decide
  · rw [Param.constraintChars]
    split
    · rfl
    · rw [Ty.toList_sumText]
      exact all_intercalate (by decide)
        (List.forall_mem_map.2 fun c hc => (h.constraints c hc).all_isWritten)

theorem Text.lines_of_notMem {cs : List Char} (h : '\n' ∉ cs) (hne : cs ≠ []) :
    lines cs = [cs] := by
  fun_induction lines cs with
  | case1 => exact absurd rfl hne
  | case2 cs ih => simp at h
  | case3 cs ih => simp at h
  | case4 c cs _ _ hlines ih =>
      obtain ⟨-, hcs⟩ := not_or.1 (fun hmem => h (List.mem_cons.2 hmem))
      by_cases hempty : cs = []
      · rw [hempty]
      · rw [ih hcs hempty] at hlines
        cases hlines
  | case5 c cs _ _ l ls hlines ih =>
      obtain ⟨-, hcs⟩ := not_or.1 (fun hmem => h (List.mem_cons.2 hmem))
      by_cases hempty : cs = []
      · rw [hempty] at hlines
        cases hlines
      · rw [ih hcs hempty] at hlines
        cases hlines
        rfl

namespace Scan

variable {text rest : List Char}

theorem readsAt_statement_given {whole : List Char} {ps : List Param} (hne : ps ≠ [])
    (hps : ∀ p ∈ ps, p.Legible)
    (htext : trimStart text =
      "given".toList ++ ' ' :: (", ".intercalate (ps.map Param.text)).toList) :
    ReadsAt (statement whole) text (.given ps) [] := by
  have hblank : EndsName (' ' :: (", ".intercalate (ps.map Param.text)).toList) :=
    fun c hc => by cases hc; decide
  have hother {text' : List Char} (htext' : trimStart text' = trimStart text) (w : String)
      (hw : "given".toList ≠ w.toList) : ReadsAt (word w) text' false text' :=
    readsAt_keyword_of_ne (htext'.trans htext) (by decide) hblank hw
  have hoverlap : ReadsAt overlap text .neither text := by
    obtain ⟨n, hn⟩ : ∃ n, text.length = n + 1 := by
      have hle := length_trimStart_le text
      rw [htext] at hle
      exact ⟨text.length - 1, by simp at hle; omega⟩
    refine (?_ : ReadsAt (overlapWithin text.length .neither) text .neither text)
    rw [hn, overlapWithin]
    refine (hother rfl "overlapping" (by decide)).bind fun text₁ h₁ => ?_
    refine (hother h₁ "overlappable" (by decide)).bind fun text₂ h₂ => ?_
    exact readsAt_pure (h₂.trans h₁)
  refine hoverlap.bind fun text₁ h₁ => ?_
  rw [if_neg (by decide)]
  refine (hother h₁ "instance" (by decide)).bind fun text₂ h₂ => ?_
  replace h₂ := h₂.trans h₁
  refine (hother h₂ "concept" (by decide)).bind fun text₃ h₃ => ?_
  replace h₃ := h₃.trans h₂
  refine (hother h₃ "type" (by decide)).bind fun text₄ h₄ => ?_
  replace h₄ := h₄.trans (h₃.trans htext)
  refine (readsAt_keyword h₄ (by decide) hblank).bind fun text₅ h₅ => ?_
  replace h₅ := h₅.trans (trimStart_cons_of_isBlank (by decide))
  exact (readsAt_declParams hne hps h₅).bind fun text₆ h₆ => readsAt_pure h₆

end Scan

def givenLine (ps : List Param) : String :=
  "given " ++ ", ".intercalate (ps.map Param.text)

theorem read_givenLine {ps : List Param} (hne : ps ≠ []) (hps : ∀ p ∈ ps, p.Legible) :
    Statement.read (givenLine ps).toList = .ok (.given ps) := by
  have htext : trimStart (givenLine ps).toList =
      "given".toList ++ ' ' :: (", ".intercalate (ps.map Param.text)).toList := by
    rw [givenLine, String.toList_append]
    exact trimStart_cons_of_not_isBlank (by decide)
  refine ReadsAt.run (?_ : ReadsAt _ _ _ [])
  refine (readsAt_statement_given hne hps htext).bind fun text₁ h₁ => ?_
  exact (readsAt_expectEnd h₁).bind fun text₂ h₂ => readsAt_pure h₂

theorem all_isWritten_givenLine {ps : List Param} (hps : ∀ p ∈ ps, p.Legible) :
    (givenLine ps).toList.all isWritten = true := by
  rw [givenLine, String.toList_append, String.toList_intercalate, List.map_map, List.all_append,
    Bool.and_eq_true]
  exact ⟨by decide, all_intercalate (by decide)
    (List.forall_mem_map.2 fun p hp => (hps p hp).all_isWritten)⟩

theorem Document.read_givenLine (file : String) {ps : List Param} (hne : ps ≠ [])
    (hps : ∀ p ∈ ps, p.Legible) : Document.read file (givenLine ps) = .ok ⟨.empty, ps, []⟩ := by
  have hwritten := List.all_eq_true.1 (all_isWritten_givenLine hps)
  have hfirst : ∃ cs, (givenLine ps).toList = 'g' :: cs := by
    rw [givenLine, String.toList_append]
    exact ⟨_, rfl⟩
  obtain ⟨cs, hcs⟩ := hfirst
  have hlines : Text.lines (givenLine ps).toList = [(givenLine ps).toList] := by
    refine Text.lines_of_notMem (fun hmem => ?_) (by simp [hcs])
    exact absurd (hwritten _ hmem) (by decide)
  have hcomment : stripComment (givenLine ps).toList = (givenLine ps).toList := by
    refine List.takeWhile_eq_self_iff.2 fun c hc => decide_eq_true ?_
    rintro rfl
    exact absurd (hwritten _ hc) (by decide)
  have hblank : (givenLine ps).toList.all Text.isBlank = false := by
    rw [hcs, List.all_cons]
    rfl
  have hline : addLine file empty ((givenLine ps).toList, 0) = .ok ⟨.empty, ps, []⟩ := by
    simp only [addLine, hcomment, hblank, ConceptResolution.read_givenLine hne hps]
    rfl
  rw [Document.read, hlines, List.zipIdx_singleton, List.foldlM_cons, hline]
  rfl

/-- Types that have been read, and parameters in scope that have been read, are read again off their
written form. -/
theorem read_text :
    (∀ src t, Ty.read src = .ok t → Ty.read t.text.toList = .ok t) ∧
      ∀ line ps, Statement.read line = .ok (.given ps) →
        ∀ file, Document.read file (givenLine ps) = .ok ⟨.empty, ps, []⟩ := by
  refine ⟨fun src t h => (Ty.legible_of_read h).read_back, fun line ps h file => ?_⟩
  obtain ⟨hne, hps⟩ := Statement.legible_of_read h
  exact Document.read_givenLine file hne hps

/-- A function type without an arrow, a tuple with a comma at its end, a fresh variable without a
name. -/
theorem read_text_blanks :
    let src := "Fn( 'a , (b , ),? )"
    let line := "given witness 'w:Eq['t]+Ord[ 't ],'t"
    (∃ t, Ty.read src.toList = .ok t ∧ t.text = "Fn('a, (b), ?) -> ()" ∧
      Ty.read t.text.toList = .ok t) ∧
    ∃ ps, Statement.read line.toList = .ok (.given ps) ∧
      givenLine ps = "given witness 'w: Eq['t] + Ord['t], 't" ∧
      Document.read "" (givenLine ps) = .ok ⟨.empty, ps, []⟩ := by
  intro src line
  have hty : (Ty.read src.toList).toOption.any fun t => t.text == "Fn('a, (b), ?) -> ()" := by
    decide +kernel
  have hline : (Statement.read line.toList).toOption.any fun s =>
      match s with
      | .given ps => givenLine ps == "given witness 'w: Eq['t] + Ord['t], 't"
      | _ => false := by
    decide +kernel
  constructor
  · cases h : Ty.read src.toList with
    | error e => simp [h, Except.toOption] at hty
    | ok t => exact ⟨t, rfl, by simpa [h, Except.toOption] using hty, read_text.1 _ t h⟩
  · cases h : Statement.read line.toList with
    | error e => simp [h, Except.toOption] at hline
    | ok s =>
        cases s with
        | given ps =>
            exact ⟨ps, rfl, by simpa [h, Except.toOption] using hline, read_text.2 _ ps h ""⟩
        | _ => simp [h, Except.toOption] at hline

end ConceptResolution
