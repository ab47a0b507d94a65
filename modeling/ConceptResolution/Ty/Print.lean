import ConceptResolution.Ty.Basic

namespace ConceptResolution

namespace Ty

mutual

/-- The written form of a type, as characters. An application without arguments reads like a
constant. -/
def chars : Ty → List Char
  | .const name => name.toList
  | .var v => v.name.toList
  | .fn ps r => ['F', 'n', '('] ++ charsAll ps ++ [')', ' ', '-', '>', ' '] ++ r.chars
  | .app head ts => if ts.isEmpty then head.toList else head.toList ++ ['['] ++ charsAll ts ++ [']']
  | .tuple ts => ['('] ++ charsAll ts ++ [')']

def charsAll : List Ty → List Char
  | [] => []
  | t :: ts => t.chars ++ charsAfter ts

def charsAfter : List Ty → List Char
  | [] => []
  | t :: ts => [',', ' '] ++ t.chars ++ charsAfter ts

end

mutual

def write : Ty → List Char → List Char
  | .const name, rest => name.toList ++ rest
  | .var v, rest => v.name.toList ++ rest
  | .fn ps r, rest =>
    ['F', 'n', '('] ++ writeAll ps ([')', ' ', '-', '>', ' '] ++ r.write rest)
  | .app head ts, rest =>
    if ts.isEmpty then head.toList ++ rest
    else head.toList ++ ['['] ++ writeAll ts ([']'] ++ rest)
  | .tuple ts, rest => ['('] ++ writeAll ts ([')'] ++ rest)

def writeAll : List Ty → List Char → List Char
  | [], rest => rest
  | t :: ts, rest => t.write (writeAfter ts rest)

def writeAfter : List Ty → List Char → List Char
  | [], rest => rest
  | t :: ts, rest => [',', ' '] ++ t.write (writeAfter ts rest)

end

def text (t : Ty) : String :=
  String.ofList (t.write [])

private theorem writeAfter_eq {ts : List Ty} (h : ∀ t ∈ ts, ∀ rest, t.write rest = t.chars ++ rest)
    (rest : List Char) : writeAfter ts rest = charsAfter ts ++ rest := by
  induction ts with
  | nil => rfl
  | cons t ts ih =>
      obtain ⟨ht, hts⟩ := List.forall_mem_cons.1 h
      simp [writeAfter, charsAfter, ht, ih hts]

private theorem writeAll_eq {ts : List Ty} (h : ∀ t ∈ ts, ∀ rest, t.write rest = t.chars ++ rest)
    (rest : List Char) : writeAll ts rest = charsAll ts ++ rest := by
  cases ts with
  | nil => rfl
  | cons t ts =>
      obtain ⟨ht, hts⟩ := List.forall_mem_cons.1 h
      simp [writeAll, charsAll, ht, writeAfter_eq hts]

theorem write_eq (t : Ty) (rest : List Char) : t.write rest = t.chars ++ rest := by
  induction t generalizing rest with
  | const name => rfl
  | var v => rfl
  | fn params result hparams hresult => simp [write, chars, writeAll_eq hparams, hresult]
  | app head args hargs =>
      by_cases h : args.isEmpty <;> simp [write, chars, writeAll_eq hargs, h]
  | tuple elems helems => simp [write, chars, writeAll_eq helems]

theorem text_eq (t : Ty) : t.text = String.ofList t.chars := by
  rw [text, write_eq, List.append_nil]

def listText (ts : List Ty) : String :=
  ", ".intercalate (ts.map text)

def sumText (ts : List Ty) : String :=
  " + ".intercalate (ts.map text)

end Ty

end ConceptResolution
