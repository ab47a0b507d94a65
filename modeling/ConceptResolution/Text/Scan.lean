import ConceptResolution.Text.Chars

namespace ConceptResolution

/-- The outcome of a scan, with the text that is left. -/
inductive Scanned (ε α : Type) where
  | value (a : α) (rest : List Char)
  | error (e : ε) (rest : List Char)

/-- A step that reads from the front of a text. -/
def Scan (ε α : Type) :=
  List Char → Scanned ε α

namespace Scan

variable {ε α β : Type}

instance : Monad (Scan ε) where
  pure a := fun text => .value a text
  bind p f := fun text =>
    match p text with
    | .value a rest => f a rest
    | .error e rest => .error e rest

instance : LawfulMonad (Scan ε) := by
  refine .mk' _ (fun p => ?_) (fun _ _ => rfl) (fun p f g => ?_)
  · funext text
    show (match p text with
      | .value a rest => .value a rest
      | .error e rest => .error e rest) = p text
    cases p text <;> rfl
  · funext text
    show (match (match p text with
        | .value a rest => f a rest
        | .error e rest => .error e rest) with
      | .value b rest => g b rest
      | .error e rest => .error e rest) = _
    cases h : p text <;> simp [bind, h]

def failWith (e : List Char → ε) : Scan ε α :=
  fun text => .error (e text) text

def fail (e : ε) : Scan ε α :=
  failWith fun _ => e

def run (p : Scan ε α) (text : List Char) : Except ε α :=
  match p text with
  | .value a _ => .ok a
  | .error e _ => .error e

theorem bind_apply (p : Scan ε α) (f : α → Scan ε β) (text : List Char) :
    (p >>= f) text =
      match p text with
      | .value a rest => f a rest
      | .error e rest => .error e rest := rfl

def skipBlanks : Scan ε Unit :=
  fun text => .value () (Text.trimStart text)

def ahead : Scan ε (List Char) := do
  skipBlanks
  fun text => .value text text

def peek : Scan ε (Option Char) := do
  return (← ahead).head?

def peekBytes (n : Nat) : Scan ε (Option (List Char)) := do
  return Text.takeBytes n (← ahead)

def next : Scan ε (Option Char) := do
  match ← ahead with
  | [] => return none
  | c :: cs => fun _ => .value (some c) cs

def atEnd : Scan ε Bool := do
  return (← ahead).isEmpty

/-- Take the given text if it is ahead; blanks are passed over in any case. -/
def eat (wanted : List Char) : Scan ε Bool := do
  let text ← ahead
  if wanted.isPrefixOf text then fun _ => .value true (text.drop wanted.length)
  else return false

def isIdentChar (c : Char) : Bool :=
  c.isAlphanum || c == '_'

/-- Take the identifier ahead, which is empty where none starts. -/
def ident : Scan ε (List Char) := do
  let text ← ahead
  fun _ => .value (text.takeWhile isIdentChar) (text.dropWhile isIdentChar)

/-- Take an identifier if it is the given one; otherwise take nothing at all. -/
def keyword (word : List Char) : Scan ε Bool :=
  fun text =>
    match ident text with
    | .value name rest => if name = word then .value true rest else .value false text
    | .error e rest => .error e rest

/-- One item, and another one after each separator. The bound is on the number of separators. -/
def sepByWithin (separator : List Char) (item : Scan ε α) : Nat → Scan ε (List α)
  | 0 => do return [← item]
  | n + 1 => do
    let a ← item
    if ← eat separator then
      return a :: (← sepByWithin separator item n)
    else
      return [a]

def sepBy (separator : List Char) (item : Scan ε α) : Scan ε (List α) :=
  fun text => sepByWithin separator item text.length text

end Scan

end ConceptResolution
