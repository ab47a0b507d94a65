import ConceptResolution.Syntax.Error
import ConceptResolution.Text.Scan

namespace ConceptResolution

namespace Scan

def expect (wanted : List Char) : Scan SyntaxError Unit := do
  if ← eat wanted then
    return ()
  else
    failWith fun text => .expected (String.ofList wanted) (SyntaxError.describe text)

def expectEnd : Scan SyntaxError Unit := do
  if ← atEnd then
    return ()
  else
    failWith fun text => .trailing (SyntaxError.describe text)

def param : Scan SyntaxError Ty := do
  expect ['\'']
  match ← ident with
  | [] => fail .unnamedParam
  | name => return .var ⟨String.ofList ('\'' :: name)⟩

/-- A fresh variable: a question mark and a name, which may be empty. -/
def freshVar : Scan SyntaxError Ty := do
  expect ['?']
  return .var ⟨String.ofList ('?' :: (← ident))⟩

mutual

/-- A type. The bound is on how deep its parts and their lists are nested. -/
def tyWithin : Nat → Scan SyntaxError Ty
  | 0 => failWith fun text => .expectedType (SyntaxError.describe text)
  | n + 1 => do
    if (← peekBytes 3) = some ['F', 'n', '('] then
      expect ['F', 'n']
      let params ← tupleWithin n
      if (← peekBytes 2) = some ['-', '>'] then
        expect ['-', '>']
        return .fn params (← tyWithin n)
      else
        return .fn params .unit
    else
      match ← peek with
      | some '\'' => param
      | some '?' => freshVar
      | some '(' => return .tuple (← tupleWithin n)
      | _ =>
        match ← ident with
        | [] => failWith fun text => .expectedType (SyntaxError.describe text)
        | name =>
          if (← peek) = some '[' then
            expect ['[']
            let args ← argsWithin n
            expect [']']
            return .named (String.ofList name) args
          else
            return .const (String.ofList name)

def tupleWithin : Nat → Scan SyntaxError (List Ty)
  | 0 => failWith fun text => .expectedType (SyntaxError.describe text)
  | n + 1 => do
    expect ['(']
    let elems ← elemsWithin n
    expect [')']
    return elems

/-- The parts of a tuple up to its closing parenthesis; the last one may be followed by a comma. -/
def elemsWithin : Nat → Scan SyntaxError (List Ty)
  | 0 => failWith fun text => .expectedType (SyntaxError.describe text)
  | n + 1 => do
    if (← peek) = some ')' then
      return []
    else
      let t ← tyWithin n
      if (← peek) = some ')' then
        return [t]
      else
        expect [',']
        return t :: (← elemsWithin n)

/-- Type arguments up to the closing bracket: at least one, and no comma after the last. -/
def argsWithin : Nat → Scan SyntaxError (List Ty)
  | 0 => failWith fun text => .expectedType (SyntaxError.describe text)
  | n + 1 => do
    let t ← tyWithin n
    if (← peek) = some ']' then
      return [t]
    else
      expect [',']
      return t :: (← argsWithin n)

end

/-- Enough nesting for any type in a text: a type and a list around it take a character at least. -/
def nesting (text : List Char) : Nat :=
  3 * text.length + 3

def ty : Scan SyntaxError Ty :=
  fun text => tyWithin (nesting text) text

def tuple : Scan SyntaxError (List Ty) :=
  fun text => tupleWithin (nesting text) text

def tySum : Scan SyntaxError (List Ty) :=
  sepBy ['+'] ty

end Scan

def Ty.read (text : List Char) : Except SyntaxError Ty :=
  Scan.run (do let t ← Scan.ty; Scan.expectEnd; return t) text

end ConceptResolution
