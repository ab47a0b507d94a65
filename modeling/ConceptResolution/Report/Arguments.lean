import ConceptResolution.Report.Session

namespace ConceptResolution

structure Arguments where
  file : Option String
  maxDepth : Option Nat
  preferMentions : Bool
  logLevel : Option LogLevel

namespace Arguments

def usage : String :=
  "usage: resolve [--log-level off|error|warn|info|debug|trace] [--max-depth N] " ++
    "[--no-mention-heuristic] FILE"

def start : Arguments := ⟨none, none, true, none⟩

def setLogLevel (a : Arguments) (level : String) : Except String Arguments :=
  match LogLevel.ofText? level with
  | some l => .ok { a with logLevel := some l }
  | none => .error ("unknown log level " ++ level)

def setMaxDepth (a : Arguments) (depth : String) : Except String Arguments :=
  match depth.toNat? with
  | some n => .ok { a with maxDepth := some n }
  | none => .error ("not a depth: " ++ depth)

def setFile (a : Arguments) (file : String) : Except String Arguments :=
  match a.file with
  | none => .ok { a with file := some file }
  | some _ => .error ("unexpected argument " ++ file)

def read (a : Arguments) : List String → Except String Arguments
  | [] => .ok a
  | "--no-mention-heuristic" :: rest => read { a with preferMentions := false } rest
  | "--log-level" :: level :: rest => do read (← a.setLogLevel level) rest
  | "--max-depth" :: depth :: rest => do read (← a.setMaxDepth depth) rest
  | other :: rest =>
    if other.startsWith "-" then .error ("unknown option " ++ other)
    else do read (← a.setFile other) rest

def ofList (args : List String) : Except String Arguments :=
  if args.contains "resolve" then read start (args.erase "resolve")
  else .error "missing command resolve"

end Arguments

end ConceptResolution
