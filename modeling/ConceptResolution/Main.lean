import ConceptResolution.Report.Arguments

open ConceptResolution

def wantsColors : IO Bool := do
  match ← IO.getEnv "CLICOLOR_FORCE" with
  | some force =>
    if force ≠ "0" then return true
  | none => pure ()
  if (← IO.getEnv "NO_COLOR").isSome then return false
  else return (← (← IO.getStdout).isTty)

def readContents (file : String) : IO (Except String ByteArray) := do
  try
    return .ok (← IO.FS.readBinFile file)
  catch
    | .noFileOrDirectory _ _ _ => return .error "No such file or directory (os error 2)"
    | e => return .error (toString e)

def main (args : List String) : IO UInt32 := do
  match Arguments.ofList args with
  | .error problem =>
    IO.eprintln ("error: " ++ problem)
    IO.eprintln Arguments.usage
    return 1
  | .ok arguments =>
    match arguments.file with
    | none =>
      IO.eprintln Arguments.usage
      return 1
    | some file =>
      let start ← IO.monoMsNow
      let environment := (← IO.getEnv "LOG_LEVEL").bind LogLevel.ofText?
      let settings : Settings := {
        options := {
          maxDepth := arguments.maxDepth.getD Options.standard.maxDepth
          preferMentions := arguments.preferMentions }
        logLevel := (arguments.logLevel <|> environment).getD .info
        colors := ← wantsColors }
      let transcript := Transcript.ofFile settings file (← readContents file)
      for line in transcript.answers do
        IO.println line
      for failure in transcript.failures do
        IO.eprint failure
      match transcript.summary with
      | some summary =>
        let elapsed := (← IO.monoMsNow) - start
        IO.eprintln (summary ++ " in " ++ toString elapsed ++ "ms")
      | none => pure ()
      match transcript.verdict with
      | some verdict => IO.eprint verdict
      | none => pure ()
      return transcript.exitCode.toUInt32
