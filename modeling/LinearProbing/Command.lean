import LinearProbing.Survey

/-!
# The survey command

What a survey prints and how it ends, from the number of keys and the step at
which keys are removed again.  A fault goes to standard error and makes the
command fail.  Who runs the command has read the settings already.
-/

namespace LinearProbing

structure Settings where
  entries : UInt64 := 1000
  removeEvery : UInt64 := 0
deriving DecidableEq

structure Transcript where
  output : List String
  errors : List String
  exitCode : UInt32
deriving DecidableEq

/-- As many slots as fit into the bytes that one allocation can hold. -/
def slotLimit : Nat :=
  (UInt64.size / 2 - 1) / Statistics.bytesPerSlot

def Report.transcript (report : Report) : Transcript :=
  match report.fault with
  | none => ⟨report.lines, [], 0⟩
  | some fault => ⟨report.lines, ["Error: " ++ fault.outline.compact], 1⟩

def Settings.transcript (limit : Nat) (settings : Settings) : Transcript :=
  (Report.ofSurvey limit settings.entries.toNat
    settings.removeEvery.toNat).transcript

def Transcript.print (transcript : Transcript) : IO UInt32 := do
  for line in transcript.output do
    IO.println line
  for line in transcript.errors do
    IO.eprintln line
  return transcript.exitCode

def command (settings : Settings) : IO UInt32 :=
  (settings.transcript slotLimit).print

end LinearProbing
