import BlockScript.Execution.Evaluate
import BlockScript.Reading.Program
import BlockScript.Token.Lexer
import BlockScript.Typing.Program
/-! From a source text to a checked program and to its value. -/
namespace BlockScript

/-- Why a text is not a program, not a sound one, or has no value. -/
inductive ScriptError where
  | lexical (error : LexError)
  | reading (error : ReadError)
  | typing (error : TypeError)
  | running (error : RunError)
  /-- The sink did not deliver what it took. -/
  | delivery
  | outOfFuel
  deriving DecidableEq, Repr

def ScriptError.message : ScriptError → String
  | lexical e => "Lex error: " ++ e.message
  | reading e => "Parse error: " ++ e.message
  | typing e => "Type error: " ++ e.message
  | running e => "Runtime error: " ++ e.message
  | delivery => "CompilerInternalError: Failed flush output"
  | outOfFuel => "CompilerInternalError: Out of fuel"

def ScriptError.ofHalt : Halt → ScriptError
  | .failed e => running e
  | .outOfFuel => outOfFuel

namespace Script

/-- The program a text writes. -/
def read (source : String) : Except ScriptError Program := do
  let tokens ← (Token.scan source).mapError .lexical
  let (program, _) ← (Reader.program.run tokens).mapError .reading
  return program

/-- The program a text writes, checked and with its slots filled. -/
def check (source : String) : Except ScriptError Program := do
  let program ← read source
  (program.check Program.standardNames).mapError .typing

/-- Run a program on a fresh machine and deliver what it printed. -/
def runProgram (fuel : Nat) (program : Program) (sink : Sink) :
    Except ScriptError Value × Sink :=
  match Run.program fuel program (.new Machine.standardNames sink) with
  | .ok v m => (if m.sink.delivers then .ok v else .error .delivery, m.sink)
  | .error halt m => (.error (.ofHalt halt), m.sink)

/-- Check a text and run it: the value of its `main`, and the sink afterwards. -/
def run (fuel : Nat) (source : String) (sink : Sink) : Except ScriptError Value × Sink :=
  match check source with
  | .ok program => runProgram fuel program sink
  | .error e => (.error e, sink)

end Script
end BlockScript
