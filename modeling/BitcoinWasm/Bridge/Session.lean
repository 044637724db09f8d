import BitcoinWasm.Bridge.Disassembler
import BitcoinWasm.Script.Standard
import BitcoinWasm.Semantics.AppendLog

/-! Any sequence of calls into the bridge, over the one vector of scripts they share.

Two calls extend the vector and three look a script up. A call can throw, and a
throwing call has left nothing behind. The vector is a log of the compiles that
returned, and an index is a position in it for the rest of the program.
-/

set_option autoImplicit false

namespace BitcoinWasm.Bridge
open BitcoinWasm.Script BitcoinWasm.CLibrary BitcoinWasm.Semantics

/-- The bytes that `EvalScript` was given, and what it made of them. -/
structure Evaluation where
  script : Bytes
  retval : Bool
  stack : List Bytes
  deriving DecidableEq

/-- `scriptRun` up to the return of `EvalScript`. -/
def evaluate (library : Library) (scripts : Scripts) (idx : Int32) : Except StdException Evaluation := do
  let c ← scriptAt scripts idx
  return ⟨c, (library.evalScript c).1, (library.evalScript c).2⟩

inductive Call where
  | byteCompile (scriptBytes : Bytes)
  | stringCompile (opcodeNames : List CString)
  | decompile (idx : Int32)
  | scriptToString (idx : Int32)
  | scriptRun (idx : Int32)

inductive Reply where
  | index (idx : Int32)
  | code (code : Codeout)
  | text (line : Option SizedRow)
  | evaluated (evaluation : Evaluation)
  deriving DecidableEq

/-- The calls that look up the script of an index. -/
def Call.Reads (idx : Int32) (call : Call) : Prop :=
  call = .decompile idx ∨ call = .scriptToString idx ∨ call = .scriptRun idx

variable (library : Library)

def call (scripts : Scripts) : Call → Except StdException Reply × Scripts
  | .byteCompile scriptBytes =>
    let compiled := byteCompile scripts scriptBytes
    (.ok (.index compiled.1), compiled.2)
  | .stringCompile opcodeNames =>
    let compiled := stringCompile library scripts opcodeNames
    (compiled.1.map .index, compiled.2)
  | .decompile idx => ((decompile library scripts idx).map .code, scripts)
  | .scriptToString idx => ((scriptToString library scripts idx).map .text, scripts)
  | .scriptRun idx => ((evaluate library scripts idx).map .evaluated, scripts)

/-- The script that a call registers. -/
def registered : Call → Option Bytes
  | .byteCompile scriptBytes => some scriptBytes
  | .stringCompile opcodeNames => (encodeOps library opcodeNames).toOption
  | .decompile _ | .scriptToString _ | .scriptRun _ => none

/-- The step lemma: a call extends the vector by its script, or leaves it as it is. -/
theorem call_scripts (scripts : Scripts) (entry : Call) :
    (call library scripts entry).2 = scripts ++ (registered library entry).toList := by
  cases entry with
  | byteCompile scriptBytes => rw [call, byteCompile_eq]; rfl
  | stringCompile opcodeNames =>
    cases encoded : encodeOps library opcodeNames with
    | error thrown => simp [call, registered, encoded, stringCompile_of_thrown encoded, Except.toOption]
    | ok c => simp [call, registered, encoded, stringCompile_of_encoded encoded, Except.toOption]
  | decompile idx => simp [call, registered]
  | scriptToString idx => simp [call, registered]
  | scriptRun idx => simp [call, registered]

def session : AppendLog Bytes Call (Except StdException Reply) where
  step := call library
  added := registered library
  step_log := call_scripts library

theorem call_reads_thrown {idx : Int32} {entry : Call} (reads : entry.Reads idx) {scripts : Scripts}
    {thrown : StdException} (unknown : scriptAt scripts idx = .error thrown) :
    (call library scripts entry).1 = .error thrown := by
  rcases reads with rfl | rfl | rfl
  · simp only [call, decompile, unknown]
    rfl
  · simp only [call, scriptToString, decompile, unknown]
    rfl
  · simp only [call, evaluate, unknown]
    rfl

/-! ## Whole runs -/

end BitcoinWasm.Bridge
