import BitcoinWasm.Bridge.HeapUse
import BitcoinWasm.Marshalling.Lossless
import BitcoinWasm.Marshalling.Text
import BitcoinWasm.Marshalling.Truncated
import BitcoinWasm.Semantics.Simulation

/-! The calls of a session in linear memory.

Arguments go through the memory and results are pointers into it. As long as the
memory has room, the calls do what the session says. A script that ends within an
operation can be disassembled, too, if it is so short that its rows are pointed to
below everything that the allocator hands out. Then no call touches what earlier
ones returned, so their pointers lead to the same results until the program ends.
-/

set_option autoImplicit false

namespace BitcoinWasm.Marshalling
open BitcoinWasm.Encoding BitcoinWasm.Script BitcoinWasm.CLibrary BitcoinWasm.Semantics BitcoinWasm.Bridge

structure World where
  scripts : Scripts
  heap : Heap

/-- What `ccall` returns. -/
inductive Answer where
  | index (idx : Int32)
  | pointer (ptr : Nat)

/-- A call without arguments in memory. An exception leaves the world as it was. -/
def World.answer (world : World) :
    Except StdException (Option (Nat × Heap)) → Option (Except StdException Answer × World)
  | .error thrown => some (.error thrown, world)
  | .ok none => none
  | .ok (some (ptr, heap)) => some (.ok (.pointer ptr), { world with heap })

variable (allocator : Allocator) (library : Library)

/-- One call, together with the passing of its arguments. -/
def World.step (world : World) : Call → Option (Except StdException Answer × World)
  | .byteCompile scriptBytes =>
    let (ptr, heap) := arrayToHeap allocator world.heap scriptBytes
    let (idx, scripts) := byteCompile world.scripts heap.memory ptr scriptBytes.length
    some (.ok (.index idx), ⟨scripts, heap⟩)
  | .stringCompile opcodeNames => do
    let (ptr, heap) := passStrings allocator world.heap opcodeNames
    let (returned, scripts) ← stringCompile allocator library world.scripts heap.memory ptr opcodeNames.length
    return (returned.map .index, ⟨scripts, heap⟩)
  | .decompile idx => world.answer (decompile allocator library world.scripts world.heap idx)
  | .scriptToString idx => world.answer (scriptToString allocator library world.scripts world.heap idx)
  | .scriptRun idx => world.answer (scriptRun allocator library world.scripts world.heap idx)

/-! ## What the calls need -/

/-- There is no array for a count of -1. -/
def codeoutRequests (code : Codeout) : List Nat :=
  if code.len < 0 then codeoutSize :: code.lines.map fun store => rowSize store.1
  else tableRequests codeout (code.lines.map Prod.fst)

/-- The blocks that a call asks for. -/
def callRequests (scripts : Scripts) : Call → List Nat
  | .byteCompile scriptBytes => [scriptBytes.length]
  | .stringCompile opcodeNames => passRequests opcodeNames
  | .decompile idx | .scriptToString idx =>
    match Bridge.decompile library scripts idx with
    | .ok code => codeoutRequests code
    | .error _ => []
  | .scriptRun idx =>
    match evaluate library scripts idx with
    | .ok evaluation => requests evaluation.stack
    | .error _ => []

def sessionRequests (scripts : Scripts) : List Call → List Nat
  | [] => []
  | entry :: rest => callRequests library scripts entry ++ sessionRequests (call library scripts entry).2 rest

/-- A script that the call disassembles ends behind an operation, or is so short that
no pointer is stored from the base on. -/
def Harmless (base : Nat) (scripts : Scripts) (entry : Call) : Prop :=
  ∀ idx, entry = .decompile idx ∨ entry = .scriptToString idx → ∀ script, scriptAt scripts idx = .ok script →
    format.Complete script ∨ pointerSize * script.length ≤ base

def AllHarmless (base : Nat) (scripts : Scripts) : List Call → Prop
  | [] => True
  | entry :: rest => Harmless base scripts entry ∧ AllHarmless base (call library scripts entry).2 rest

/-! ## What the answers stand for -/

/-- The reply that can be read behind an answer. A count of -1 comes without an array,
and the pointer that `scriptToString` loads where no row was stored leads nowhere. -/
inductive Represents (limit : Nat) (heap : Heap) : Answer → Reply → Prop where
  | index (idx : Int32) : Represents limit heap (.index idx) (.index idx)
  | code {code lines : Nat} {rows : List SizedRow} : TableAt codeout limit heap code lines rows →
      Represents limit heap (.pointer code) (.code ⟨rows.length, rows.zipIdx⟩)
  | broken {code : Nat} (lines : List (SizedRow × Nat)) : Owned limit heap ⟨code, codeoutSize⟩ brokenCode →
      Represents limit heap (.pointer code) (.code ⟨-1, lines⟩)
  | text {line : Nat} {row : SizedRow} : Owned limit heap ⟨line, rowSize row⟩ (rowBytes row) →
      Represents limit heap (.pointer line) (.text (some row))
  | noText (line : Nat) : Represents limit heap (.pointer line) (.text none)
  | stack {struct lines : Nat} {evaluation : Evaluation} :
      StackAt limit heap struct lines evaluation.retval evaluation.stack →
      Represents limit heap (.pointer struct) (.evaluated evaluation)

/-- Exceptions are passed on. -/
inductive Agrees (limit : Nat) (heap : Heap) : Except StdException Answer → Except StdException Reply → Prop where
  | thrown (thrown : StdException) : Agrees limit heap (.error thrown) (.error thrown)
  | returned {answer : Answer} {reply : Reply} : Represents limit heap answer reply →
      Agrees limit heap (.ok answer) (.ok reply)

theorem Represents.frame {limit : Nat} {before after : Heap} {answer : Answer} {reply : Reply}
    (represents : Represents limit before answer reply) (frame : Frame before after fun _ => False) :
    Represents limit after answer reply := by
  cases represents with
  | index idx => exact .index idx
  | code stands => exact .code (stands.frame frame)
  | broken lines owned => exact .broken lines (owned.frame frame)
  | text owned => exact .text (owned.frame frame)
  | noText line => exact .noText line
  | stack stands => exact .stack (stands.frame frame)

theorem Agrees.frame {limit : Nat} {before after : Heap} {answer : Except StdException Answer}
    {reply : Except StdException Reply} (agrees : Agrees limit before answer reply)
    (frame : Frame before after fun _ => False) : Agrees limit after answer reply := by
  cases agrees with
  | thrown thrown => exact .thrown thrown
  | returned represents => exact .returned (represents.frame frame)

/-! ## One call -/

/-- A call returns, in the heap behind it the answer agrees with the reply, and there is room for more. -/
def Carries (world : World) (entry : Call) (sizes : List Nat) : Prop :=
  ∃ answer after, world.step allocator library entry = some (answer, after) ∧
    after.scripts = (call library world.scripts entry).2 ∧
    Agrees allocator.limit after.heap answer (call library world.scripts entry).1 ∧
    Frame world.heap after.heap (fun _ => False) ∧ allocator.serves after.heap.live sizes

variable {allocator} {library} {world : World} {sizes : List Nat}

theorem carries_byteCompile {scriptBytes : Bytes}
    (served : allocator.serves world.heap.live (scriptBytes.length :: sizes)) :
    Carries allocator library world (.byteCompile scriptBytes) sizes := by
  obtain ⟨ptr, heap, passed, compiled, frame, later⟩ :=
    byteCompile_passed world.scripts scriptBytes world.heap served
  refine ⟨_, ⟨_, heap⟩, ?_, rfl, .returned (.index _), frame, later⟩
  simp only [World.step, passed, compiled]
  rfl

theorem carries_stringCompile {opcodeNames : List CString}
    (served : allocator.serves world.heap.live (passRequests opcodeNames ++ sizes)) :
    Carries allocator library world (.stringCompile opcodeNames) sizes := by
  obtain ⟨ptr, heap, passed, compiled, frame, later⟩ :=
    stringCompile_passed library world.scripts opcodeNames world.heap served
  refine ⟨(Bridge.stringCompile library world.scripts opcodeNames).1.map .index, ⟨_, heap⟩, ?_, rfl, ?_, frame, later⟩
  · simp only [World.step, passed, compiled]
    rfl
  · rw [call]
    cases (Bridge.stringCompile library world.scripts opcodeNames).1 with
    | error thrown => exact .thrown thrown
    | ok idx => exact .returned (.index idx)

/-- A lookup of an unknown index throws before it asks for memory. -/
theorem carries_thrown {entry : Call} {idx : Int32} (reading : entry.Reads idx) {thrown : StdException}
    (unknown : scriptAt world.scripts idx = .error thrown)
    (served : allocator.serves world.heap.live (callRequests library world.scripts entry ++ sizes)) :
    Carries allocator library world entry sizes := by
  have nothing : callRequests library world.scripts entry = [] := by
    rcases reading with rfl | rfl | rfl
    · simp only [callRequests, Bridge.decompile, unknown]
      rfl
    · simp only [callRequests, Bridge.decompile, unknown]
      rfl
    · simp only [callRequests, evaluate, unknown]
      rfl
  rw [nothing] at served
  refine ⟨.error thrown, world, ?_, ?_, ?_, Frame.refl _ _, served⟩
  · rcases reading with rfl | rfl | rfl
    · simp only [World.step, decompile, unknown]
      rfl
    · simp only [World.step, scriptToString, decompile, unknown]
      rfl
    · simp only [World.step, scriptRun, evaluate, unknown]
      rfl
  · rcases reading with rfl | rfl | rfl <;> rfl
  · rw [call_reads_thrown library reading unknown]
    exact .thrown thrown

theorem callRequests_whole (reads : library.ReadsFormat) {scripts : Scripts} {idx : Int32}
    {operations : List Operation} (found : scriptAt scripts idx = .ok (format.encodeAll operations)) :
    callRequests library scripts (.decompile idx) = codeRequests operations := by
  have rows : (operations.map operationRow).zipIdx.map Prod.fst = operations.map operationRow :=
    List.zipIdx_map_fst ..
  have counted : ¬ ((operations.map operationRow).length : Int) < 0 := by omega
  simp only [callRequests, decompile_encodeAll reads found, codeoutRequests, if_neg counted, rows, codeRequests]

theorem decompile_of_truncated (reads : library.ReadsFormat) {scripts : Scripts} {idx : Int32} {script : Bytes}
    (found : scriptAt scripts idx = .ok script) (truncated : ¬ format.Complete script) :
    Bridge.decompile library scripts idx = .ok ⟨-1, Bridge.fillLines library script 0⟩ := by
  rw [Bridge.decompile, found, ← scriptCountFrom_incomplete reads truncated 0]
  rfl

theorem callRequests_truncated (reads : library.ReadsFormat) {scripts : Scripts} {idx : Int32} {script : Bytes}
    (found : scriptAt scripts idx = .ok script) (truncated : ¬ format.Complete script) :
    callRequests library scripts (.decompile idx) = truncatedRequests library script := by
  have counted : (-1 : Int) < 0 := by decide
  simp only [callRequests, decompile_of_truncated reads found truncated, codeoutRequests, if_pos counted,
    truncatedRequests]

theorem carries_decompile (reads : library.ReadsFormat) {idx : Int32} {operations : List Operation}
    (found : scriptAt world.scripts idx = .ok (format.encodeAll operations))
    (served : allocator.serves world.heap.live (codeRequests operations ++ sizes)) :
    Carries allocator library world (.decompile idx) sizes := by
  obtain ⟨code, lines, heap, returned, stands, frame, later⟩ := decompile_spec reads found world.heap served
  refine ⟨.ok (.pointer code), ⟨world.scripts, heap⟩, ?_, rfl, ?_, frame, later⟩
  · simp only [World.step, returned]
    rfl
  · rw [call, decompile_encodeAll reads found]
    exact .returned (.code stands)

theorem carries_scriptToString (reads : library.ReadsFormat) {idx : Int32} {operations : List Operation}
    (found : scriptAt world.scripts idx = .ok (format.encodeAll operations))
    (served : allocator.serves world.heap.live (codeRequests operations ++ sizes)) :
    Carries allocator library world (.scriptToString idx) sizes := by
  have shown : (call library world.scripts (.scriptToString idx)).1 = .ok (.text (operations.map operationRow)[0]?) := by
    rw [call, Bridge.scriptToString, decompile_encodeAll reads found, ← line?_zipIdx (operations.map operationRow).length]
    rfl
  cases operations with
  | nil =>
    -- There is no row, and nothing is known about the word that is loaded for it.
    obtain ⟨code, lines, heap, returned, _, frame, later⟩ := decompile_spec reads found world.heap served
    let line := heap.memory.loadWord (heap.memory.loadWord (code + linesOffset))
    refine ⟨.ok (.pointer line), ⟨world.scripts, heap⟩, ?_, rfl, ?_, frame, later⟩
    · simp only [World.step, scriptToString, returned]
      rfl
    · rw [shown]
      exact .returned (.noText _)
  | cons operation others =>
    obtain ⟨line, heap, returned, owned, frame, later⟩ := scriptToString_spec reads found world.heap served
    refine ⟨.ok (.pointer line), ⟨world.scripts, heap⟩, ?_, rfl, ?_, frame, later⟩
    · simp only [World.step, returned]
      rfl
    · rw [shown]
      exact .returned (.text owned)

section Truncated

variable {base : Nat} (behind : allocator.From base) (reads : library.ReadsFormat) {idx : Int32} {script : Bytes}
  (found : scriptAt world.scripts idx = .ok script) (truncated : ¬ format.Complete script)
  (short : pointerSize * script.length ≤ base) (stands : StandsFrom base world.heap.live)
  (served : allocator.serves world.heap.live (truncatedRequests library script ++ sizes))
include behind reads found truncated short stands served

theorem carries_decompile_truncated : Carries allocator library world (.decompile idx) sizes := by
  obtain ⟨code, heap, returned, owned, frame, _, later⟩ :=
    decompile_truncated behind reads found truncated short stands served
  refine ⟨.ok (.pointer code), ⟨world.scripts, heap⟩, ?_, rfl, ?_, frame, later⟩
  · simp only [World.step, returned]
    rfl
  · rw [call, decompile_of_truncated reads found truncated]
    exact .returned (.broken _ owned)

theorem carries_scriptToString_truncated : Carries allocator library world (.scriptToString idx) sizes := by
  obtain ⟨line, heap, returned, owned, frame, later⟩ :=
    scriptToString_truncated behind reads found truncated short stands served
  refine ⟨.ok (.pointer line), ⟨world.scripts, heap⟩, ?_, rfl, ?_, frame, later⟩
  · simp only [World.step, returned]
    rfl
  · have shown : Bridge.scriptToString library world.scripts idx =
        .ok ((⟨-1, Bridge.fillLines library script 0⟩ : Codeout).line? 0) := by
      rw [Bridge.scriptToString, decompile_of_truncated reads found truncated]
      rfl
    rw [call, shown]
    cases first : (⟨-1, Bridge.fillLines library script 0⟩ : Codeout).line? 0 with
    | none => exact .returned (.noText line)
    | some row => exact .returned (.text (owned row (shown.trans (congrArg Except.ok first))))

end Truncated

theorem carries_scriptRun {idx : Int32} {evaluation : Evaluation}
    (evaluated : evaluate library world.scripts idx = .ok evaluation)
    (served : allocator.serves world.heap.live (requests evaluation.stack ++ sizes)) :
    Carries allocator library world (.scriptRun idx) sizes := by
  obtain ⟨struct, lines, heap, returned, stands, frame, later⟩ := returnStack_spec evaluation.retval served
  refine ⟨.ok (.pointer struct), ⟨world.scripts, heap⟩, ?_, rfl, ?_, frame, later⟩
  · simp only [World.step, scriptRun, evaluated]
    change World.answer world (Except.ok (returnStack allocator world.heap evaluation.retval evaluation.stack)) = _
    rw [returned]
    rfl
  · rw [call, evaluated]
    exact .returned (.stack stands)

/-- The step lemma: with room and a harmless script to disassemble, a call does what the session says. -/
theorem step_carries {base : Nat} (behind : allocator.From base) (reads : library.ReadsFormat) {entry : Call}
    (harmless : Harmless base world.scripts entry) (stands : StandsFrom base world.heap.live)
    (served : allocator.serves world.heap.live (callRequests library world.scripts entry ++ sizes)) :
    Carries allocator library world entry sizes := by
  cases entry with
  | byteCompile scriptBytes => exact carries_byteCompile served
  | stringCompile opcodeNames => exact carries_stringCompile served
  | decompile idx =>
    cases found : scriptAt world.scripts idx with
    | error thrown => exact carries_thrown (.inl rfl) found served
    | ok script =>
      by_cases whole : format.Complete script
      · obtain ⟨operations, rfl⟩ := whole
        exact carries_decompile reads found (callRequests_whole reads found ▸ served)
      · have short := (harmless idx (.inl rfl) script found).resolve_left whole
        exact carries_decompile_truncated behind reads found whole short stands
          (callRequests_truncated reads found whole ▸ served)
  | scriptToString idx =>
    cases found : scriptAt world.scripts idx with
    | error thrown => exact carries_thrown (.inr (.inl rfl)) found served
    | ok script =>
      -- It asks for the same blocks as `decompile`.
      change allocator.serves _ (callRequests library world.scripts (.decompile idx) ++ sizes) at served
      by_cases whole : format.Complete script
      · obtain ⟨operations, rfl⟩ := whole
        exact carries_scriptToString reads found (callRequests_whole reads found ▸ served)
      · have short := (harmless idx (.inr rfl) script found).resolve_left whole
        exact carries_scriptToString_truncated behind reads found whole short stands
          (callRequests_truncated reads found whole ▸ served)
  | scriptRun idx =>
    cases found : scriptAt world.scripts idx with
    | error thrown => exact carries_thrown (.inr (.inr rfl)) found served
    | ok script =>
      have evaluated : evaluate library world.scripts idx =
          .ok ⟨script, (library.evalScript script).1, (library.evalScript script).2⟩ := by
        rw [evaluate, found]
        rfl
      rw [callRequests, evaluated] at served
      exact carries_scriptRun evaluated served

/-! ## Whole sessions -/

theorem answer_grows {result : Except StdException (Option (Nat × Heap))}
    (grows : ∀ ptr heap, result = .ok (some (ptr, heap)) → allocator.Grows world.heap heap)
    {answer : Except StdException Answer} {after : World} (answered : world.answer result = some (answer, after)) :
    allocator.Grows world.heap after.heap := by
  cases result with
  | error thrown =>
    cases answered
    exact .refl
  | ok returned =>
    cases returned with
    | none => cases answered
    | some result =>
      cases answered
      exact grows _ _ rfl

theorem step_grows {entry : Call} {answer : Except StdException Answer} {after : World}
    (stepped : world.step allocator library entry = some (answer, after)) :
    allocator.Grows world.heap after.heap := by
  cases entry with
  | byteCompile scriptBytes =>
    cases stepped
    exact arrayToHeap_grows allocator world.heap scriptBytes
  | stringCompile opcodeNames =>
    obtain ⟨compiled, _, same⟩ := Option.bind_eq_some_iff.mp stepped
    cases same
    exact passStrings_grows allocator world.heap opcodeNames
  | decompile idx => exact answer_grows (fun _ _ => decompile_grows) stepped
  | scriptToString idx => exact answer_grows (fun _ _ => scriptToString_grows) stepped
  | scriptRun idx => exact answer_grows (fun _ _ => scriptRun_grows) stepped

/-- The bridge in linear memory carries out its session. -/
def memorySession (allocator : Allocator) {base : Nat} (behind : allocator.From base)
    (reads : library.ReadsFormat) : Simulation (session library) World (Except StdException Answer) where
  step := World.step allocator library
  log := World.scripts
  Stands world := Agrees allocator.limit world.heap
  Later before after := Frame before.heap after.heap fun _ => False
  Admits world calls := AllHarmless library base world.scripts calls ∧ StandsFrom base world.heap.live ∧
    allocator.serves world.heap.live (sessionRequests library world.scripts calls)
  later_refl world := Frame.refl world.heap _
  later_trans := Frame.trans
  stands_later later agrees := agrees.frame later
  step_spec admits := by
    obtain ⟨⟨harmless, restHarmless⟩, stands, served⟩ := admits
    obtain ⟨answer, after, stepped, logged, agrees, frame, restServed⟩ :=
      step_carries behind reads harmless stands served
    refine ⟨answer, after, stepped, logged, agrees, frame, ?_⟩
    rw [logged]
    exact ⟨restHarmless, (step_grows stepped).standsFrom behind stands, restServed⟩

theorem Agrees.of_evaluated {limit : Nat} {heap : Heap} {answer : Except StdException Answer}
    {evaluation : Evaluation} (agrees : Agrees limit heap answer (.ok (.evaluated evaluation))) :
    ∃ struct lines, answer = .ok (.pointer struct) ∧
      StackAt limit heap struct lines evaluation.retval evaluation.stack := by
  cases agrees with
  | returned represents =>
    cases represents with
    | @stack struct lines _ stands => exact ⟨struct, lines, rfl, stands⟩

section Run

variable (reads : library.ReadsFormat) (allocator) {base : Nat} (behind : allocator.From base) (calls : List Call)
  (world : World) (harmless : AllHarmless library base world.scripts calls)
  (stands : StandsFrom base world.heap.live)
  (served : allocator.serves world.heap.live (sessionRequests library world.scripts calls))
include harmless stands served

/-- The run theorem: no call gets stuck, the scripts are those of the session, and at
the end every answer still stands for the reply to its call. -/
theorem memorySession_run :
    ∃ answers after, (memorySession allocator behind reads).run world calls = some (answers, after) ∧
      after.scripts = ((session library).run world.scripts calls).2 ∧
      List.Forall₂ (Agrees allocator.limit after.heap) answers ((session library).run world.scripts calls).1 ∧
      Frame world.heap after.heap fun _ => False :=
  (memorySession allocator behind reads).run_spec calls world ⟨harmless, stands, served⟩

/-- A result of `scriptRun` with short rows can be read at any later time, and comes back whole. -/
theorem memorySession_extractStack :
    ∃ answers after, (memorySession allocator behind reads).run world calls = some (answers, after) ∧
      ∀ (i : Nat) (evaluation : Evaluation),
        ((session library).run world.scripts calls).1[i]? = some (.ok (.evaluated evaluation)) →
        (∀ strvec ∈ evaluation.stack, strvec.length ≤ 127) → ∃ struct, answers[i]? = some (.ok (.pointer struct)) ∧
          extractStack allocator.limit after.heap.memory struct = .ok ⟨evaluation.retval, evaluation.stack⟩ := by
  obtain ⟨answers, after, ran, _, agree, _⟩ :=
    (memorySession allocator behind reads).run_spec calls world ⟨harmless, stands, served⟩
  refine ⟨answers, after, ran, ?_⟩
  intro i evaluation replied short
  obtain ⟨inside, reply⟩ := List.getElem?_eq_some_iff.mp replied
  have answered : i < answers.length := agree.length_eq ▸ inside
  have agrees := agree.get answered inside
  rw [List.get_eq_getElem, List.get_eq_getElem] at agrees
  change Agrees _ _ _ (((session library).run world.scripts calls).1[i]) at agrees
  rw [reply] at agrees
  obtain ⟨struct, lines, answer, stands⟩ := agrees.of_evaluated
  refine ⟨struct, ?_, ?_⟩
  · rw [List.getElem?_eq_getElem answered, answer]
  · rw [extractStack_eq allocator.limit_le stands, (mapM_readRow_eq_ok_iff _).mpr short]
    rfl

end Run

/-- `OP_1` and a push without its operand, next to a script of two numbers. Both are
shown, and the second one is run before. -/
def demoCalls (op_codes : List CString) : List Call :=
  [.byteCompile [0x51, 0x01], .stringCompile op_codes, .scriptRun 1, .decompile 0, .scriptToString 0,
    .scriptToString 1]

def demoScripts : Scripts := [[0x51, 0x01], [0x01, 0x01, 0x01, 0x82]]

theorem scriptAt_mem {scripts : Scripts} {idx : Int32} {script : Bytes} (found : scriptAt scripts idx = .ok script) :
    script ∈ scripts := by
  unfold scriptAt at found
  split at found
  next c stored =>
    cases found
    exact List.mem_of_getElem? stored
  next => cases found

theorem demoCalls_harmless :
    AllHarmless Standard.library 8 [] (demoCalls [.literal "1", .literal "-2"]) := by
  have second : (call Standard.library [[0x51, 0x01]] (.stringCompile [.literal "1", .literal "-2"])).2 =
      demoScripts := by
    decide +kernel
  have numbers : ([0x01, 0x01, 0x01, 0x82] : Bytes) =
      format.encodeAll [.direct [0x01] (by decide), .direct [0x82] (by decide)] := rfl
  have shown : ∀ entry, Harmless 8 demoScripts entry := by
    intro entry idx _ script found
    rcases List.mem_cons.mp (scriptAt_mem found) with rfl | later
    · exact .inr (Nat.le_refl 8)
    · rw [List.mem_singleton.mp later, numbers]
      exact .inl (format.complete_encodeAll _)
  have silent : ∀ scripts entry, (∀ idx, entry ≠ .decompile idx ∧ entry ≠ .scriptToString idx) →
      Harmless 8 scripts entry := by
    intro scripts entry other idx reading
    rcases reading with reading | reading
    · exact absurd reading (other idx).1
    · exact absurd reading (other idx).2
  refine ⟨silent _ _ (by simp), ?_⟩
  change Harmless 8 [[0x51, 0x01]] _ ∧ AllHarmless _ 8 (call Standard.library [[0x51, 0x01]] _).2 _
  rw [second]
  exact ⟨silent _ _ (by simp), shown _, shown _, shown _, shown _, trivial⟩

theorem memorySession_run_demo : ∃ answers after,
    (memorySession pages (bump_from _) Standard.readsFormat).run ⟨[], emptyHeap⟩
        (demoCalls [.literal "1", .literal "-2"]) = some (answers, after) ∧
      after.scripts = demoScripts ∧ answers.length = 6 := by
  obtain ⟨answers, after, ran, scripts, agree, _⟩ := memorySession_run pages Standard.readsFormat (bump_from _)
    _ ⟨[], emptyHeap⟩ demoCalls_harmless (fun _ member => by cases member) (by decide +kernel)
  refine ⟨answers, after, ran, scripts.trans (by decide +kernel), ?_⟩
  rw [agree.length_eq]
  decide +kernel

theorem memorySession_demo : ∃ answers after struct,
    (memorySession pages (bump_from _) Standard.readsFormat).run ⟨[], emptyHeap⟩
        (demoCalls [.literal "1", .literal "-2"]) = some (answers, after) ∧
      answers[2]? = some (.ok (.pointer struct)) ∧
      extractStack pages.limit after.heap.memory struct = .ok ⟨true, [[0x01], [0x82]]⟩ := by
  obtain ⟨answers, after, ran, readable⟩ := memorySession_extractStack pages Standard.readsFormat (bump_from _)
    _ ⟨[], emptyHeap⟩ demoCalls_harmless (fun _ member => by cases member) (by decide +kernel)
  obtain ⟨struct, answered, extracted⟩ :=
    readable 2 ⟨[0x01, 0x01, 0x01, 0x82], true, [[0x01], [0x82]]⟩ (by decide +kernel) (by decide)
  exact ⟨answers, after, struct, ran, answered, extracted⟩

end BitcoinWasm.Marshalling
